import Mathlib.Data.Multiset.OrderedMonoid
import XynokConcurrency.ThreadPool.Locks

/-!
# Sleep registrations

A worker that finds nothing to do registers in {lit}`sleepers`, parks, and takes its
registration back; {lit}`wake_one`, the sleepers pass of {lit}`publish_batch` and
{lit}`wake_all` take registrations out and unpark their workers.  Here any threads make
these four calls on one pool, while everything else the calls look at (the queues, the
running flag, the park tokens) changes at any time.

Main results:

- Theorem {lit}`Sleepers.registrations_exact`: in every reachable state the registrations
  are those of workers between their registration and their clean-up, each at most once,
  and what a waker has taken out it has unparked, once each.

Source: {lit}`thread_pool/shared.rs`.
-/

namespace XynokConcurrency

namespace Sleepers

/-! ## The calls -/

/-- {lit}`wake_all`. -/
inductive WakeAllPc
  | lock
  | pop
  | unpark (i : Nat)
  | storeLen
  | unlock
deriving DecidableEq, Repr

/-- Where a thread stands in one of the four calls. -/
inductive Point
  | idle
  | wakeOne (j : Nat) (pc : WakePc)
  | publishPass (s : Nat) (pc : PublishPc)
  | wakeAll (pc : WakeAllPc)
  | sleepIfIdle (i : Nat) (pc : SleepPc)
deriving DecidableEq, Repr

/-- The call goes on with the frame that replaces its own, or is over. -/
def Point.ofFrames : List Frame → Point
  | [.wake _ j pc] => .wakeOne j pc
  | [.publish _ s pc] => .publishPass s pc
  | [.sleep _ i pc] => .sleepIfIdle i pc
  | _ => .idle

/-- {lit}`wake_all`: registrations are taken out and unparked one after another, while the
lock is held. -/
def wakeAllStep (t : Tid) (m : Mem) (p : Nat) : WakeAllPc → Option (Mem × Point)
  | .lock =>
      let b := (m.pools p).sleepers
      match b.locked with
      | none => some (m.setSleepers p { b with locked := some t }, .wakeAll .pop)
      | some _ => none
  | .pop =>
      let b := (m.pools p).sleepers
      match b.elements with
      | i :: rest => some (m.setSleepers p { b with elements := rest }, .wakeAll (.unpark i))
      | [] => some (m, .wakeAll .storeLen)
  | .unpark i =>
      match (m.pools p).workers i with
      | some thread => some (m.setToken thread true, .wakeAll .pop)
      | none => none
  | .storeLen =>
      let b := (m.pools p).sleepers
      some (m.setSleepers p { b with len := b.elements.length }, .wakeAll .unlock)
  | .unlock =>
      let b := (m.pools p).sleepers
      some (m.setSleepers p { b with locked := none }, .idle)

/-- Go on with the frames a step leaves. -/
def goOn : Option (Mem × List Frame) → Option (Mem × Point)
  | some (m, fs) => some (m, .ofFrames fs)
  | none => none

/-- One step of a call on pool {lit}`p`.  The length of a deque is whatever the queue
operation answers. -/
def Point.step (t : Tid) (spurious : Bool) (answer : Nat) (m : Mem) (p : Nat) :
    Point → Option (Mem × Point)
  | .idle => none
  | .wakeOne j pc => goOn (wakeStep t m p j pc)
  | .publishPass s pc => goOn (publishStep t m p s pc)
  | .wakeAll pc => wakeAllStep t m p pc
  | .sleepIfIdle i (.deque k) => some (m, .sleepIfIdle i (.dequeWait k))
  | .sleepIfIdle i (.dequeWait k) =>
      some (m, .ofFrames (Frame.answer (.sleep p i (.dequeWait k)) (.length answer)))
  | .sleepIfIdle i pc => goOn (sleepStep t spurious m p i pc)

/-- The worker a step unparks on behalf of a waker. -/
def Point.unparks : Point → Option Nat
  | .wakeOne _ (.unpark i) | .publishPass _ (.passUnpark i _ _) | .wakeAll (.unpark i) => some i
  | _ => none

/-- The call is that of a waker. -/
def Point.isWaker : Point → Bool
  | .wakeOne _ _ | .publishPass _ _ | .wakeAll _ => true
  | _ => false

/-- The worker whose registration was made and not yet cleaned up by itself. -/
def Point.registered : Point → Option Nat
  | .sleepIfIdle i pc =>
      match pc with
      | .storeLen | .unlock | .park | .relock | .retain => some i
      | _ => none
  | _ => none

/-! ## The machine -/

/-- A thread, with the registrations that the waker's call it is in, or was in last, has
taken out, and the workers that call has unparked. -/
structure Party where
  point : Point
  removed : Multiset Nat
  unparked : Multiset Nat

/-- The states of the machine. -/
abbrev State := Machine.Shared Tid Mem Party

/-- Any thread may wake, and a worker sleeps for itself. -/
inductive Call
  | wakeOne (j : Nat)
  | publishPass (s : Nat)
  | wakeAll
  | sleepIfIdle
deriving DecidableEq, Repr

/-- Where a call starts. -/
def Call.start (t : Tid) (m : Mem) (p : Nat) : Call → Option Point
  | .wakeOne j => some (.wakeOne j .lock)
  | .publishPass s => some (.publishPass s .passLock)
  | .wakeAll => some (.wakeAll .lock)
  | .sleepIfIdle =>
      match t with
      | .worker q i => if q = p ∧ i < (m.pools p).totalWorker then some (.sleepIfIdle i .lock) else none
      | .ext _ => none

/-- A thread calls or takes a step, or something the calls look at changes. -/
inductive Label
  | call (t : Tid) (c : Call)
  | tick (t : Tid) (spurious : Bool) (answer : Nat)
  | queues (q : Queues DequeId QueueId Tid Nat)
  | running (b : Bool)
  | token (t : Tid) (b : Bool)

/-- What a step of a call does to its thread. -/
def Party.after (th : Party) (point : Point) (before after : List Nat) : Party where
  point := point
  removed :=
    if th.point.isWaker then th.removed + ((before : Multiset Nat) - (after : Multiset Nat))
    else th.removed
  unparked := th.unparked + (th.point.unparks.toList : Multiset Nat)

/-- The machine of the calls on pool {lit}`p`, from any state in which nobody is registered
and the handle of every worker is written. -/
def sleepersMachine (p : Nat) : Machine State Label where
  init s :=
    (s.mem.pools p).sleepers = .new ∧
      (∀ i, i < (s.mem.pools p).totalWorker → (s.mem.pools p).workers i = some (.worker p i)) ∧
      ∀ t, s.threads t = ⟨.idle, 0, 0⟩
  step s
    | .call t c =>
        match (s.threads t).point with
        | .idle =>
            match c.start t s.mem p with
            | some point => some { s with threads := Function.update s.threads t ⟨point, 0, 0⟩ }
            | none => none
        | _ => none
    | .tick t spurious answer =>
        match (s.threads t).point.step t spurious answer s.mem p with
        | some (m, point) =>
            some ⟨m, Function.update s.threads t ((s.threads t).after point
              (s.mem.pools p).sleepers.elements (m.pools p).sleepers.elements)⟩
        | none => none
    | .queues q => some { s with mem := { s.mem with queues := q } }
    | .running b => some { s with mem := s.mem.modPool p fun inner => { inner with isRunning := b } }
    | .token t b => some { s with mem := s.mem.setToken t b }

/-! ## What one step does -/

/-- The call is in its critical section. -/
def Point.locks : Point → Bool
  | .wakeOne j pc => (Frame.wake 0 j pc).holds.isSome
  | .publishPass s pc => (Frame.publish 0 s pc).holds.isSome
  | .sleepIfIdle i pc => (Frame.sleep 0 i pc).holds.isSome
  | .wakeAll .lock | .idle => false
  | .wakeAll _ => true

/-- What a step does to the lock: it stays on its side of it, takes it, or gives it back. -/
inductive LockMove (t : Tid) (b b' : QueueBatching Tid Nat) (o o' : Point) : Prop
  | stay (hlocked : b'.locked = b.locked) (hlocks : o'.locks = o.locks)
  | take (hfree : b.locked = none) (hlocked : b'.locked = some t) (hout : o.locks = false)
      (hin : o'.locks = true)
  | give (hlocked : b'.locked = none) (hin : o.locks = true) (hout : o'.locks = false)

/-- What a step does to the registrations: nothing, a waker takes some out, or a worker adds
or removes its own. -/
inductive ListMove (l l' : List Nat) (o o' : Point) : Prop
  | keep (hlist : l' = l) (hregistered : o'.registered = o.registered)
  | remove (hwaker : o.isWaker = true) (hin : o.locks = true) (hlist : l'.Sublist l)
      (hregistered : o'.registered = none)
  | register (i : Nat) (hop : o = .sleepIfIdle i .push) (hlist : l' = l ++ [i])
      (hregistered : o'.registered = some i)
  | deregister (i : Nat) (hop : o = .sleepIfIdle i .retain) (hlist : l' = l.filter (· ≠ i))
      (hregistered : o'.registered = none)

/-- What a step of a call does. -/
structure Moves (t : Tid) (p : Nat) (m m' : Mem) (o o' : Point) : Prop where
  lock : LockMove t (m.pools p).sleepers (m'.pools p).sleepers o o'
  list : ListMove (m.pools p).sleepers.elements (m'.pools p).sleepers.elements o o'
  totalWorker : (m'.pools p).totalWorker = (m.pools p).totalWorker
  workers : (m'.pools p).workers = (m.pools p).workers

section Steps

variable {t : Tid} {m m' : Mem} {p : Nat} {o o' : Point} {spurious : Bool} {answer : Nat}

/-- A step of the pool's own functions goes on with its frames. -/
theorem goOn_eq_some {r : Option (Mem × List Frame)} (h : goOn r = some (m', o')) :
    ∃ fs, r = some (m', fs) ∧ o' = .ofFrames fs := by
  unfold goOn at h
  split at h <;> cases h
  exact ⟨_, rfl, rfl⟩

namespace Moves

/-- The registrations are not touched. -/
theorem quiet (hpool : m'.pools p = m.pools p) (hlocks : o'.locks = o.locks)
    (hregistered : o'.registered = o.registered) : Moves t p m m' o o' := by
  refine ⟨.stay ?_ hlocks, .keep ?_ hregistered, ?_, ?_⟩ <;> rw [hpool]

/-- The registrations are set, and the lock with them. -/
theorem set {b : QueueBatching Tid Nat} (hlock : LockMove t (m.pools p).sleepers b o o')
    (hlist : ListMove (m.pools p).sleepers.elements b.elements o o') :
    Moves t p m (m.setSleepers p b) o o' := by
  refine ⟨?_, ?_, by simp [Mem.setSleepers], by simp [Mem.setSleepers]⟩
  · simpa [Mem.setSleepers] using hlock
  · simpa [Mem.setSleepers] using hlist

/-- What else a step changes does not matter. -/
theorem congr {m'' : Mem} (h : Moves t p m m' o o') (hpool : m''.pools = m'.pools) :
    Moves t p m m'' o o' := by
  obtain ⟨hlock, hlist, htotal, hworkers⟩ := h
  rw [← hpool] at hlock hlist htotal hworkers
  exact ⟨hlock, hlist, htotal, hworkers⟩

/-- The lock is taken. -/
theorem take (hfree : (m.pools p).sleepers.locked = none) (hout : o.locks = false)
    (hin : o'.locks = true) (hregistered : o'.registered = o.registered) :
    Moves t p m (m.setSleepers p { (m.pools p).sleepers with locked := some t }) o o' :=
  .set (.take hfree rfl hout hin) (.keep rfl hregistered)

/-- The lock is given back. -/
theorem give (hin : o.locks = true) (hout : o'.locks = false)
    (hregistered : o'.registered = o.registered) :
    Moves t p m (m.setSleepers p { (m.pools p).sleepers with locked := none }) o o' :=
  .set (.give rfl hin hout) (.keep rfl hregistered)

/-- The cached length is stored. -/
theorem storeLen {n : Nat} (hlocks : o'.locks = o.locks)
    (hregistered : o'.registered = o.registered) :
    Moves t p m (m.setSleepers p { (m.pools p).sleepers with len := n }) o o' :=
  .set (.stay rfl hlocks) (.keep rfl hregistered)

/-- Registrations are changed in the critical section. -/
theorem change {l : List Nat} (hlocks : o'.locks = o.locks)
    (hlist : ListMove (m.pools p).sleepers.elements l o o') :
    Moves t p m (m.setSleepers p { (m.pools p).sleepers with elements := l }) o o' :=
  .set (.stay rfl hlocks) hlist

end Moves

/-- The worker that a call puts to sleep. -/
def Point.sleeps : Point → Option Nat
  | .sleepIfIdle i _ => some i
  | _ => none

/-- A step stays in its call or ends it. -/
theorem step_sleeps (h : o.step t spurious answer m p = some (m', o')) :
    o'.sleeps = o.sleeps ∨ o' = .idle := by
  cases o with
  | idle => cases h
  | wakeOne j pc =>
      simp only [Point.step] at h
      obtain ⟨fs, hs, rfl⟩ := goOn_eq_some h
      cases pc <;> simp only [wakeStep] at hs <;> (try split at hs) <;> cases hs <;>
        exact .inl rfl
  | publishPass s pc =>
      simp only [Point.step] at h
      obtain ⟨fs, hs, rfl⟩ := goOn_eq_some h
      rcases pc with _ | _ | ⟨kept, _ | ⟨i, rest⟩⟩ | _ | _ | _ <;> simp only [publishStep] at hs <;>
        (try split at hs) <;> cases hs <;> exact .inl rfl
  | wakeAll pc =>
      cases pc <;> simp only [Point.step, wakeAllStep] at h <;> (try split at h) <;> cases h <;>
        exact .inl rfl
  | sleepIfIdle i pc =>
      cases pc <;> simp only [Point.step] at h
      case deque =>
        cases h
        exact .inl rfl
      case dequeWait =>
        cases h
        simp only [Frame.answer]
        split <;> exact .inl rfl
      all_goals
        obtain ⟨fs, hs, rfl⟩ := goOn_eq_some h
        simp only [sleepStep] at hs
        repeat' split at hs
        all_goals cases hs
        all_goals first | exact .inl rfl | exact .inr rfl

/-- Every step of a call is one of these moves. -/
theorem step_moves (h : o.step t spurious answer m p = some (m', o'))
    (hkept : ∀ s kept, o = .publishPass s (.passScan kept []) →
      kept.Sublist (m.pools p).sleepers.elements) : Moves t p m m' o o' := by
  cases o with
  | idle => cases h
  | wakeOne j pc =>
      simp only [Point.step] at h
      obtain ⟨fs, hs, rfl⟩ := goOn_eq_some h
      cases pc <;> simp only [wakeStep] at hs <;> (try split at hs) <;> cases hs
      · exact .take ‹_› rfl rfl rfl
      · exact .congr (.change rfl (.remove rfl rfl (List.tail_sublist _) rfl)) rfl
      · exact .storeLen rfl rfl
      · exact .give rfl rfl rfl
      · exact .congr (.give rfl rfl rfl) rfl
      · exact .quiet rfl rfl rfl
  | publishPass s pc =>
      simp only [Point.step] at h
      obtain ⟨fs, hs, rfl⟩ := goOn_eq_some h
      rcases pc with _ | _ | ⟨kept, _ | ⟨i, rest⟩⟩ | _ | _ | _ <;> simp only [publishStep] at hs <;>
        (try split at hs) <;> cases hs
      · exact .take ‹_› rfl rfl rfl
      · exact .change rfl (.remove rfl rfl (hkept s kept rfl) rfl)
      · exact .quiet rfl rfl rfl
      · exact .quiet rfl rfl rfl
      · exact .quiet rfl rfl rfl
      · exact .storeLen rfl rfl
      · exact .congr (.give rfl rfl rfl) rfl
  | wakeAll pc =>
      cases pc <;> simp only [Point.step, wakeAllStep] at h <;> (try split at h) <;> cases h
      · exact .take ‹_› rfl rfl rfl
      · rename_i i rest hlist
        exact .change rfl (.remove rfl rfl (hlist ▸ List.sublist_cons_self ..) rfl)
      · exact .quiet rfl rfl rfl
      · exact .quiet rfl rfl rfl
      · exact .storeLen rfl rfl
      · exact .give rfl rfl rfl
  | sleepIfIdle i pc =>
      cases pc <;> simp only [Point.step] at h
      case deque =>
        cases h
        exact .quiet rfl rfl rfl
      case dequeWait =>
        cases h
        simp only [Frame.answer]
        split <;> exact .quiet rfl rfl rfl
      all_goals
        obtain ⟨fs, hs, rfl⟩ := goOn_eq_some h
        simp only [sleepStep] at hs
        repeat' split at hs
        all_goals cases hs
        all_goals first
          | exact .quiet rfl rfl rfl
          | exact .take ‹_› rfl rfl rfl
          | exact .give rfl rfl rfl
          | exact .storeLen rfl rfl
          | exact .change rfl (.register i rfl rfl rfl)
          | exact .change rfl (.deregister i rfl rfl rfl)

end Steps

/-! ## The accounts of a waker -/

/-- What a waker has taken out it has unparked, but for the registration in its hands; the
sleepers pass unparks first and takes out at the end what it has not kept. -/
def Party.Accounts (th : Party) (list : List Nat) : Prop :=
  match th.point with
  | .idle | .sleepIfIdle _ _ => th.removed = th.unparked
  | .wakeOne _ pc =>
      match pc with
      | .lock | .pop => th.removed = 0 ∧ th.unparked = 0
      | .storeLen r | .unlock r => th.removed = r.toList ∧ th.unparked = 0
      | .unpark i => th.removed = {i} ∧ th.unparked = 0
  | .publishPass _ pc =>
      match pc with
      | .assigning | .passLock => th.removed = 0 ∧ th.unparked = 0
      | .passScan kept rest => th.removed = 0 ∧ ∃ scanned, list = scanned ++ rest ∧
          kept.Sublist scanned ∧ (scanned : Multiset Nat) = kept + th.unparked
      | .passUnpark i kept rest => th.removed = 0 ∧ ∃ scanned, list = scanned ++ i :: rest ∧
          kept.Sublist scanned ∧ (scanned : Multiset Nat) = kept + th.unparked
      | .passStoreLen | .passUnlock => th.removed = th.unparked
  | .wakeAll pc =>
      match pc with
      | .lock | .pop | .storeLen | .unlock => th.removed = th.unparked
      | .unpark i => th.removed = i ::ₘ th.unparked

/-- The accounts look at the registrations in the critical section only. -/
theorem Party.Accounts.congr {th : Party} {list list' : List Nat} (h : th.Accounts list)
    (hlist : th.point.locks = true → list' = list) : th.Accounts list' := by
  rcases th with ⟨o, removed, unparked⟩
  cases o with
  | idle => exact h
  | wakeOne j pc => cases pc <;> exact h
  | wakeAll pc => cases pc <;> exact h
  | sleepIfIdle i pc => exact h
  | publishPass s pc =>
      cases pc with
      | passScan kept rest => exact hlist rfl ▸ h
      | passUnpark i kept rest => exact hlist rfl ▸ h
      | _ => exact h

section Accounts

variable {t : Tid} {m m' : Mem} {p : Nat} {th : Party} {o' : Point} {spurious : Bool} {answer : Nat}

@[simp] theorem setSleepers_sleepers (m : Mem) (p : Nat) (b : QueueBatching Tid Nat) :
    ((m.setSleepers p b).pools p).sleepers = b := by
  simp [Mem.setSleepers]

/-- A step that takes nothing out and unparks nobody. -/
theorem Party.after_quiet {list list' : List Nat} (hlist : th.point.isWaker = true → list' = list)
    (hunparks : th.point.unparks = none) :
    th.after o' list list' = ⟨o', th.removed, th.unparked⟩ := by
  have hnone : ((none : Option Nat).toList : Multiset Nat) = 0 := rfl
  unfold Party.after
  rw [hunparks, hnone, add_zero]
  split
  · rw [hlist ‹_›, tsub_self, add_zero]
  · rfl

/-- A step of a waker that takes registrations out. -/
theorem Party.after_removes {list list' : List Nat} {a : Multiset Nat}
    (hwaker : th.point.isWaker = true) (hunparks : th.point.unparks = none)
    (hlist : (list : Multiset Nat) = a + list') :
    th.after o' list list' = ⟨o', th.removed + a, th.unparked⟩ := by
  have hnone : ((none : Option Nat).toList : Multiset Nat) = 0 := rfl
  unfold Party.after
  rw [hunparks, hnone, add_zero, if_pos hwaker, hlist, add_tsub_cancel_right]

/-- A step that unparks a worker. -/
theorem Party.after_unparks {list list' : List Nat} {i : Nat} (hlist : list' = list)
    (hunparks : th.point.unparks = some i) :
    th.after o' list list' = ⟨o', th.removed, i ::ₘ th.unparked⟩ := by
  have hsome : ((some i).toList : Multiset Nat) = {i} := rfl
  unfold Party.after
  rw [hlist, hunparks, hsome, tsub_self, add_zero, add_comm, Multiset.singleton_add]
  split <;> rfl

/-- A list is its head and its tail. -/
theorem coe_eq_head_add_tail (list : List Nat) :
    (list : Multiset Nat) = (list.head?.toList : Multiset Nat) + (list.tail : Multiset Nat) := by
  cases list <;> rfl

/-- The accounts of a thread after its own step. -/
theorem Party.Accounts.step (h : th.Accounts (m.pools p).sleepers.elements)
    (hstep : th.point.step t spurious answer m p = some (m', o')) :
    (th.after o' (m.pools p).sleepers.elements (m'.pools p).sleepers.elements).Accounts
      (m'.pools p).sleepers.elements := by
  rcases th with ⟨o, removed, unparked⟩
  cases o with
  | idle => cases hstep
  | wakeOne j pc =>
      simp only [Point.step] at hstep
      obtain ⟨fs, hs, rfl⟩ := goOn_eq_some hstep
      cases pc <;> simp only [wakeStep] at hs <;> (try split at hs) <;> cases hs
      · rw [Party.after_quiet (fun _ => by simp) rfl]
        exact h
      · rw [Party.after_removes (a := (m.pools p).sleepers.elements.head?.toList) rfl rfl
          (by simpa using coe_eq_head_add_tail _)]
        obtain ⟨rfl, rfl⟩ := h
        exact ⟨zero_add _, rfl⟩
      · rw [Party.after_quiet (fun _ => by simp) rfl]
        exact h
      · rw [Party.after_quiet (fun _ => by simp) rfl]
        exact h
      · rw [Party.after_quiet (fun _ => by simp) rfl]
        exact h.1.trans h.2.symm
      · rw [Party.after_unparks (by rfl) (by rfl)]
        obtain ⟨rfl, rfl⟩ := h
        rfl
  | publishPass s pc =>
      simp only [Point.step] at hstep
      obtain ⟨fs, hs, rfl⟩ := goOn_eq_some hstep
      rcases pc with _ | _ | ⟨kept, _ | ⟨i, rest⟩⟩ | ⟨i, kept, rest⟩ | _ | _ <;>
        simp only [publishStep] at hs <;> (try split at hs) <;> cases hs
      · rw [Party.after_quiet (fun _ => by simp) rfl]
        obtain ⟨rfl, rfl⟩ := h
        exact ⟨rfl, [], by simp, List.Sublist.refl _, rfl⟩
      · obtain ⟨rfl, scanned, hlist, -, hscanned⟩ := h
        rw [List.append_nil] at hlist
        rw [Party.after_removes (a := unparked) rfl rfl
          (by rw [hlist, hscanned, add_comm]; simp)]
        exact zero_add _
      · rw [Party.after_quiet (fun _ => rfl) rfl]
        obtain ⟨rfl, scanned, hlist, hkept, hscanned⟩ := h
        refine ⟨rfl, scanned ++ [i], by simp [hlist], hkept.append (List.Sublist.refl _), ?_⟩
        simp only [← Multiset.coe_add, hscanned]
        rw [add_right_comm]
      · rw [Party.after_quiet (fun _ => rfl) rfl]
        exact h
      · rw [Party.after_unparks (by rfl) (by rfl)]
        obtain ⟨rfl, scanned, hlist, hkept, hscanned⟩ := h
        refine ⟨rfl, scanned ++ [i], by simp [hlist], hkept.trans (List.sublist_append_left ..), ?_⟩
        rw [← Multiset.coe_add, hscanned, ← Multiset.singleton_add, add_assoc, add_comm unparked]
        rfl
      · rw [Party.after_quiet (fun _ => by simp) rfl]
        exact h
      · rw [Party.after_quiet (fun _ => by simp) rfl]
        exact h
  | wakeAll pc =>
      cases pc <;> simp only [Point.step, wakeAllStep] at hstep <;> (try split at hstep) <;>
        cases hstep
      · rw [Party.after_quiet (fun _ => by simp) rfl]
        exact h
      · rename_i i rest hlist
        rw [Party.after_removes (a := {i}) rfl rfl (by simp [hlist, Multiset.singleton_add])]
        obtain rfl : removed = unparked := h
        exact (add_comm _ _).trans (Multiset.singleton_add _ _)
      · rw [Party.after_quiet (fun _ => rfl) rfl]
        exact h
      · rw [Party.after_unparks (by rfl) (by rfl)]
        exact h
      · rw [Party.after_quiet (fun _ => by simp) rfl]
        exact h
      · rw [Party.after_quiet (fun _ => by simp) rfl]
        exact h
  | sleepIfIdle i pc =>
      rw [Party.after_quiet (by simp [Point.isWaker]) rfl]
      obtain rfl : removed = unparked := h
      rcases step_sleeps hstep with hsame | rfl
      · cases o' <;> first | rfl | cases hsame
      · rfl

end Accounts

/-! ## Every reachable state -/

/-- The registrations of a state are exact. -/
structure Exact (p : Nat) (s : State) : Prop where
  nodup : (s.mem.pools p).sleepers.elements.Nodup
  lt_total : ∀ i ∈ (s.mem.pools p).sleepers.elements, i < (s.mem.pools p).totalWorker
  inside : ∀ i ∈ (s.mem.pools p).sleepers.elements,
    (s.threads (.worker p i)).point.registered = some i
  returned : ∀ i, (s.threads (.worker p i)).point = .idle →
    i ∉ (s.mem.pools p).sleepers.elements
  /-- While a waker is under way. -/
  accounts : ∀ t, (s.threads t).Accounts (s.mem.pools p).sleepers.elements
  /-- When it is over. -/
  settled : ∀ t, (s.threads t).point = .idle → (s.threads t).removed = (s.threads t).unparked

/-- What makes the registrations exact. -/
structure Inv (p : Nat) (s : State) : Prop where
  handles : ∀ i, i < (s.mem.pools p).totalWorker → (s.mem.pools p).workers i = some (.worker p i)
  exclusive : ∀ t, (s.threads t).point.locks = true ↔ (s.mem.pools p).sleepers.locked = some t
  sleeper : ∀ t i, (s.threads t).point.sleeps = some i →
    t = .worker p i ∧ i < (s.mem.pools p).totalWorker
  nodup : (s.mem.pools p).sleepers.elements.Nodup
  registered : ∀ i ∈ (s.mem.pools p).sleepers.elements,
    (s.threads (.worker p i)).point.registered = some i
  accounts : ∀ t, (s.threads t).Accounts (s.mem.pools p).sleepers.elements
  removed_lt : ∀ t, ∀ i ∈ (s.threads t).removed, i < (s.mem.pools p).totalWorker

/-- A registered worker is one of those that sleep. -/
theorem Point.sleeps_of_registered {o : Point} {i : Nat} (h : o.registered = some i) :
    o.sleeps = some i := by
  cases o with
  | sleepIfIdle k pc => cases pc <;> first | exact h | cases h
  | _ => cases h

namespace Inv

variable {p : Nat} {s s' : State}

/-- Only workers of the pool are registered. -/
theorem lt_total (h : Inv p s) {i : Nat} (hi : i ∈ (s.mem.pools p).sleepers.elements) :
    i < (s.mem.pools p).totalWorker :=
  (h.sleeper _ i (Point.sleeps_of_registered (h.registered i hi))).2

/-- The registrations are exact. -/
theorem exact (h : Inv p s) : Exact p s where
  nodup := h.nodup
  lt_total _ hi := h.lt_total hi
  inside := h.registered
  returned i hidle hi := by
    have := h.registered i hi
    rw [hidle] at this
    cases this
  accounts := h.accounts
  settled t hidle := by
    have := h.accounts t
    rw [Party.Accounts, hidle] at this
    exact this

/-- What a call knows is enough for its step to be one of the moves. -/
theorem moves (h : Inv p s) {t : Tid} {spurious : Bool} {answer : Nat} {m : Mem} {o : Point}
    (hstep : (s.threads t).point.step t spurious answer s.mem p = some (m, o)) :
    Moves t p s.mem m (s.threads t).point o := by
  refine step_moves hstep fun k kept hop => ?_
  have := h.accounts t
  rw [Party.Accounts, hop] at this
  obtain ⟨-, scanned, hlist, hkept, -⟩ := this
  rw [hlist, List.append_nil]
  exact hkept

/-- Something the calls look at changes. -/
theorem environment (h : Inv p s) {m : Mem} (hsleepers : (m.pools p).sleepers = (s.mem.pools p).sleepers)
    (htotal : (m.pools p).totalWorker = (s.mem.pools p).totalWorker)
    (hworkers : (m.pools p).workers = (s.mem.pools p).workers) : Inv p { s with mem := m } := by
  obtain ⟨h₁, h₂, h₃, h₄, h₅, h₆, h₇⟩ := h
  rw [← htotal, ← hworkers] at h₁
  rw [← hsleepers] at h₂ h₄ h₅ h₆
  rw [← htotal] at h₃ h₇
  exact ⟨h₁, h₂, h₃, h₄, h₅, h₆, h₇⟩

/-- A thread that is not registered is none of the registered workers. -/
theorem ne_of_registered (h : Inv p s) {t : Tid} (ht : (s.threads t).point.registered = none) {i : Nat}
    (hi : i ∈ (s.mem.pools p).sleepers.elements) : Tid.worker p i ≠ t := by
  rintro rfl
  have := h.registered i hi
  rw [ht] at this
  cases this

/-- A call begins. -/
theorem call (h : Inv p s) {t : Tid} {c : Call} {o : Point} (hidle : (s.threads t).point = .idle)
    (hstart : c.start t s.mem p = some o) :
    Inv p { s with threads := Function.update s.threads t ⟨o, 0, 0⟩ } := by
  have hout : o.locks = false ∧ (∀ list, Party.Accounts ⟨o, 0, 0⟩ list) ∧
      ∀ i, o.sleeps = some i → t = .worker p i ∧ i < (s.mem.pools p).totalWorker := by
    cases c with
    | wakeOne j =>
        cases hstart
        exact ⟨rfl, fun _ => ⟨rfl, rfl⟩, nofun⟩
    | publishPass k =>
        cases hstart
        exact ⟨rfl, fun _ => ⟨rfl, rfl⟩, nofun⟩
    | wakeAll =>
        cases hstart
        exact ⟨rfl, fun _ => rfl, nofun⟩
    | sleepIfIdle =>
        simp only [Call.start] at hstart
        split at hstart
        · split at hstart <;> cases hstart
          rename_i hi
          refine ⟨rfl, fun _ => rfl, ?_⟩
          rintro _ ⟨⟩
          exact ⟨by rw [hi.1], hi.2⟩
        · cases hstart
  obtain ⟨hlocks, haccounts, hsleeps⟩ := hout
  refine ⟨h.handles, fun u => ?_, fun u i hi => ?_, h.nodup, fun i hi => ?_, fun u => ?_,
    fun u i hi => ?_⟩
  · by_cases hu : u = t
    · subst hu
      have := h.exclusive u
      rw [hidle] at this
      simp only [Function.update_self, hlocks]
      exact this
    · simpa [hu] using h.exclusive u
  · by_cases hu : u = t
    · subst hu
      exact hsleeps i (by simpa using hi)
    · exact h.sleeper u i (by simpa [hu] using hi)
  · have hne := h.ne_of_registered (t := t) (by rw [hidle]; rfl) hi
    simpa [hne] using h.registered i hi
  · by_cases hu : u = t
    · subst hu
      simpa using haccounts _
    · simpa [hu] using h.accounts u
  · by_cases hu : u = t
    · subst hu
      simp at hi
    · exact h.removed_lt u i (by simpa [hu] using hi)

/-- A call takes a step. -/
theorem tick (h : Inv p s) {t : Tid} {spurious : Bool} {answer : Nat} {o : Point}
    (hstep : (s.threads t).point.step t spurious answer s.mem p = some (s'.mem, o))
    (hself : s'.threads t = (s.threads t).after o (s.mem.pools p).sleepers.elements
      (s'.mem.pools p).sleepers.elements)
    (hother : ∀ u, u ≠ t → s'.threads u = s.threads u) : Inv p s' := by
  have hmoves := h.moves hstep
  have hpoint : (s'.threads t).point = o := by rw [hself]; rfl
  refine ⟨?_, fun u => ?_, fun u i hi => ?_, ?_, fun i hi => ?_, fun u => ?_, fun u i hi => ?_⟩
  · rw [hmoves.totalWorker, hmoves.workers]
    exact h.handles
  · -- the lock names the thread in the critical section
    have hu := h.exclusive u
    have ht := h.exclusive t
    by_cases hut : u = t
    · subst hut
      rw [hpoint]
      cases hmoves.lock with
      | stay hlocked hlocks => rw [hlocked, hlocks, hu]
      | take _ hlocked _ hin => simp [hlocked, hin]
      | give hlocked _ hout => simp [hlocked, hout]
    · rw [hother u hut, hu]
      cases hmoves.lock with
      | stay hlocked _ => rw [hlocked]
      | take hfree hlocked _ _ => simp [hfree, hlocked, Ne.symm hut]
      | give hlocked hin _ => simp [hlocked, ht.mp hin, Ne.symm hut]
  · rw [hmoves.totalWorker]
    by_cases hut : u = t
    · subst hut
      rw [hpoint] at hi
      rcases step_sleeps hstep with hsame | rfl
      · exact h.sleeper u i (hsame ▸ hi)
      · cases hi
    · exact h.sleeper u i (by rwa [hother u hut] at hi)
  · cases hmoves.list with
    | keep hlist _ => exact hlist ▸ h.nodup
    | remove _ _ hlist _ => exact hlist.nodup h.nodup
    | register i hop hlist _ =>
        have hi : i ∉ (s.mem.pools p).sleepers.elements := by
          intro hi
          obtain ⟨rfl, -⟩ := h.sleeper t i (by rw [hop]; rfl)
          exact h.ne_of_registered (by rw [hop]; rfl) hi rfl
        rw [hlist]
        exact List.nodup_append.mpr ⟨h.nodup, List.nodup_singleton i, fun k hk j hj heq =>
          hi (by rw [← List.mem_singleton.mp hj, ← heq]; exact hk)⟩
    | deregister i _ hlist _ => exact hlist ▸ h.nodup.filter _
  · have hkeeps : ∀ {o' : Point}, (s.threads t).point = o' → o'.registered = none →
        i ∈ (s.mem.pools p).sleepers.elements → (s'.threads (.worker p i)).point.registered = some i := by
      intro o' hop hnone hi
      rw [hother _ (h.ne_of_registered (by rw [hop, hnone]) hi)]
      exact h.registered i hi
    cases hmoves.list with
    | keep hlist hregistered =>
        rw [hlist] at hi
        by_cases hit : Tid.worker p i = t
        · rw [hit, hpoint, hregistered, ← hit]
          exact h.registered i hi
        · rw [hother _ hit]
          exact h.registered i hi
    | remove hwaker _ hlist _ =>
        refine hkeeps rfl ?_ (hlist.subset hi)
        cases hop : (s.threads t).point <;> rw [hop] at hwaker <;> first | rfl | cases hwaker
    | register k hop hlist hregistered =>
        rw [hlist] at hi
        rcases List.mem_append.mp hi with hi | hi
        · exact hkeeps hop rfl hi
        · obtain rfl := List.mem_singleton.mp hi
          obtain ⟨rfl, -⟩ := h.sleeper t i (by rw [hop]; rfl)
          rw [hpoint, hregistered]
    | deregister k hop hlist _ =>
        rw [hlist] at hi
        obtain ⟨hi, hne⟩ := List.mem_filter.mp hi
        obtain ⟨rfl, -⟩ := h.sleeper t k (by rw [hop]; rfl)
        rw [hother _ fun heq => of_decide_eq_true hne (by cases heq; rfl)]
        exact h.registered i hi
  · by_cases hut : u = t
    · subst hut
      rw [hself]
      exact (h.accounts u).step hstep
    · rw [hother u hut]
      refine (h.accounts u).congr fun hlocks => ?_
      -- whoever changes the registrations is in the critical section too
      have hthere : (s.threads t).point.locks ≠ true := fun hin =>
        hut (Option.some.inj (((h.exclusive u).mp hlocks).symm.trans ((h.exclusive t).mp hin)))
      cases hmoves.list with
      | keep hlist _ => exact hlist
      | remove _ hin _ _ => exact (hthere hin).elim
      | register k hop _ _ => exact (hthere (by rw [hop]; rfl)).elim
      | deregister k hop _ _ => exact (hthere (by rw [hop]; rfl)).elim
  · rw [hmoves.totalWorker]
    by_cases hut : u = t
    · subst hut
      rw [hself, Party.after] at hi
      dsimp only at hi
      split at hi
      · rcases Multiset.mem_add.mp hi with hi | hi
        · exact h.removed_lt u i hi
        · exact h.lt_total (Multiset.mem_coe.mp (Multiset.mem_of_le tsub_le_self hi))
      · exact h.removed_lt u i hi
    · exact h.removed_lt u i (by rwa [hother u hut] at hi)

end Inv

/-- Every reachable state. -/
theorem reachable_inv {p : Nat} {s : State} (hs : (sleepersMachine p).Reachable s) : Inv p s := by
  refine Machine.Reachable.invariant (I := Inv p) ?_ ?_ hs
  · rintro s ⟨hnew, hhandles, hidle⟩
    refine ⟨hhandles, fun t => ?_, fun t i hi => ?_, ?_, ?_, fun t => ?_, fun t i hi => ?_⟩
    · rw [hidle t, hnew]
      exact ⟨nofun, nofun⟩
    · rw [hidle t] at hi
      cases hi
    · rw [hnew]
      exact List.nodup_nil
    · rw [hnew]
      exact nofun
    · rw [hidle t]
      rfl
    · rw [hidle t] at hi
      exact absurd hi (Multiset.notMem_zero i)
  · intro s l s' _ hI hstep
    cases l with
    | call t c =>
        simp only [sleepersMachine] at hstep
        split at hstep
        · split at hstep <;> cases hstep
          exact hI.call ‹_› ‹_›
        · cases hstep
    | tick t spurious answer =>
        simp only [sleepersMachine] at hstep
        split at hstep <;> cases hstep
        exact hI.tick ‹_› (Function.update_self ..) fun u hu => Function.update_of_ne hu ..
    | queues q =>
        cases hstep
        exact hI.environment rfl rfl rfl
    | running b =>
        cases hstep
        exact hI.environment (by simp) (by simp) (by simp)
    | token t b =>
        cases hstep
        exact hI.environment rfl rfl rfl

/-- A waker's step sets the token of the worker it unparks, and no other step of a waker
sets any. -/
theorem step_token {t : Tid} {spurious : Bool} {answer : Nat} {m m' : Mem} {p : Nat} {o o' : Point}
    (hwaker : o.isWaker = true) (h : o.step t spurious answer m p = some (m', o')) :
    match o.unparks with
    | some i => ∃ thread, (m.pools p).workers i = some thread ∧
        m'.token = Function.update m.token thread true
    | none => m'.token = m.token := by
  cases o with
  | idle => cases h
  | sleepIfIdle i pc => cases hwaker
  | wakeOne j pc =>
      simp only [Point.step] at h
      obtain ⟨fs, hs, rfl⟩ := goOn_eq_some h
      cases pc <;> simp only [wakeStep] at hs <;> (try split at hs) <;> cases hs <;>
        first | rfl | exact ⟨_, ‹_›, rfl⟩
  | publishPass s pc =>
      simp only [Point.step] at h
      obtain ⟨fs, hs, rfl⟩ := goOn_eq_some h
      rcases pc with _ | _ | ⟨kept, _ | ⟨i, rest⟩⟩ | _ | _ | _ <;> simp only [publishStep] at hs <;>
        (try split at hs) <;> cases hs <;> first | rfl | exact ⟨_, ‹_›, rfl⟩
  | wakeAll pc =>
      cases pc <;> simp only [Point.step, wakeAllStep] at h <;> (try split at h) <;> cases h <;>
        first | rfl | exact ⟨_, ‹_›, rfl⟩

/-- Every waker's step sets the token of the very worker it unparks, or none. -/
def UnparksItsWorker (p : Nat) (s : State) : Prop :=
  ∀ t spurious answer s', (s.threads t).point.isWaker = true →
    (sleepersMachine p).step s (.tick t spurious answer) = some s' →
      s'.mem.token = match (s.threads t).point.unparks with
        | some i => Function.update s.mem.token (.worker p i) true
        | none => s.mem.token

/-- The worker a waker is about to unpark is one of the pool's. -/
theorem Inv.unparks_lt {p : Nat} {s : State} (h : Inv p s) {t : Tid} {i : Nat}
    (hi : (s.threads t).point.unparks = some i) : i < (s.mem.pools p).totalWorker := by
  have haccounts := h.accounts t
  have hremoved := h.removed_lt t i
  cases hop : (s.threads t).point with
  | wakeOne j pc =>
      rw [hop] at hi
      rw [Party.Accounts, hop] at haccounts
      cases pc <;> cases hi
      exact hremoved (by rw [haccounts.1]; exact Multiset.mem_singleton_self i)
  | publishPass k pc =>
      rw [hop] at hi
      rw [Party.Accounts, hop] at haccounts
      cases pc <;> cases hi
      obtain ⟨-, scanned, hlist, -⟩ := haccounts
      exact h.lt_total (by rw [hlist]; simp)
  | wakeAll pc =>
      rw [hop] at hi
      rw [Party.Accounts, hop] at haccounts
      cases pc <;> cases hi
      exact hremoved (by rw [haccounts]; exact Multiset.mem_cons_self i _)
  | _ =>
      rw [hop] at hi
      cases hi

/-- For any number of workers and any interleaving of the four calls, with {lit}`park`
returning at any time: the registrations are exact, and what a waker counts as unparked is
an unpark of that worker. -/
theorem registrations_exact (p : Nat) {s : State} (hs : (sleepersMachine p).Reachable s) :
    Exact p s ∧ UnparksItsWorker p s := by
  have h := reachable_inv hs
  refine ⟨h.exact, fun t spurious answer s' hwaker hstep => ?_⟩
  simp only [sleepersMachine] at hstep
  split at hstep <;> cases hstep
  rename_i m o hpoint
  have htoken := step_token hwaker hpoint
  cases hunparks : (s.threads t).point.unparks with
  | none =>
      rw [hunparks] at htoken
      exact htoken
  | some i =>
      rw [hunparks] at htoken
      obtain ⟨thread, hthread, htoken⟩ := htoken
      rw [h.handles i (h.unparks_lt hunparks)] at hthread
      cases hthread
      exact htoken

/-- A pool of one worker. -/
def oneWorker : State where
  mem := { Mem.initial with pools := fun _ =>
    { ThreadPoolInner.new 1 1 none with workers := fun _ => some (.worker 1 0) } }
  threads := fun _ => ⟨.idle, 0, 0⟩

/-- The worker goes to sleep, and another thread wakes one. -/
def sleepAndWake : List Label :=
  .call (.worker 1 0) .sleepIfIdle :: List.replicate 12 (.tick (.worker 1 0) false 0) ++
    .call (.ext 0) (.wakeOne 0) :: List.replicate 5 (.tick (.ext 0) false 0)

/-- The waker has taken the registration of worker 0 out, and unparked it. -/
theorem registrations_exact_after_a_wake :
    ∃ s, (sleepersMachine 1).run oneWorker sleepAndWake = some s ∧
      (s.threads (.ext 0)).unparked = {0} ∧ Exact 1 s ∧ UnparksItsWorker 1 s := by
  have hsome : ((sleepersMachine 1).run oneWorker sleepAndWake).isSome := by
    decide +kernel
  have hunparked : (((sleepersMachine 1).after oneWorker sleepAndWake).threads (.ext 0)).unparked =
      {0} := by
    decide +kernel
  have hinit : (sleepersMachine 1).init oneWorker := by
    refine ⟨rfl, fun i hi => ?_, fun _ => rfl⟩
    obtain rfl : i = 0 := Nat.lt_one_iff.mp hi
    rfl
  exact ⟨_, Machine.run_after hsome, hunparked,
    registrations_exact 1 (Machine.Reachable.run (.init hinit) (Machine.run_after hsome))⟩

end Sleepers

end XynokConcurrency
