import XynokConcurrency.Lib.Machine

/-!
# The spin lock

A word and the value it guards.  {lit}`get` tries the word once, then waits until it reads
unlocked before it tries again, and a weak CAS may fail for no reason; {lit}`try_get` uses the
strong CAS, once.  Whoever has a guard reads and writes the value in separate accesses, may
hand the guard to another thread, and may call the lock again: a scope that runs inside of
another one on the same thread does so.

Elsewhere in this development the word of a lock names the thread that set it.  The results
here say that this is no more than the word of the code tells: it is set exactly while one
thread has a guard.

Main results:

- Theorem {lit}`spin_lock_excludes`: one guard at a time, and what a refusal means.
- Theorem {lit}`holder_waits_for_itself`: why the holder of a guard may only try.
- Theorem {lit}`spin_lock_loses_no_update`: the value is the outcome of all updates in turn.

Source: {lit}`utils/spinlock.rs`.
-/

namespace XynokConcurrency

namespace Spin

/-- {lit}`SpinLock`. -/
structure SpinLock (α : Type) where
  val : α
  locked : Bool

/-- Where a thread stands in a call of the lock. -/
inductive Pc
  | idle
  /-- {lit}`get`. -/
  | get
  /-- The two accesses of the loop of {lit}`cas_get`. -/
  | isLocked
  | casGet
  /-- {lit}`try_get`, and its coming back without a guard. -/
  | tryGet
  | refused
deriving DecidableEq

/-- What a thread has of the lock: its guards, the call it is in, and, while it updates the
value through a guard, the update with what it has read. -/
structure Thread (α : Type) where
  guards : Nat
  pc : Pc
  loaded : Option ((α → α) × α)

/-- What a thread may do outside of its calls: call, or use a guard. -/
inductive Use (α : Type)
  | get
  | tryGet
  | read (f : α → α)
  | write
  | drop

/-- A thread starts something, hands a guard to another thread, or makes the next access of its
call, on which a weak CAS may fail for no reason. -/
inductive Label (τ α : Type)
  | use (t : τ) (c : Use α)
  | send (t u : τ)
  | go (t : τ) (spurious : Bool)

section Steps

variable {α : Type}

/-- {lit}`try_lock`. -/
def SpinLock.tryLock (m : SpinLock α) : Option (SpinLock α) :=
  if m.locked then none else some { m with locked := true }

/-- {lit}`try_lock_weak`. -/
def SpinLock.tryLockWeak (spurious : Bool) (m : SpinLock α) : Option (SpinLock α) :=
  if spurious then none else m.tryLock

/-- The thread has a guard. -/
def Thread.HasGuard (th : Thread α) : Prop :=
  0 < th.guards

instance (th : Thread α) : Decidable th.HasGuard :=
  inferInstanceAs (Decidable (0 < th.guards))

/-- The thread is in {lit}`get`. -/
def Thread.Waits (th : Thread α) : Prop :=
  th.pc = .get ∨ th.pc = .isLocked ∨ th.pc = .casGet

/-- A guard comes to the thread. -/
def Thread.receive (th : Thread α) : Thread α :=
  { th with guards := th.guards + 1 }

/-- A guard leaves the thread; an update under way through it is given up. -/
def Thread.give (th : Thread α) : Thread α :=
  { th with guards := th.guards - 1, loaded := none }

/-- What a thread that is in no call does to the lock and to its own state. -/
def use (m : SpinLock α) (th : Thread α) : Use α → Option (SpinLock α × Thread α)
  | .get => some (m, { th with pc := .get })
  | .tryGet => some (m, { th with pc := .tryGet })
  | .read f => if th.HasGuard then some (m, { th with loaded := some (f, m.val) }) else none
  | .write =>
      match th.loaded with
      | some (f, v) => some ({ m with val := f v }, { th with loaded := none })
      | none => none
  | .drop => if th.HasGuard then some ({ m with locked := false }, th.give) else none

/-- One access of a call. -/
def go (spurious : Bool) (m : SpinLock α) (th : Thread α) : Option (SpinLock α × Thread α) :=
  match th.pc with
  | .idle => none
  | .get | .casGet =>
      match m.tryLockWeak spurious with
      | some m' => some (m', { th.receive with pc := .idle })
      | none => some (m, { th with pc := .isLocked })
  | .isLocked =>
      if m.locked then some (m, { th with pc := .isLocked })
      else some (m, { th with pc := .casGet })
  | .tryGet =>
      match m.tryLock with
      | some m' => some (m', { th.receive with pc := .idle })
      | none => some (m, { th with pc := .refused })
  | .refused => some (m, { th with pc := .idle })

/-- What an access does to the word and to the thread: only the call goes on, the word is taken
for a new guard, the value is read or written through a guard, or a guard is dropped. -/
inductive Move (m : SpinLock α) (th : Thread α) : SpinLock α → Thread α → Prop
  | waits (pc : Pc) (hwaits : th.Waits → pc = .isLocked ∨ pc = .casGet) :
      Move m th m { th with pc := pc }
  | takes (hfree : m.locked = false) :
      Move m th { m with locked := true } { th.receive with pc := .idle }
  | reads (f : α → α) (hidle : th.pc = .idle) (hguard : th.HasGuard) :
      Move m th m { th with loaded := some (f, m.val) }
  | writes (f : α → α) (v : α) (hidle : th.pc = .idle) (hread : th.loaded = some (f, v)) :
      Move m th { m with val := f v } { th with loaded := none }
  | drops (hidle : th.pc = .idle) (hguard : th.HasGuard) :
      Move m th { m with locked := false } th.give

variable {c : Use α} {spurious : Bool} {m m' : SpinLock α} {th th' : Thread α}

theorem SpinLock.tryLock_eq_some : m.tryLock = some m' ↔
    m.locked = false ∧ m' = { m with locked := true } := by
  unfold SpinLock.tryLock
  split
  · simp [*]
  · rename_i hfree
    rw [Bool.not_eq_true] at hfree
    simp only [Option.some.injEq, hfree, true_and]
    exact eq_comm

theorem SpinLock.tryLockWeak_eq_some {spurious : Bool} (h : m.tryLockWeak spurious = some m') :
    m.locked = false ∧ m' = { m with locked := true } := by
  unfold SpinLock.tryLockWeak at h
  split at h
  · cases h
  · exact SpinLock.tryLock_eq_some.mp h

/-- A thread in no call does not wait. -/
theorem Thread.not_waits (h : th.pc = .idle) : ¬ th.Waits := by
  rintro (hpc | hpc | hpc) <;> cases h.symm.trans hpc

/-- The moves outside of the calls. -/
theorem use_move (hidle : th.pc = .idle) (h : use m th c = some (m', th')) : Move m th m' th' := by
  cases c with
  | get => cases h; exact .waits .get fun hwaits => absurd hwaits (Thread.not_waits hidle)
  | tryGet => cases h; exact .waits .tryGet fun hwaits => absurd hwaits (Thread.not_waits hidle)
  | read f =>
      simp only [use] at h
      split at h <;> cases h
      exact .reads f hidle ‹_›
  | write =>
      simp only [use] at h
      split at h <;> cases h
      exact .writes _ _ hidle ‹_›
  | drop =>
      simp only [use] at h
      split at h <;> cases h
      exact .drops hidle ‹_›

/-- The moves inside of a call. -/
theorem go_move (h : go spurious m th = some (m', th')) : Move m th m' th' := by
  unfold go at h
  split at h
  · cases h
  · split at h <;> cases h
    · obtain ⟨hfree, rfl⟩ := SpinLock.tryLockWeak_eq_some ‹_›
      exact .takes hfree
    · exact .waits .isLocked fun _ => .inl rfl
  · split at h <;> cases h
    · obtain ⟨hfree, rfl⟩ := SpinLock.tryLockWeak_eq_some ‹_›
      exact .takes hfree
    · exact .waits .isLocked fun _ => .inl rfl
  · split at h <;> cases h
    · exact .waits .isLocked fun _ => .inl rfl
    · exact .waits .casGet fun _ => .inr rfl
  · rename_i hpc
    split at h <;> cases h
    · obtain ⟨hfree, rfl⟩ := SpinLock.tryLock_eq_some.mp ‹_›
      exact .takes hfree
    · exact .waits .refused fun hwaits => by simp [Thread.Waits, hpc] at hwaits
  · rename_i hpc
    cases h
    exact .waits .idle fun hwaits => by simp [Thread.Waits, hpc] at hwaits

end Steps

/-! ## Any number of threads -/

section Machine

variable {τ α : Type} [DecidableEq τ]

/-- Thread {lit}`t` hands a guard to thread {lit}`u`. -/
def send (s : Machine.Shared τ (SpinLock α) (Thread α)) (t u : τ) :
    Machine.Shared τ (SpinLock α) (Thread α) :=
  let threads := Function.update s.threads t (s.threads t).give
  ⟨s.mem, Function.update threads u (threads u).receive⟩

/-- Threads that use one lock, which starts with value {lit}`a` and unlocked.  A guard may be
handed on, as the type of a guard is free to move to another thread. -/
def spinMachine (τ : Type) [DecidableEq τ] {α : Type} (a : α) :
    Machine (Machine.Shared τ (SpinLock α) (Thread α)) (Label τ α) where
  init s := s = ⟨⟨a, false⟩, fun _ => ⟨0, .idle, none⟩⟩
  step s
    | .use t c =>
        if (s.threads t).pc = .idle then
          (use s.mem (s.threads t) c).map fun x => ⟨x.1, Function.update s.threads t x.2⟩
        else none
    | .send t u =>
        if (s.threads t).pc = .idle ∧ (s.threads t).HasGuard then some (send s t u) else none
    | .go t spurious =>
        (go spurious s.mem (s.threads t)).map fun x => ⟨x.1, Function.update s.threads t x.2⟩

/-- The lock is free, or one thread has the only guard and what it has read is the value. -/
structure HeldBy (s : Machine.Shared τ (SpinLock α) (Thread α)) (o : Option τ) : Prop where
  locked : s.mem.locked = o.isSome
  guards : ∀ t, (s.threads t).guards = if o = some t then 1 else 0
  current : ∀ t f v, (s.threads t).loaded = some (f, v) → o = some t ∧ v = s.mem.val

variable {a : α} {s s' : Machine.Shared τ (SpinLock α) (Thread α)} {l : Label τ α} {t : τ}
  {o o' : Option τ} {m : SpinLock α} {th : Thread α}

/-- A step is a move of one thread, or hands a guard on. -/
theorem spin_step (h : (spinMachine τ a).step s l = some s') :
    (∃ t m th, Move s.mem (s.threads t) m th ∧ s' = ⟨m, Function.update s.threads t th⟩) ∨
      ∃ t u, (s.threads t).pc = .idle ∧ (s.threads t).HasGuard ∧ s' = send s t u := by
  cases l with
  | use t c =>
      simp only [spinMachine] at h
      split at h
      · rename_i hidle
        obtain ⟨⟨m, th⟩, hlocal, rfl⟩ := Option.map_eq_some_iff.mp h
        exact .inl ⟨t, m, th, use_move hidle hlocal, rfl⟩
      · cases h
  | send t u =>
      simp only [spinMachine] at h
      split at h <;> cases h
      rename_i hguard
      exact .inr ⟨t, u, hguard.1, hguard.2, rfl⟩
  | go t spurious =>
      simp only [spinMachine] at h
      obtain ⟨⟨m, th⟩, hlocal, rfl⟩ := Option.map_eq_some_iff.mp h
      exact .inl ⟨t, m, th, go_move hlocal, rfl⟩

/-- Who has a guard is who holds the lock. -/
theorem HeldBy.hasGuard_iff (h : HeldBy s o) (t : τ) : (s.threads t).HasGuard ↔ o = some t := by
  rw [Thread.HasGuard, h.guards t]
  split <;> simp_all

/-- Assemble who holds the lock from what one thread did. -/
theorem HeldBy.of_move (h : HeldBy s o) (hlocked : m.locked = o'.isSome)
    (hself : th.guards = if o' = some t then 1 else 0)
    (hother : ∀ u, u ≠ t → (o' = some u ↔ o = some u))
    (hval : ∀ u, u ≠ t → o = some u → m.val = s.mem.val)
    (hcurrent : ∀ f v, th.loaded = some (f, v) → o' = some t ∧ v = m.val) :
    HeldBy ⟨m, Function.update s.threads t th⟩ o' where
  locked := hlocked
  guards u := by
    by_cases hu : u = t
    · subst hu
      simpa using hself
    · simpa [Function.update_of_ne hu, hother u hu] using h.guards u
  current u f v hread := by
    by_cases hu : u = t
    · subst hu
      exact hcurrent f v (by simpa using hread)
    · obtain ⟨hheld, rfl⟩ := h.current u f v (by simpa [Function.update_of_ne hu] using hread)
      exact ⟨(hother u hu).mpr hheld, (hval u hu hheld).symm⟩

/-- A move of one thread leaves at most one guard. -/
theorem HeldBy.move (h : HeldBy s o) (hmove : Move s.mem (s.threads t) m th) :
    ∃ o', HeldBy ⟨m, Function.update s.threads t th⟩ o' := by
  have honly : o = some t → ∀ u, u ≠ t → o ≠ some u := fun hheld u hu hu' =>
    hu (Option.some.inj (hu'.symm.trans hheld))
  cases hmove with
  | waits pc =>
      exact ⟨o, h.of_move h.locked (h.guards t) (fun _ _ => Iff.rfl) (fun _ _ _ => rfl)
        (h.current t)⟩
  | takes hfree =>
      have hnone : o = none := by
        have hlocked := h.locked
        rw [hfree] at hlocked
        exact Option.isNone_iff_eq_none.mp (by simpa using hlocked.symm)
      subst hnone
      refine ⟨some t, h.of_move rfl ?_ (fun u hu => ?_) (fun u _ hu => by cases hu)
        fun f v hread => ?_⟩
      · simpa [Thread.receive] using h.guards t
      · simpa using Ne.symm hu
      · cases (h.current t f v hread).1
  | reads f _ hguard =>
      have hheld := (h.hasGuard_iff t).mp hguard
      refine ⟨o, h.of_move h.locked (h.guards t) (fun _ _ => Iff.rfl) (fun _ _ _ => rfl)
        fun f' v hread => ?_⟩
      cases hread
      exact ⟨hheld, rfl⟩
  | writes f v _ hread =>
      have hheld := (h.current t f v hread).1
      exact ⟨o, h.of_move h.locked (h.guards t) (fun _ _ => Iff.rfl)
        (fun u hu hu' => absurd hu' (honly hheld u hu)) fun f' v' hread' => by cases hread'⟩
  | drops _ hguard =>
      have hheld := (h.hasGuard_iff t).mp hguard
      refine ⟨none, h.of_move rfl ?_ (fun u hu => ?_)
        (fun u hu hu' => absurd hu' (honly hheld u hu)) fun f' v' hread' => by cases hread'⟩
      · simp [Thread.give, h.guards t, hheld]
      · simpa using honly hheld u hu

/-- Once its holder has given the guard away nobody has one. -/
theorem HeldBy.give (h : HeldBy s (some t)) (x : τ) :
    (Function.update s.threads t (s.threads t).give x).guards = 0 ∧
      (Function.update s.threads t (s.threads t).give x).loaded = none := by
  by_cases hx : x = t
  · subst hx
    simp [Thread.give, h.guards x]
  · rw [Function.update_of_ne hx]
    refine ⟨by simpa [Ne.symm hx] using h.guards x, Option.eq_none_iff_forall_ne_some.mpr ?_⟩
    rintro ⟨f, v⟩ hread
    exact hx (Option.some.inj (h.current x f v hread).1).symm

/-- Handing a guard on makes the other thread the holder. -/
theorem HeldBy.send (h : HeldBy s (some t)) (u : τ) : HeldBy (send s t u) (some u) where
  locked := h.locked
  guards x := by
    by_cases hx : x = u
    · subst hx
      simp [Spin.send, Thread.receive, h.give x]
    · simpa [Spin.send, Function.update_of_ne hx, Ne.symm hx] using (h.give x).1
  current x f v hread := by
    have hnone : ((Spin.send s t u).threads x).loaded = none := by
      by_cases hx : x = u
      · subst hx
        simpa [Spin.send, Thread.receive] using (h.give x).2
      · simpa [Spin.send, Function.update_of_ne hx] using (h.give x).2
    cases hnone.symm.trans hread

/-- At most one guard is out at any time. -/
theorem heldBy (hs : (spinMachine τ a).Reachable s) : ∃ o, HeldBy s o := by
  refine hs.invariant (I := fun s => ∃ o, HeldBy s o) ?_ fun s l s' _ h hstep => ?_
  · rintro s rfl
    exact ⟨none, rfl, fun _ => rfl, fun _ _ _ hread => by cases hread⟩
  · obtain ⟨o, h⟩ := h
    rcases spin_step hstep with ⟨t, m, th, hmove, rfl⟩ | ⟨t, u, -, hguard, rfl⟩
    · exact h.move hmove
    · obtain rfl := (h.hasGuard_iff t).mp hguard
      exact ⟨some u, h.send u⟩

/-- At most one guard is out, the word is set exactly while one is, and {lit}`try_get` comes
back without a guard exactly if some thread has one, be it the caller itself. -/
theorem spin_lock_excludes (hs : (spinMachine τ a).Reachable s) :
    (∀ t, (s.threads t).guards ≤ 1) ∧
    (∀ t u, (s.threads t).HasGuard → (s.threads u).HasGuard → t = u) ∧
    (s.mem.locked = true ↔ ∃ t, (s.threads t).HasGuard) ∧
    ∀ t spurious s', (s.threads t).pc = .tryGet →
      (spinMachine τ a).step s (.go t spurious) = some s' →
      ((s'.threads t).pc = .refused ↔ ∃ u, (s.threads u).HasGuard) ∧
      ((s'.threads t).guards = (s.threads t).guards + 1 ↔ ∀ u, ¬ (s.threads u).HasGuard) := by
  obtain ⟨o, h⟩ := heldBy hs
  have hlocked : s.mem.locked = true ↔ ∃ t, (s.threads t).HasGuard := by
    simp only [h.locked, h.hasGuard_iff, Option.isSome_iff_exists]
  refine ⟨fun t => ?_, fun t u ht hu => ?_, hlocked, fun t spurious s' hpc hstep => ?_⟩
  · rw [h.guards t]
    split <;> omega
  · rw [h.hasGuard_iff] at ht hu
    exact Option.some.inj (ht.symm.trans hu)
  · rw [← not_exists, ← hlocked]
    simp only [spinMachine, go, hpc, SpinLock.tryLock] at hstep
    cases hword : s.mem.locked <;> simp only [hword] at hstep <;> cases hstep <;>
      simp [Thread.receive]

/-- Who has a guard and calls {lit}`get` never comes back from it: the word it waits for is its
own. -/
theorem holder_waits_for_itself {s' : Machine.Shared τ (SpinLock α) (Thread α)}
    {ls : List (Label τ α)} (hs : (spinMachine τ a).Reachable s) (hguard : (s.threads t).HasGuard)
    (hwaits : (s.threads t).Waits) (hrun : (spinMachine τ a).run s ls = some s') :
    (s'.threads t).HasGuard ∧ (s'.threads t).Waits := by
  refine Machine.run_invariant (I := fun s => (s.threads t).HasGuard ∧ (s.threads t).Waits)
    (fun s l s' hs hI hstep => ?_) hs ⟨hguard, hwaits⟩ hrun
  obtain ⟨hguard, hwaits⟩ := hI
  obtain ⟨o, h⟩ := heldBy hs
  have hheld := (h.hasGuard_iff t).mp hguard
  have hset : s.mem.locked = true := by rw [h.locked, hheld]; rfl
  rcases spin_step hstep with ⟨u, m, th, hmove, rfl⟩ | ⟨u, v, hidle, hguard', -⟩
  · by_cases hu : t = u
    · subst hu
      simp only [Function.update_self]
      cases hmove with
      | waits pc hpc => exact ⟨hguard, .inr (hpc hwaits)⟩
      | takes hfree => cases hset.symm.trans hfree
      | reads _ hidle | writes _ _ hidle | drops hidle =>
          exact absurd hwaits (Thread.not_waits hidle)
    · simp only [Function.update_of_ne hu]
      exact ⟨hguard, hwaits⟩
  · -- only its holder could hand the guard on
    have hu : u = t := Option.some.inj (((h.hasGuard_iff u).mp hguard').symm.trans hheld)
    subst hu
    exact absurd hwaits (Thread.not_waits hidle)

/-- A lock nobody has used. -/
def unused : Machine.Shared Nat (SpinLock Nat) (Thread Nat) :=
  ⟨⟨0, false⟩, fun _ => ⟨0, .idle, none⟩⟩

/-- One thread has the guard and hands it to another, which asks for it once more while the
first one waits for it. -/
def guardAndCall : List (Label Nat Nat) :=
  [.use 0 .get, .go 0 false, .send 0 1, .use 0 .get, .go 0 true, .use 1 .tryGet]

/-- The guard is the only one, and its holder is refused another one. -/
theorem spin_lock_excludes_its_holder :
    let s := (spinMachine Nat 0).after unused guardAndCall
    s.mem.locked = true ∧ (∀ u, (s.threads u).HasGuard → u = 1) ∧
      ∀ s', (spinMachine Nat 0).step s (.go 1 false) = some s' → (s'.threads 1).pc = .refused := by
  have hrun : ((spinMachine Nat 0).run unused guardAndCall).isSome := rfl
  have hs := Machine.reachable_iff_run.mpr ⟨_, _, rfl, Machine.run_after hrun⟩
  have hguard : (((spinMachine Nat 0).after unused guardAndCall).threads 1).HasGuard :=
    Nat.one_pos
  obtain ⟨-, hone, hlocked, hrefused⟩ := spin_lock_excludes hs
  exact ⟨hlocked.mpr ⟨1, hguard⟩, fun u hu => hone u 1 hu hguard,
    fun s' hstep => (hrefused 1 false s' rfl hstep).1.mpr ⟨1, hguard⟩⟩

/-- The update a guard writes. -/
def updates (s : Machine.Shared τ (SpinLock α) (Thread α)) : Label τ α → List (α → α)
  | .use t .write => ((s.threads t).loaded.map Prod.fst).toList
  | _ => []

/-- A step does to the value what it notes. -/
theorem HeldBy.val (h : HeldBy s o) (hstep : (spinMachine τ a).step s l = some s') :
    s'.mem.val = (updates s l).foldl (fun v f => f v) s.mem.val := by
  cases l with
  | use t c =>
      simp only [spinMachine] at hstep
      split at hstep
      · obtain ⟨⟨m, th⟩, hlocal, rfl⟩ := Option.map_eq_some_iff.mp hstep
        cases c with
        | get | tryGet => cases hlocal; rfl
        | read f | drop =>
            simp only [use] at hlocal
            split at hlocal <;> cases hlocal
            rfl
        | write =>
            simp only [use] at hlocal
            split at hlocal <;> cases hlocal
            rename_i f v hread
            simp [updates, hread, (h.current t f v hread).2]
      · cases hstep
  | send t u =>
      simp only [spinMachine] at hstep
      split at hstep <;> cases hstep
      rfl
  | go t spurious =>
      simp only [spinMachine] at hstep
      obtain ⟨⟨m, th⟩, hlocal, rfl⟩ := Option.map_eq_some_iff.mp hstep
      cases go_move hlocal with
      | waits | takes | reads | drops => rfl
      | writes f v hidle => simp [go, hidle] at hlocal

/-- No update is lost: although a guard reads and writes the value in two accesses, the value is
at any time that of all updates made so far, one after the other. -/
theorem spin_lock_loses_no_update {h : List (α → α)}
    (hs : ((spinMachine τ a).noting updates).Reachable (s, h)) :
    s.mem.val = h.foldl (fun v f => f v) a := by
  suffices hall : ∀ x, ((spinMachine τ a).noting updates).Reachable x →
      x.1.mem.val = x.2.foldl (fun v f => f v) a from hall _ hs
  clear hs
  intro x hx
  refine hx.invariant (I := fun x => x.1.mem.val = x.2.foldl (fun v f => f v) a) ?_ ?_
  · rintro ⟨s, h⟩ ⟨rfl, rfl⟩
    rfl
  · rintro ⟨s, h⟩ l ⟨s', h'⟩ hx hval hstep
    obtain ⟨hstep, rfl⟩ := Machine.noting_step.mp hstep
    obtain ⟨o, hheld⟩ := heldBy (Machine.reachable_iff_noting.mpr ⟨h, hx⟩)
    change s.mem.val = _ at hval
    simpa only [List.foldl_append, ← hval] using hheld.val hstep

/-- Two threads add one each, in two accesses.  The second one waits for the first, which in
between tries to get another guard and is refused. -/
def twoIncrements : List (Label Nat Nat) :=
  [.use 0 .get, .go 0 false, .use 1 .get, .go 1 false, .use 0 (.read (· + 1)), .use 0 .tryGet,
    .go 0 false, .go 0 false, .use 0 .write, .use 0 .drop, .go 1 false, .go 1 false,
    .use 1 (.read (· + 1)), .use 1 .write, .use 1 .drop]

/-- The value counts both increments. -/
theorem two_increments_are_counted :
    let x := ((spinMachine Nat 0).noting updates).after (unused, []) twoIncrements
    x.2.length = 2 ∧ x.1.mem.val = x.2.foldl (fun v f => f v) 0 := by
  have hrun : (((spinMachine Nat 0).noting updates).run (unused, []) twoIncrements).isSome := rfl
  have hinit : ((spinMachine Nat 0).noting updates).init (unused, []) := ⟨rfl, rfl⟩
  have hs := Machine.reachable_iff_run.mpr ⟨_, _, hinit, Machine.run_after hrun⟩
  exact ⟨rfl, spin_lock_loses_no_update hs⟩

end Machine

end Spin

end XynokConcurrency
