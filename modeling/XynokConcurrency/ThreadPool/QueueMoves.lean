import XynokConcurrency.Lib.Holdings
import XynokConcurrency.ThreadPool.Calls

/-!
# What the queue operations move

A step of a queue operation moves elements between the containers its call names and
the hands of its thread.  It makes none and loses none.

Main results:

- Theorem {lit}`AtomicDeques.Acts.exchange`: a step of the atomic deques is an exchange
  between its thread and the containers the thread is at.
- Theorem {lit}`Refines.exchange`: so is a step of the operations themselves.
-/

namespace XynokConcurrency

variable {δ κ τ α : Type}

/-- Where an element can be: in a deque, in a batching queue, or in the hands of a
thread. -/
inductive Spot (δ κ τ : Type)
  | deque (d : δ)
  | queue (q : κ)
  | hands (t : τ)
deriving DecidableEq

/-- Elements a call is given. -/
def QueueCall.carried : QueueCall δ κ α → List α
  | .push _ val | .queuePush _ val => [val]
  | _ => []

/-- Elements in the hands of a thread. -/
def Status.carried : Status δ κ α → List α
  | .idle => []
  | .pending c => c.carried
  | .stealing _ _ vals => vals
  | .appending _ vals r => vals ++ r.elements
  | .decided r => r.elements

/-- Containers a call names. -/
def QueueCall.spots (c : QueueCall δ κ α) : List (Spot δ κ τ) :=
  c.deques.map .deque ++ c.queues.map .queue

/-- Containers a thread still has to do with. -/
def Status.spots : Status δ κ α → List (Spot δ κ τ)
  | .pending c => c.spots
  | .stealing victim dst _ => [.deque victim, .deque dst]
  | .appending dst _ _ => [.deque dst]
  | _ => []

/-- What lies where. -/
def AtomicDeques.held (b : AtomicDeques δ κ τ α) : Spot δ κ τ → List α
  | .deque d => b.list d
  | .queue q => b.src q
  | .hands t => (b.status t).carried

/-- What lies where, for operations under way. -/
def Queues.held [DecidableEq κ] (m : Queues δ κ τ α) (ops : τ → Op δ κ α) : Spot δ κ τ → List α
  | .deque d => (m.deque d).unclaimed
  | .queue q => m.avail ops q
  | .hands t => (ops t).hands m

/-! ## Moves of the atomic deques -/

section Acts

variable [DecidableEq δ] [DecidableEq κ] [DecidableEq τ] {capacity : δ → Nat} {t : τ}
  {b b' : AtomicDeques δ κ τ α} {d : δ} {q : κ} {st : Status δ κ α}

omit [DecidableEq δ] [DecidableEq κ] in
/-- Only the hands of a thread change. -/
theorem AtomicDeques.exchange_hands {n : δ → Nat} (hst : st.carried = (b.status t).carried) :
    Exchange b.held (({ b with claimed := n }).setStatus t st).held [] [] [] := by
  refine ⟨List.nodup_nil, fun l _ => ?_, .refl _⟩
  cases l with
  | hands u => by_cases hu : u = t <;> simp [held, setStatus, hu, hst]
  | _ => rfl

omit [DecidableEq κ] in
/-- A deque and the hands of a thread change. -/
theorem AtomicDeques.exchange_deque {l : List α} {n : δ → Nat}
    (hperm : (l ++ st.carried).Perm (b.list d ++ (b.status t).carried)) :
    Exchange b.held (({ b.setList d l with claimed := n }).setStatus t st).held
      [.deque d, .hands t] [] [] := by
  refine .two (by simp) (fun k hd ht => ?_) (by simpa [held, setList, setStatus] using hperm)
  cases k with
  | deque e => simp_all [held, setList, setStatus]
  | hands u => simp_all [held, setStatus, setList]
  | queue q => rfl

omit [DecidableEq δ] in
/-- A batching queue and the hands of a thread change. -/
theorem AtomicDeques.exchange_queue {l : List α}
    (hperm : (l ++ st.carried).Perm (b.src q ++ (b.status t).carried)) :
    Exchange b.held ((b.setSrc q l).setStatus t st).held [.queue q, .hands t] [] [] := by
  refine .two (by simp) (fun k hq ht => ?_) (by simpa [held, setSrc, setStatus] using hperm)
  cases k with
  | queue r => simp_all [held, setSrc, setStatus]
  | hands u => simp_all [held, setStatus, setSrc]
  | deque d => rfl

/-- A step of the atomic deques is an exchange between its thread and the containers the
thread is at. -/
theorem AtomicDeques.Acts.exchange (h : AtomicDeques.Acts capacity t b b') :
    ∃ places, Exchange b.held b'.held places [] [] ∧
      ∀ l ∈ places, l = .hands t ∨ l ∈ (b.status t).spots := by
  have hhands : ∀ {st : Status δ κ α} {n : δ → Nat}, st.carried = (b.status t).carried →
      ∃ places, Exchange b.held (({ b with claimed := n }).setStatus t st).held places [] [] ∧
        ∀ l ∈ places, l = .hands t ∨ l ∈ (b.status t).spots :=
    fun hst => ⟨[], exchange_hands hst, nofun⟩
  have hdeque : ∀ {d : δ} {l : List α} {st : Status δ κ α} {n : δ → Nat},
      .deque d ∈ ((b.status t).spots : List (Spot δ κ τ)) →
      (l ++ st.carried).Perm (b.list d ++ (b.status t).carried) →
      ∃ places, Exchange b.held (({ b.setList d l with claimed := n }).setStatus t st).held places
        [] [] ∧ ∀ l ∈ places, l = .hands t ∨ l ∈ (b.status t).spots :=
    fun hd hperm => ⟨_, exchange_deque hperm, by simp [hd]⟩
  have hqueue : ∀ {q : κ} {l : List α} {st : Status δ κ α},
      .queue q ∈ ((b.status t).spots : List (Spot δ κ τ)) →
      (l ++ st.carried).Perm (b.src q ++ (b.status t).carried) →
      ∃ places, Exchange b.held ((b.setSrc q l).setStatus t st).held places [] [] ∧
        ∀ l ∈ places, l = .hands t ∨ l ∈ (b.status t).spots :=
    fun hq hperm => ⟨_, exchange_queue hperm, by simp [hq]⟩
  have hfront : ∀ (l : List α) n, (l.drop n ++ l.take n).Perm l := fun l n =>
    List.perm_append_comm.trans (.of_eq (List.take_append_drop n l))
  cases h with
  | push h =>
      exact hdeque (by simp [h, Status.spots, QueueCall.spots, QueueCall.deques])
        (by simp [h, Status.carried, QueueCall.carried, QueueRes.elements])
  | pop h hlast =>
      exact hdeque (by simp [h, Status.spots, QueueCall.spots, QueueCall.deques])
        (by simp [h, hlast, Status.carried, QueueCall.carried, QueueRes.elements])
  | stealClaim h =>
      exact hdeque (by simp [h, Status.spots, QueueCall.spots, QueueCall.deques])
        (by simpa [h, Status.carried, QueueCall.carried] using hfront _ _)
  | append h =>
      exact hdeque (by simp [h, Status.spots]) (by simp [h, Status.carried])
  | refillTake h =>
      exact hqueue (by simp [h, Status.spots, QueueCall.spots, QueueCall.queues])
        (by simpa [h, Status.carried, QueueCall.carried, QueueRes.elements] using hfront _ _)
  | queuePush h =>
      exact hqueue (by simp [h, Status.spots, QueueCall.spots, QueueCall.queues])
        (by simp [h, Status.carried, QueueCall.carried, QueueRes.elements])
  | @queuePop q h =>
      have hpop : ((b.src q).tail ++ (b.src q).head?.toList).Perm (b.src q) := by
        cases b.src q with
        | nil => exact .refl _
        | cons v vs => exact List.perm_append_singleton v vs
      rcases h with h | h <;>
        exact hqueue (by simp [h, Status.spots, QueueCall.spots, QueueCall.queues])
          (by simpa [h, Status.carried, QueueCall.carried, QueueRes.elements] using hpop)
  | pushFull h | popEmpty h | len h | stealNothing h | refillNothing h | stealPublish h =>
      exact hhands (by simp [h, Status.carried, QueueCall.carried, QueueRes.elements])
  | queuePopNothing h =>
      rcases h with h | h <;>
        exact hhands (by simp [h, Status.carried, QueueCall.carried, QueueRes.elements])

omit [DecidableEq δ] [DecidableEq κ] in
/-- A thread changes no other thread's status. -/
theorem AtomicDeques.setStatus_of_ne {u : τ} (hu : u ≠ t) :
    (b.setStatus t st).status u = b.status u := by
  simp [setStatus, hu]

/-- A step of the atomic deques changes no other thread's status. -/
theorem AtomicDeques.Acts.status_of_ne (h : AtomicDeques.Acts capacity t b b') {u : τ}
    (hu : u ≠ t) : b'.status u = b.status u := by
  cases h <;> exact AtomicDeques.setStatus_of_ne hu

/-- Only a thread that is pushing or appending to a deque puts anything into it. -/
theorem AtomicDeques.Acts.list_subset {d : δ} (h : AtomicDeques.Acts capacity t b b')
    (hput : ¬ ((∃ val, b.status t = .pending (.push d val)) ∨
      ∃ vals r, b.status t = .appending d vals r)) : b'.list d ⊆ b.list d := by
  have hset : ∀ {c : AtomicDeques δ κ τ α} (e : δ) (l : List α),
      c.list = Function.update b.list e l → (e = d → l ⊆ b.list e) → c.list d ⊆ b.list d := by
    intro c e l hlist hl
    rw [hlist]
    rcases eq_or_ne d e with rfl | hne
    · simpa using hl rfl
    · simp [hne]
  cases h with
  | @push e val h => exact hset e _ rfl fun he => absurd (.inl ⟨val, he ▸ h⟩) hput
  | @append e vals r h => exact hset e _ rfl fun he => absurd (.inr ⟨vals, r, he ▸ h⟩) hput
  | @pop e l val h hlast => exact hset e l rfl fun _ => by simp [hlast]
  | @stealClaim victim dst max n h => exact hset victim _ rfl fun _ => List.drop_subset _ _
  | _ => exact List.Subset.refl _

end Acts

/-! ## Moves of the operations -/

section Refines

variable [DecidableEq δ] [DecidableEq κ] {o : Op δ κ α} {m : Queues δ κ τ α} {st : Status δ κ α}

omit [DecidableEq δ] [DecidableEq κ] in
/-- An operation that is about to put elements into a deque is one of its owner. -/
theorem Op.Matches.ownerSide {vs : List α} {d : δ} (h : o.Matches vs st)
    (hst : (∃ val, st = .pending (.push d val)) ∨ ∃ vals r, st = .appending d vals r) :
    o.ownerSide = some d := by
  cases o
  case cursorAnchor e k | cursorStolen e k tail blocked =>
    cases k <;> simp only [Op.Matches] at h <;> (try split at h) <;> subst h <;>
      rcases hst with ⟨val, hst⟩ | ⟨vals, r, hst⟩ <;> cases hst
    rfl
  all_goals simp only [Op.Matches] at h
  case pushAdd | popTake | drainIsEmpty | drainLock | drainAmount | stealCas =>
    obtain ⟨_, _, rfl⟩ := h
    rcases hst with ⟨val, hst⟩ | ⟨vals, r, hst⟩ <;> cases hst <;> rfl
  case queuePopFront =>
    rcases h with rfl | rfl <;> rcases hst with ⟨val, hst⟩ | ⟨vals, r, hst⟩ <;> cases hst
  all_goals
    (try split at h)
    all_goals
      subst h
      rcases hst with ⟨val, hst⟩ | ⟨vals, r, hst⟩ <;> cases hst <;> rfl

omit [DecidableEq δ] [DecidableEq κ] in
/-- What the status of an operation carries is what the operation has in its hands. -/
theorem Op.Matches.carried (h : o.Matches (o.hands m) st) : st.carried = o.hands m := by
  have hnone : ∀ {d c src} {n : Nat}, n < 1 →
      (Op.drainStoreLen d src n c : Op δ κ α).hands m = [] ∧
        (Op.drainUnlock d src n c : Op δ κ α).hands m = [] := by
    intro d c src n hn
    obtain rfl : n = 0 := by omega
    exact ⟨rfl, rfl⟩
  cases o with
  | cursorAnchor d k => cases k <;> rw [show st = _ from h] <;> rfl
  | cursorStolen d k tail blocked =>
      cases k with
      | pop =>
          rw [show st = _ from h]
          split <;> rfl
      | _ => rw [show st = _ from h]; rfl
  | pushAdd d c | popTake d cursor =>
      obtain ⟨val, hval, rfl⟩ := h
      exact hval.symm
  | drainIsEmpty d src take c | drainLock d src take c | drainAmount d src take c
  | stealCas victim dst amount dc vc =>
      obtain ⟨max, -, rfl⟩ := h
      rfl
  | drainStoreLen d src moved c | drainUnlock d src moved c =>
      rw [show st = _ from h]
      split
      · simp only [hnone ‹_›, Status.carried, QueueRes.elements]
      · exact List.append_nil _
  | drainFront | drainWrite | refillAdd | stealAdd =>
      rw [show st = _ from h]
      exact List.append_nil _
  | queuePopFront q => rcases h with rfl | rfl <;> rfl
  | queuePopStoreLen | queuePopUnlock | done =>
      rw [show st = _ from h]
      simp [Op.hands, Op.staged, Op.inHand, Op.won, Op.drains, Queues.stretch, Queues.front,
        Status.carried, QueueRes.elements]
  | _ =>
      rw [show st = _ from h]
      rfl

omit [DecidableEq δ] [DecidableEq κ] in
/-- The containers an operation's status names are named by its call. -/
theorem Op.Matches.spots {c : QueueCall δ κ α} {vs : List α} (h : o.Matches vs st)
    (hc : o.Within c) : (st.spots : List (Spot δ κ τ)) ⊆ c.spots := by
  cases o with
  | idle => exact hc.elim
  | cursorAnchor d k =>
      rw [show st = _ from h, show c = _ from hc]
      exact List.Subset.refl _
  | cursorStolen d k tail blocked =>
      rw [show c = _ from hc]
      cases k <;> rw [show st = _ from h] <;> (try split) <;>
        first
          | exact List.nil_subset _
          | exact List.Subset.refl _
  | pushAdd d cursors =>
      obtain ⟨val, -, rfl⟩ := h
      obtain ⟨val', rfl⟩ : ∃ val, c = .push d val := hc
      exact List.Subset.refl _
  | popTake d cursor =>
      obtain ⟨val, -, rfl⟩ := h
      exact List.nil_subset _
  | drainIsEmpty d src take cursors | drainLock d src take cursors
  | drainAmount d src take cursors =>
      obtain ⟨max, -, rfl⟩ := h
      obtain ⟨max', rfl⟩ : ∃ max, c = .pushBatchByTakingFromQueue d max src := hc
      exact List.Subset.refl _
  | refillLen d max src cursors =>
      obtain ⟨max', rfl⟩ : ∃ max, c = .pushBatchByTakingFromQueue d max src := hc
      rw [show st = _ from h]
      exact List.Subset.refl _
  | drainFront d src | drainWrite d src | drainStoreLen d src | drainUnlock d src =>
      obtain ⟨max, rfl⟩ : ∃ max, c = .pushBatchByTakingFromQueue d max src := hc
      rw [show st = _ from h]
      (try split) <;> simp [Status.spots, QueueCall.spots, QueueCall.deques]
  | refillAdd d =>
      obtain ⟨max, src, rfl⟩ : ∃ max src, c = .pushBatchByTakingFromQueue d max src := hc
      rw [show st = _ from h]
      simp [Status.spots, QueueCall.spots, QueueCall.deques]
  | stealCas victim dst =>
      obtain ⟨max, -, rfl⟩ := h
      obtain ⟨max', rfl⟩ : ∃ max, c = .trySteal victim max dst := hc
      exact List.Subset.refl _
  | stealTake victim dst | stealWrite victim dst | publishLoad victim dst | publishCas victim dst =>
      obtain ⟨max, rfl⟩ : ∃ max, c = .trySteal victim max dst := hc
      rw [show st = _ from h]
      simp [Status.spots, QueueCall.spots, QueueCall.deques]
  | stealAdd dst =>
      obtain ⟨victim, max, rfl⟩ : ∃ victim max, c = .trySteal victim max dst := hc
      rw [show st = _ from h]
      simp [Status.spots, QueueCall.spots, QueueCall.deques]
  | queuePopFront q => rcases h with rfl | rfl <;> rcases hc with rfl | rfl <;> exact List.Subset.refl _
  | pushWrite | popCas | queuePushLock | queuePushBack | queuePopIsEmpty | queuePopLock | queueTryPopLock =>
      rw [show st = _ from h, show c = _ from hc]
      exact List.Subset.refl _
  | queuePushStoreLen | queuePushUnlock | queuePopStoreLen | queuePopUnlock | done =>
      rw [show st = _ from h]
      exact List.nil_subset _

omit [DecidableEq δ] in
/-- What lies where is what the atomic deques say. -/
theorem Refines.held_eq {ops : τ → Op δ κ α} {b : AtomicDeques δ κ τ α} (hb : Refines m ops b) :
    m.held ops = b.held := by
  funext l
  cases l with
  | deque d => exact (hb.list d).symm
  | queue q => exact (hb.src q).symm
  | hands t => exact (Op.Matches.carried (hb.status t)).symm

/-- A step of an operation is an exchange between its thread and the containers its call
names. -/
theorem Refines.exchange [DecidableEq τ] {ops : τ → Op δ κ α} {b : AtomicDeques δ κ τ α} {t : τ}
    {m' : Queues δ κ τ α} {spurious : Bool} {i : QInstr δ κ α (Op δ κ α)} {c : QueueCall δ κ α}
    (hb : Refines m ops b) (hinv : DequesInv m.deque ops) (hq : QueuesInv m.queue ops)
    (hc : (ops t).Within c) (hi : (ops t).instr spurious = some i)
    (hx : i.exec t m = some (m', o)) :
    ∃ places, Exchange (m.held ops) (m'.held (Function.update ops t o)) places [] [] ∧
      ∀ l ∈ places, l = .hands t ∨ l ∈ c.spots := by
  obtain ⟨b', hfollows, hb'⟩ :=
    hb.tick (fun _ => rfl) hinv hq hi hx
  rw [hb.held_eq, hb'.held_eq]
  rcases hfollows with rfl | hacts
  · exact ⟨[], .refl _, nofun⟩
  · obtain ⟨places, hexchange, hplaces⟩ := hacts.exchange
    exact ⟨places, hexchange, fun l hl => (hplaces l hl).imp_right
      fun hl => Op.Matches.spots (hb.status t) hc hl⟩

/-- Only the owner of a deque puts anything into it. -/
theorem Refines.unclaimed_subset [DecidableEq τ] {ops : τ → Op δ κ α} {b : AtomicDeques δ κ τ α}
    {t : τ} {m' : Queues δ κ τ α} {spurious : Bool} {i : QInstr δ κ α (Op δ κ α)} {d : δ}
    (hb : Refines m ops b) (hinv : DequesInv m.deque ops) (hq : QueuesInv m.queue ops)
    (hi : (ops t).instr spurious = some i) (hx : i.exec t m = some (m', o))
    (hd : (ops t).ownerSide ≠ some d) : (m'.deque d).unclaimed ⊆ (m.deque d).unclaimed := by
  obtain ⟨b', hfollows, hb'⟩ := hb.tick (fun _ => rfl) hinv hq hi hx
  rw [← hb'.list, ← hb.list]
  rcases hfollows with rfl | hact
  · exact List.Subset.refl _
  · exact hact.list_subset fun hput => hd ((hb.status t).ownerSide hput)

end Refines

end XynokConcurrency
