import XynokConcurrency.ThreadPool.WorkerQueueSpec

/-!
# Program points of one call

A queue operation under way belongs to one call for its whole life, whatever the
memory does to it: it uses the deques and queues the call names, and what it
returns fits the call.

Main results:

- Theorem {lit}`Op.Within.tick`: an operation stays within its call.
- Theorems {lit}`Op.Within.deques` and {lit}`Op.Within.queues`: it shows state of
  the deques, and holds locks of the queues, that its call names.
-/

namespace XynokConcurrency

variable {δ κ τ α : Type}

/-- Deques a call uses. -/
def QueueCall.deques : QueueCall δ κ α → List δ
  | .push d _ => [d]
  | .pushBatchByTakingFromQueue d _ _ => [d]
  | .pop d => [d]
  | .trySteal victim _ dst => [victim, dst]
  | .len d => [d]
  | _ => []

/-- Batching queues a call uses. -/
def QueueCall.queues : QueueCall δ κ α → List κ
  | .pushBatchByTakingFromQueue _ _ src => [src]
  | .queuePush q _ => [q]
  | .queuePop q => [q]
  | .queueTryPop q => [q]
  | _ => []

/-- The results a call can have. -/
def QueueCall.Returns : QueueCall δ κ α → QueueRes α → Prop
  | .push _ val, r => r = .pushed ∨ r = .full val
  | .pushBatchByTakingFromQueue _ _ _, r => ∃ n, r = .moved n
  | .pop _, r => ∃ val, r = .popped val
  | .trySteal _ _ _, r => ∃ out, r = .stole out
  | .len _, r => ∃ n, r = .length n
  | .queuePush _ _, r => r = .pushed
  | .queuePop _, r => ∃ val, r = .popped val
  | .queueTryPop _, r => ∃ val, r = .popped val

/-- The operation is a program point of the call. -/
def Op.Within (c : QueueCall δ κ α) : Op δ κ α → Prop
  | .idle => False
  | .cursorAnchor d k => c = k.call d
  | .cursorStolen d k _ _ => c = k.call d
  | .pushWrite d val _ => c = .push d val
  | .pushAdd d _ => ∃ val, c = .push d val
  | .popCas d _ => c = .pop d
  | .popTake d _ => c = .pop d
  | .refillLen d _ src _ => ∃ max, c = .pushBatchByTakingFromQueue d max src
  | .drainIsEmpty d src _ _ => ∃ max, c = .pushBatchByTakingFromQueue d max src
  | .drainLock d src _ _ => ∃ max, c = .pushBatchByTakingFromQueue d max src
  | .drainAmount d src _ _ => ∃ max, c = .pushBatchByTakingFromQueue d max src
  | .drainFront d src _ _ _ => ∃ max, c = .pushBatchByTakingFromQueue d max src
  | .drainWrite d src _ _ _ _ => ∃ max, c = .pushBatchByTakingFromQueue d max src
  | .drainStoreLen d src _ _ => ∃ max, c = .pushBatchByTakingFromQueue d max src
  | .drainUnlock d src _ _ => ∃ max, c = .pushBatchByTakingFromQueue d max src
  | .refillAdd d _ _ => ∃ max src, c = .pushBatchByTakingFromQueue d max src
  | .stealCas victim dst _ _ _ => ∃ max, c = .trySteal victim max dst
  | .stealTake victim dst _ _ _ _ => ∃ max, c = .trySteal victim max dst
  | .stealWrite victim dst _ _ _ _ _ => ∃ max, c = .trySteal victim max dst
  | .publishLoad victim dst _ _ _ => ∃ max, c = .trySteal victim max dst
  | .publishCas victim dst _ _ _ => ∃ max, c = .trySteal victim max dst
  | .stealAdd dst _ _ => ∃ victim max, c = .trySteal victim max dst
  | .queuePushLock q val => c = .queuePush q val
  | .queuePushBack q val => c = .queuePush q val
  | .queuePushStoreLen q => ∃ val, c = .queuePush q val
  | .queuePushUnlock q => ∃ val, c = .queuePush q val
  | .queuePopIsEmpty q => c = .queuePop q
  | .queuePopLock q => c = .queuePop q
  | .queueTryPopLock q => c = .queueTryPop q
  | .queuePopFront q => c = .queuePop q ∨ c = .queueTryPop q
  | .queuePopStoreLen q _ => c = .queuePop q ∨ c = .queueTryPop q
  | .queuePopUnlock q _ => c = .queuePop q ∨ c = .queueTryPop q
  | .done r => c.Returns r

namespace Op.Within

variable {c : QueueCall δ κ α} {o o' : Op δ κ α} {spurious : Bool}
  {i : QInstr δ κ α (Op δ κ α)} {t : τ} {m m' : Queues δ κ τ α}

/-- A call starts within itself. -/
theorem start (c : QueueCall δ κ α) : (Op.start c).Within c := by
  cases c <;> rfl

/-- The head of the loop of {lit}`pop`. -/
theorem popLoop (d : δ) (cursors : CursorData) :
    (Op.popLoop d cursors : Op δ κ α).Within (.pop d) := by
  unfold Op.popLoop
  split
  · exact ⟨none, rfl⟩
  · rfl

/-- The continuation of a snapshot. -/
theorem afterCursorData (d : δ) (cursors : CursorData) (k : Next δ κ α) :
    (Op.afterCursorData d cursors k).Within (k.call d) := by
  cases k with
  | push val =>
      simp only [Op.afterCursorData]
      split
      · exact .inr rfl
      · rfl
  | refill max src => exact ⟨max, rfl⟩
  | pop => exact popLoop d cursors
  | stealDst victim max => rfl
  | stealVictim dst max dc =>
      simp only [Op.afterCursorData]
      split
      · exact ⟨_, rfl⟩
      · exact ⟨max, rfl⟩
  | len => exact ⟨_, rfl⟩

/-- An operation stays within its call. -/
theorem tick [DecidableEq δ] [DecidableEq κ] (h : o.Within c) (hi : o.instr spurious = some i)
    (hx : i.exec t m = some (m', o')) : o'.Within c := by
  cases o with
  | idle => cases hi
  | done r => cases hi
  | cursorAnchor d k =>
      cases hi
      cases hx
      exact h
  | cursorStolen d k tail blocked =>
      cases hi
      cases hx
      rw [show c = k.call d from h]
      exact afterCursorData ..
  | popCas d cursors =>
      obtain rfl : c = .pop d := h
      simp only [Op.instr] at hi
      split at hi <;> cases hi
      · cases hx
        exact popLoop ..
      · simp only [QInstr.exec] at hx
        split at hx <;> cases hx
        · rfl
        · exact popLoop ..
  | popTake d cursor =>
      obtain rfl : c = .pop d := h
      cases hi
      simp only [QInstr.exec] at hx
      split at hx <;> cases hx
      exact ⟨_, rfl⟩
  | publishCas victim dst amount dc start =>
      simp only [Op.instr] at hi
      split at hi <;> cases hi
      · cases hx
        exact h
      · simp only [QInstr.exec] at hx
        split at hx <;> cases hx
        · exact ⟨_, h⟩
        · exact h
  | stealCas victim dst amount dc vc =>
      obtain ⟨max, rfl⟩ : ∃ max, c = .trySteal victim max dst := h
      cases hi
      simp only [QInstr.exec] at hx
      split at hx <;> cases hx
      · unfold Op.stealLoop
        split <;> exact ⟨max, rfl⟩
      · exact ⟨_, rfl⟩
  | stealTake victim dst amount offset dc start =>
      cases hi
      simp only [QInstr.exec] at hx
      split at hx <;> cases hx
      exact h
  | stealWrite victim dst amount offset dc start val =>
      cases hi
      cases hx
      unfold Op.stealLoop
      split <;> exact h
  | stealAdd dst amount dc =>
      obtain ⟨victim, max, rfl⟩ : ∃ victim max, c = .trySteal victim max dst := h
      cases hi
      cases hx
      exact ⟨_, rfl⟩
  | publishLoad victim dst amount dc start =>
      cases hi
      cases hx
      dsimp only
      split <;> exact h
  | pushWrite d val cursors =>
      cases hi
      cases hx
      exact ⟨val, h⟩
  | pushAdd d cursors =>
      obtain ⟨val, rfl⟩ : ∃ val, c = .push d val := h
      cases hi
      cases hx
      exact .inl rfl
  | refillLen d max src cursors =>
      obtain ⟨max', rfl⟩ : ∃ max, c = .pushBatchByTakingFromQueue d max src := h
      cases hi
      cases hx
      dsimp only
      split
      · exact ⟨0, rfl⟩
      · exact ⟨max', rfl⟩
  | drainIsEmpty d src take cursors =>
      obtain ⟨max, rfl⟩ : ∃ max, c = .pushBatchByTakingFromQueue d max src := h
      cases hi
      cases hx
      dsimp only
      split
      · exact ⟨0, rfl⟩
      · exact ⟨max, rfl⟩
  | drainLock d src take cursors =>
      cases hi
      simp only [QInstr.exec] at hx
      split at hx <;> cases hx
      exact h
  | drainAmount d src take cursors =>
      cases hi
      cases hx
      simp only [Op.drainLoop]
      split <;> exact h
  | drainFront d src moved offset cursors =>
      cases hi
      simp only [QInstr.exec] at hx
      split at hx <;> cases hx
      exact h
  | drainWrite d src moved offset cursors val =>
      cases hi
      cases hx
      unfold Op.drainLoop
      split <;> exact h
  | drainStoreLen d src moved cursors =>
      cases hi
      cases hx
      exact h
  | drainUnlock d src moved cursors =>
      obtain ⟨max, rfl⟩ : ∃ max, c = .pushBatchByTakingFromQueue d max src := h
      cases hi
      cases hx
      split
      · exact ⟨0, rfl⟩
      · exact ⟨max, src, rfl⟩
  | refillAdd d moved cursors =>
      obtain ⟨max, src, rfl⟩ : ∃ max src, c = .pushBatchByTakingFromQueue d max src := h
      cases hi
      cases hx
      exact ⟨_, rfl⟩
  | queuePushLock q val =>
      cases hi
      simp only [QInstr.exec] at hx
      split at hx <;> cases hx
      exact h
  | queuePushBack q val =>
      cases hi
      cases hx
      exact ⟨val, h⟩
  | queuePushStoreLen q =>
      cases hi
      cases hx
      exact h
  | queuePushUnlock q =>
      obtain ⟨val, rfl⟩ : ∃ val, c = .queuePush q val := h
      cases hi
      cases hx
      rfl
  | queuePopIsEmpty q =>
      obtain rfl : c = .queuePop q := h
      cases hi
      cases hx
      dsimp only
      split
      · exact ⟨none, rfl⟩
      · rfl
  | queuePopLock q =>
      cases hi
      simp only [QInstr.exec] at hx
      split at hx <;> cases hx
      exact .inl h
  | queueTryPopLock q =>
      obtain rfl : c = .queueTryPop q := h
      cases hi
      simp only [QInstr.exec] at hx
      split at hx <;> cases hx
      · exact .inr rfl
      · exact ⟨none, rfl⟩
  | queuePopFront q =>
      cases hi
      cases hx
      exact h
  | queuePopStoreLen q val =>
      cases hi
      cases hx
      exact h
  | queuePopUnlock q val =>
      cases hi
      cases hx
      rcases h with rfl | rfl <;> exact ⟨val, rfl⟩

/-- An operation on the owner side of a deque is within a call that is. -/
theorem ownerSide (h : o.Within c) {d : δ} (hd : o.ownerSide = some d) :
    c.ownerSide = some d := by
  cases o with
  | cursorAnchor e k => cases k <;> cases hd <;> rw [show c = _ from h] <;> rfl
  | cursorStolen e k tail blocked => cases k <;> cases hd <;> rw [show c = _ from h] <;> rfl
  | _ =>
      simp only [Op.ownerSide, reduceCtorEq, Option.some.injEq] at hd <;>
        subst hd <;>
        first
          | rw [show c = _ from h]; rfl
          | obtain ⟨_, rfl⟩ := h; rfl
          | obtain ⟨_, _, rfl⟩ := h; rfl


/-- An operation shows state of the deques of its call only. -/
theorem deques [DecidableEq δ] (h : o.Within c) {d : δ} (hd : d ∉ c.deques) :
    o.claimAt d = none ∧ o.ownAt d = none := by
  cases o with
  | cursorAnchor e k =>
      cases k <;> rw [show c = _ from h] at hd <;>
        simp_all [Op.claimAt, Op.ownAt, Next.ownAt, Next.call, QueueCall.deques, eq_comm]
  | cursorStolen e k tail blocked =>
      cases k <;> rw [show c = _ from h] at hd <;>
        simp_all [Op.claimAt, Op.ownAt, Next.ownAt, Next.call, QueueCall.deques, eq_comm]
  | _ =>
      first
        | exact ⟨rfl, rfl⟩
        | rw [show c = _ from h] at hd
          simp_all [Op.claimAt, Op.ownAt, QueueCall.deques, eq_comm]
        | obtain ⟨_, rfl⟩ := h
          simp_all [Op.claimAt, Op.ownAt, QueueCall.deques, eq_comm]
        | obtain ⟨_, _, rfl⟩ := h
          simp_all [Op.claimAt, Op.ownAt, QueueCall.deques, eq_comm]

/-- An operation holds locks of the queues of its call only. -/
theorem queues (h : o.Within c) {q : κ} (hq : o.holds = some q) : q ∈ c.queues := by
  cases o <;> simp only [Op.holds, reduceCtorEq, Option.some.injEq] at hq <;> subst hq <;>
    first
      | rw [show c = _ from h]; exact List.mem_singleton.mpr rfl
      | rcases h with rfl | rfl <;> exact List.mem_singleton.mpr rfl
      | obtain ⟨_, rfl⟩ := h; exact List.mem_singleton.mpr rfl

end Op.Within

/-! ## What an operation leaves alone -/

section Frame

variable [DecidableEq δ] [DecidableEq κ] {c : QueueCall δ κ α} {o o' : Op δ κ α} {spurious : Bool}
  {t : τ} {m m' : Queues δ κ τ α}

/-- The deque an access is on. -/
def QInstr.deque {β : Type} : QInstr δ κ α β → Option δ
  | .anchorLoad d _ | .stolenLoad d _ | .slotWrite d _ _ _ | .slotTake d _ _ | .anchorAdd d _ _
  | .anchorCas d _ _ _ _ | .stolenCas d _ _ _ _ => some d
  | _ => none

/-- The batching queue an access is on. -/
def QInstr.queue {β : Type} : QInstr δ κ α β → Option κ
  | .lenLoad q _ | .lock q _ | .tryLock q _ | .guardLen q _ | .pushBack q _ _ | .popFront q _
  | .drainFront q _ | .truncate q _ _ | .storeLen q _ | .unlock q _ => some q
  | _ => none

/-- An access changes nothing but what it is on. -/
theorem QInstr.exec_frame {β : Type} {i : QInstr δ κ α β} {b : β} (hx : i.exec t m = some (m', b)) :
    (∀ d, i.deque ≠ some d → m'.deque d = m.deque d) ∧
      ∀ q, i.queue ≠ some q → m'.queue q = m.queue q := by
  have hdeque : ∀ e w d, some e ≠ some d → (m.setDeque e w).deque d = m.deque d :=
    fun e w d hne => Function.update_of_ne (fun h => hne (congrArg some h.symm)) ..
  have hqueue : ∀ r b q, some r ≠ some q → (m.setQueue r b).queue q = m.queue q :=
    fun r b q hne => Function.update_of_ne (fun h => hne (congrArg some h.symm)) ..
  cases i <;> simp only [QInstr.exec] at hx <;> (try split at hx) <;> cases hx <;>
    first
      | exact ⟨fun _ _ => rfl, fun _ _ => rfl⟩
      | exact ⟨fun d hd => hdeque _ _ d hd, fun _ _ => rfl⟩
      | exact ⟨fun _ _ => rfl, fun q hq => hqueue _ _ q hq⟩

omit [DecidableEq δ] [DecidableEq κ] in
/-- The next access of an operation is on a container of its call. -/
theorem Op.Within.instr {i : QInstr δ κ α (Op δ κ α)} (h : o.Within c)
    (hi : o.instr spurious = some i) :
    (∀ d, i.deque = some d → d ∈ c.deques) ∧ ∀ q, i.queue = some q → q ∈ c.queues := by
  cases o with
  | cursorAnchor e k | cursorStolen e k tail blocked =>
      cases hi
      cases k <;> rw [show c = _ from h] <;>
        simp [QInstr.deque, QInstr.queue, Next.call, QueueCall.deques]
  | queuePopFront q | queuePopStoreLen q val | queuePopUnlock q val =>
      cases hi
      rcases h with rfl | rfl <;> simp [QInstr.deque, QInstr.queue, QueueCall.queues]
  | _ =>
      simp only [Op.instr] at hi
      (try split at hi) <;> cases hi <;>
        first
          | rw [show c = _ from h]
            simp [QInstr.deque, QInstr.queue, QueueCall.deques, QueueCall.queues]
          | obtain ⟨_, rfl⟩ := h
            simp [QInstr.deque, QInstr.queue, QueueCall.deques, QueueCall.queues]
          | obtain ⟨_, _, rfl⟩ := h
            simp [QInstr.deque, QInstr.queue, QueueCall.deques]

/-- A step of an operation changes containers of its call only. -/
theorem Op.Within.frame {i : QInstr δ κ α (Op δ κ α)} (h : o.Within c)
    (hi : o.instr spurious = some i) (hx : i.exec t m = some (m', o')) :
    (∀ d, d ∉ c.deques → m'.deque d = m.deque d) ∧
      ∀ q, q ∉ c.queues → m'.queue q = m.queue q :=
  ⟨fun d hd => (i.exec_frame hx).1 d fun he => hd ((h.instr hi).1 d he),
    fun q hq => (i.exec_frame hx).2 q fun he => hq ((h.instr hi).2 q he)⟩

end Frame

end XynokConcurrency
