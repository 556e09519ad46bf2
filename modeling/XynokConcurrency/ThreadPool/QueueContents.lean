import XynokConcurrency.ThreadPool.SlotOwnership

/-!
# Where the elements are

In every state each element of the shared queues is in one of three kinds of
place: the unclaimed range of a deque, the available part of a batching queue, or
the hands of the thread whose operation is moving it.  The hands of an operation
are spread over its local variables, the slots it has written beyond the tail,
the slots it has won and not yet read, and the front of the queue it is draining.

Main results:

- Definitions {lit}`Op.hands` and {lit}`Queues.avail`.
- Structure {lit}`QueuesInv`: the lock discipline of the batching queues.
- Theorem {lit}`DequesInv.hands_frame`: no step changes the hands of another
  thread.
-/

namespace XynokConcurrency

open ClaimRing

variable {δ κ τ α : Type}

/-! ## Stretches of slots -/

/-- Elements in consecutive slots from a cursor on. -/
def WorkerQueue.valuesAt (q : WorkerQueue α) (cursor : UInt32) (n : Nat) : List α :=
  (List.range n).filterMap fun k => q.buffer.cellAt (cursor + UInt32.ofNat k)

/-- The unclaimed elements lie between the blocked cursor and the tail. -/
theorem WorkerQueue.unclaimed_eq (q : WorkerQueue α) :
    q.unclaimed =
      q.valuesAt (unpack q.anchor).2 ((unpack q.anchor).1 - (unpack q.anchor).2).toNat := by
  simp only [unclaimed, dropCells, valuesAt, List.filterMap_map]
  rfl

/-- Two deques that agree on a stretch of cells hold the same elements there. -/
theorem WorkerQueue.valuesAt_congr {q q' : WorkerQueue α} {i n : Nat}
    (h : ∀ k, k < n → q.buffer.cellAt (UInt32.ofNat (i + k)) =
      q'.buffer.cellAt (UInt32.ofNat (i + k))) :
    q.valuesAt (UInt32.ofNat i) n = q'.valuesAt (UInt32.ofNat i) n := by
  apply List.filterMap_congr
  intro k hk
  rw [← UInt32.ofNat_add]
  exact h k (List.mem_range.mp hk)

/-- A deque that was just created is empty. -/
theorem WorkerQueue.unclaimed_new (capacity : Nat) (h : acceptsCapacity capacity) :
    (WorkerQueue.new capacity h : WorkerQueue α).unclaimed = [] := by
  simp [WorkerQueue.unclaimed, WorkerQueue.dropCells, WorkerQueue.new, WorkerQueue.startingAt]

@[simp] theorem WorkerQueue.valuesAt_zero (q : WorkerQueue α) (cursor : UInt32) :
    q.valuesAt cursor 0 = [] := rfl

/-- A stretch of slots, one slot longer at the back. -/
theorem WorkerQueue.valuesAt_succ (q : WorkerQueue α) (cursor : UInt32) (n : Nat) :
    q.valuesAt cursor (n + 1) =
      q.valuesAt cursor n ++ (q.buffer.cellAt (cursor + UInt32.ofNat n)).toList := by
  simp only [valuesAt, List.range_succ, List.filterMap_append, List.filterMap_cons,
    List.filterMap_nil]
  cases q.buffer.cellAt (cursor + UInt32.ofNat n) <;> rfl

/-- A stretch of slots, one slot longer at the front. -/
theorem WorkerQueue.valuesAt_succ' (q : WorkerQueue α) (cursor : UInt32) (n : Nat) :
    q.valuesAt cursor (n + 1) =
      (q.buffer.cellAt cursor).toList ++ q.valuesAt (cursor + 1) n := by
  have hshift : ∀ k : Nat, cursor + UInt32.ofNat (k + 1) = cursor + 1 + UInt32.ofNat k := by
    intro k
    rw [UInt32.ofNat_add, UInt32.add_comm (UInt32.ofNat k), ← UInt32.add_assoc]
    rfl
  simp only [valuesAt, List.range_succ_eq_map, List.filterMap_cons, List.filterMap_map,
    Function.comp_def, Nat.succ_eq_add_one, hshift]
  have hzero : cursor + UInt32.ofNat 0 = cursor := UInt32.add_zero cursor
  rw [hzero]
  cases q.buffer.cellAt cursor <;> rfl

namespace Models

variable {q : WorkerQueue α} {claims : τ → Option ClaimView} {owns : τ → Option OwnView}
  {r : Ring τ α}

/-- A stretch of slots holds the values of its positions. -/
theorem valuesAt_ofNat (h : Models q claims owns r) (i n : Nat) :
    q.valuesAt (UInt32.ofNat i) n = r.values i n := by
  apply List.filterMap_congr
  intro k _
  rw [← UInt32.ofNat_add, h.cellAt_ofNat]

/-- The unclaimed elements of a deque are those of its ring. -/
theorem unclaimed_eq (h : Models q claims owns r) (hr : r.Inv) : q.unclaimed = r.unclaimed := by
  have hcap := h.cap_lt
  have hsb := hr.stolen_le
  have htl := hr.tail_le
  rw [q.unclaimed_eq, h.unpack_anchor]
  dsimp only
  rw [toNat_ofNat_sub hr.blocked_le (by omega), h.valuesAt_ofNat]
  rfl

end Models

/-! ## The hands of an operation -/

/-- Elements a result hands back. -/
def QueueRes.elements : QueueRes α → List α
  | .full val => [val]
  | .popped val => val.toList
  | _ => []

/-- Slots written beyond the tail of the operation's own deque. -/
def Op.staged : Op δ κ α → Option (δ × UInt32 × Nat)
  | .pushAdd d c => some (d, c.tail, 1)
  | .drainFront d _ _ offset c => some (d, c.tail, offset)
  | .drainWrite d _ _ offset c _ => some (d, c.tail, offset)
  | .drainStoreLen d _ moved c => some (d, c.tail, moved)
  | .drainUnlock d _ moved c => some (d, c.tail, moved)
  | .refillAdd d moved c => some (d, c.tail, moved)
  | .stealTake _ dst _ offset dc _ => some (dst, dc.tail, offset)
  | .stealWrite _ dst _ offset dc _ _ => some (dst, dc.tail, offset)
  | .publishLoad _ dst amount dc _ => some (dst, dc.tail, amount)
  | .publishCas _ dst amount dc _ => some (dst, dc.tail, amount)
  | .stealAdd dst amount dc => some (dst, dc.tail, amount)
  | _ => none

/-- Elements in the operation's local variables. -/
def Op.inHand : Op δ κ α → List α
  | .cursorAnchor _ (.push val) => [val]
  | .cursorStolen _ (.push val) _ _ => [val]
  | .pushWrite _ val _ => [val]
  | .drainWrite _ _ _ _ _ val => [val]
  | .stealWrite _ _ _ _ _ _ val => [val]
  | .queuePushLock _ val => [val]
  | .queuePushBack _ val => [val]
  | .queuePopStoreLen _ val => val.toList
  | .queuePopUnlock _ val => val.toList
  | .done r => r.elements
  | _ => []

/-- Slots the operation has won and still has to read out. -/
def Op.won : Op δ κ α → Option (δ × UInt32 × Nat)
  | .popTake d cursor => some (d, cursor, 1)
  | .stealTake v _ amount offset _ start => some (v, start + UInt32.ofNat offset, amount - offset)
  | .stealWrite v _ amount offset _ start _ =>
      some (v, start + UInt32.ofNat (offset + 1), amount - (offset + 1))
  | _ => none

/-- Front of a batching queue the operation has decided to move. -/
def Op.drains : Op δ κ α → Option (κ × Nat)
  | .drainFront _ src moved offset _ => some (src, moved - offset)
  | .drainWrite _ src moved offset _ _ => some (src, moved - (offset + 1))
  | _ => none

/-- Elements of a stretch of slots of some deque. -/
def Queues.stretch (m : Queues δ κ τ α) : Option (δ × UInt32 × Nat) → List α
  | some (d, cursor, n) => (m.deque d).valuesAt cursor n
  | none => []

/-- Elements at the front of some batching queue. -/
def Queues.front (m : Queues δ κ τ α) : Option (κ × Nat) → List α
  | some (q, n) => (m.queue q).elements.take n
  | none => []

/-- Everything an operation is moving, oldest first. -/
def Op.hands (m : Queues δ κ τ α) (o : Op δ κ α) : List α :=
  m.stretch o.staged ++ o.inHand ++ m.stretch o.won ++ m.front o.drains

@[simp] theorem Op.hands_idle (m : Queues δ κ τ α) : (Op.idle : Op δ κ α).hands m = [] := rfl

@[simp] theorem Op.hands_done (m : Queues δ κ τ α) (r : QueueRes α) :
    (Op.done r : Op δ κ α).hands m = r.elements := by
  simp [Op.hands, Op.staged, Op.inHand, Op.won, Op.drains, Queues.stretch, Queues.front]

/-- How much of a batching queue an operation has decided to move. -/
def Op.draining [DecidableEq κ] (q : κ) (o : Op δ κ α) : Nat :=
  match o.drains with
  | some (q', n) => if q' = q then n else 0
  | none => 0

/-- The elements of a batching queue nobody has decided to move. -/
def Queues.avail [DecidableEq κ] (m : Queues δ κ τ α) (ops : τ → Op δ κ α) (q : κ) : List α :=
  match (m.queue q).locked with
  | some t => (m.queue q).elements.drop ((ops t).draining q)
  | none => (m.queue q).elements

/-! ## Locks of the batching queues -/

/-- The batching queue whose lock an operation holds. -/
def Op.holds : Op δ κ α → Option κ
  | .drainAmount _ src _ _ => some src
  | .drainFront _ src _ _ _ => some src
  | .drainWrite _ src _ _ _ _ => some src
  | .drainStoreLen _ src _ _ => some src
  | .drainUnlock _ src _ _ => some src
  | .queuePushBack q _ => some q
  | .queuePushStoreLen q => some q
  | .queuePushUnlock q => some q
  | .queuePopFront q => some q
  | .queuePopStoreLen q _ => some q
  | .queuePopUnlock q _ => some q
  | _ => none

/-- An operation that holds a lock is the one the lock names, and what it has
decided to move is there. -/
structure QueuesInv [DecidableEq κ] (queue : κ → QueueBatching τ α) (ops : τ → Op δ κ α) :
    Prop where
  holder : ∀ t q, (ops t).holds = some q → (queue q).locked = some t
  enough : ∀ t q, (ops t).holds = some q → (ops t).draining q ≤ (queue q).elements.length

/-- Only a holder drains. -/
theorem Op.holds_of_drains {o : Op δ κ α} {q : κ} {n : Nat} (h : o.drains = some (q, n)) :
    o.holds = some q := by
  cases o <;> simp only [Op.drains, Op.holds, reduceCtorEq, Option.some.injEq, Prod.mk.injEq] at *
  all_goals exact h.1

theorem Op.draining_eq_zero [DecidableEq κ] {o : Op δ κ α} {q : κ} (h : o.holds ≠ some q) :
    o.draining q = 0 := by
  unfold Op.draining
  split
  · rename_i q' n hd
    rw [Op.holds_of_drains hd] at h
    exact if_neg fun heq => h (by rw [heq])
  · rfl

section Steps

variable [DecidableEq δ] [DecidableEq κ] [DecidableEq τ] {ops : τ → Op δ κ α} {t : τ}
  {m m' : Queues δ κ τ α} {o : Op δ κ α} {spurious : Bool} {i : QInstr δ κ α (Op δ κ α)}

/-- The batching queue an access may change, unless it only tries its lock. -/
def QInstr.guards {β : Type} : QInstr δ κ α β → Option κ
  | .guardLen q _ => some q
  | .pushBack q _ _ => some q
  | .popFront q _ => some q
  | .drainFront q _ => some q
  | .truncate q _ _ => some q
  | .storeLen q _ => some q
  | .unlock q _ => some q
  | _ => none

omit [DecidableEq τ] in
/-- An access leaves a queue alone that somebody else has locked. -/
theorem QInstr.exec_queue_of_locked {β : Type} {i : QInstr δ κ α β} {b : β}
    (hx : i.exec t m = some (m', b)) {q : κ} (hq : i.guards ≠ some q) {u : τ}
    (hlocked : (m.queue q).locked = some u) : m'.queue q = m.queue q := by
  have hset : ∀ q' c, q' ≠ q → (m.setQueue q' c).queue q = m.queue q :=
    fun q' c hne => Function.update_of_ne hne.symm ..
  have hlock : ∀ q', (m.queue q').locked = none → q' ≠ q := by
    rintro q' hnone rfl
    rw [hlocked] at hnone
    cases hnone
  cases i <;> simp only [QInstr.exec] at hx <;> (try split at hx) <;> cases hx <;>
    first
      | rfl
      | exact hset _ _ (hlock _ (by assumption))
      | exact hset _ _ fun heq => hq (congrArg some heq)

omit [DecidableEq δ] [DecidableEq κ] in
/-- An operation changes only a queue it holds. -/
theorem Op.holds_of_guards {o : Op δ κ α} (hi : o.instr spurious = some i) {q : κ}
    (hq : i.guards = some q) : o.holds = some q := by
  cases o <;> simp only [Op.instr] at hi <;> (try split at hi) <;> cases hi <;> first
    | exact hq
    | cases hq

omit [DecidableEq τ] in
/-- A step leaves a queue alone that another thread has locked. -/
theorem QueuesInv.tick_queue (h : QueuesInv m.queue ops)
    (hi : (ops t).instr spurious = some i) (hx : i.exec t m = some (m', o)) {u : τ}
    (hu : u ≠ t) {q : κ} (hlocked : (m.queue q).locked = some u) : m'.queue q = m.queue q := by
  refine i.exec_queue_of_locked hx (fun hq => hu ?_) hlocked
  have := h.holder t q (Op.holds_of_guards hi hq)
  rw [hlocked] at this
  exact Option.some.inj this

omit [DecidableEq τ] in
/-- After a step the thread's operation still names the lock it holds, and what
it has decided to move is there. -/
theorem QueuesInv.tick_self (h : QueuesInv m.queue ops)
    (hi : (ops t).instr spurious = some i) (hx : i.exec t m = some (m', o)) {q : κ}
    (hq : o.holds = some q) :
    (m'.queue q).locked = some t ∧ o.draining q ≤ (m'.queue q).elements.length := by
  have hold := h.holder t
  have hen := h.enough t
  cases hop : ops t <;> rw [hop] at hi hold hen <;> simp only [Op.instr] at hi
  case drainFront d src moved offset c =>
    cases hi
    simp only [QInstr.exec] at hx
    split at hx <;> cases hx
    cases hq
    rename_i v rest hel
    have := hen q rfl
    simp only [Op.draining, Op.drains, if_pos, hel, List.length_cons] at this
    simp only [Queues.setQueue, Function.update_self, Op.draining, Op.drains, if_pos]
    exact ⟨hold q rfl, by omega⟩
  case drainWrite d src moved offset c val =>
    cases hi
    cases hx
    unfold Op.drainLoop at hq ⊢
    split at hq <;> cases hq
    · rename_i hlt
      have := hen q rfl
      simp only [Op.draining, Op.drains, if_pos] at this
      simp only [if_pos hlt, Op.draining, Op.drains, if_pos]
      exact ⟨hold q rfl, this⟩
    · rename_i hlt
      simp only [if_neg hlt]
      exact ⟨hold q rfl, Nat.zero_le _⟩
  case drainAmount d src take c =>
    cases hi
    cases hx
    unfold Op.drainLoop at hq ⊢
    dsimp only at hq ⊢
    split at hq <;> cases hq
    · rename_i hlt
      simp only [if_pos hlt, Op.draining, Op.drains, if_pos]
      exact ⟨hold q rfl, by omega⟩
    · rename_i hlt
      simp only [if_neg hlt]
      exact ⟨hold q rfl, Nat.zero_le _⟩
  case drainLock | queuePushLock | queuePopLock =>
    cases hi
    simp only [QInstr.exec] at hx
    split at hx <;> cases hx
    cases hq
    exact ⟨by simp [Queues.setQueue], Nat.zero_le _⟩
  case queueTryPopLock q' =>
    cases hi
    simp only [QInstr.exec] at hx
    split at hx <;> cases hx
    · cases hq
      exact ⟨by simp [Queues.setQueue], Nat.zero_le _⟩
    · cases hq
  case drainStoreLen | queuePushBack | queuePushStoreLen | queuePopFront | queuePopStoreLen =>
    cases hi
    cases hx
    cases hq
    exact ⟨by simpa [Queues.setQueue] using hold q rfl, Nat.zero_le _⟩
  case cursorStolen d k tail blocked =>
    cases hi
    cases hx
    cases k <;> simp only [Op.afterCursorData, Op.popLoop] at hq <;> (try split at hq) <;> cases hq
  all_goals
    (try split at hi) <;> cases hi <;> simp only [QInstr.exec] at hx <;> (try split at hx) <;>
      cases hx <;> (try simp only [Op.popLoop, Op.stealLoop] at hq) <;> (try split at hq) <;>
      cases hq

/-- The lock discipline after a step. -/
theorem QueuesInv.tick (h : QueuesInv m.queue ops)
    (hi : (ops t).instr spurious = some i) (hx : i.exec t m = some (m', o)) :
    QueuesInv m'.queue (Function.update ops t o) := by
  have hother : ∀ u q, u ≠ t → (ops u).holds = some q → m'.queue q = m.queue q :=
    fun u q hu hq => h.tick_queue hi hx hu (h.holder u q hq)
  constructor <;> intro u q hq <;> by_cases hu : u = t
  · subst hu
    simp only [Function.update_self] at hq
    exact (h.tick_self hi hx hq).1
  · simp only [Function.update_of_ne hu] at hq
    rw [hother u q hu hq]
    exact h.holder u q hq
  · subst hu
    simp only [Function.update_self] at hq ⊢
    exact (h.tick_self hi hx hq).2
  · simp only [Function.update_of_ne hu] at hq ⊢
    rw [hother u q hu hq]
    exact h.enough u q hq

omit [DecidableEq δ] in
/-- Changing an operation into one that holds nothing keeps the discipline. -/
theorem QueuesInv.update {queue : κ → QueueBatching τ α} (h : QueuesInv queue ops)
    (ho : o.holds = none) : QueuesInv queue (Function.update ops t o) := by
  constructor <;> intro u q hq <;> by_cases hu : u = t
  · subst hu
    simp [ho] at hq
  · exact h.holder u q (by simpa [hu] using hq)
  · subst hu
    simp [ho] at hq
  · simpa [hu] using h.enough u q (by simpa [hu] using hq)

omit [DecidableEq δ] [DecidableEq τ] in
/-- The queues may change outside of the operations, if those that an operation has
locked stay locked and lose nothing. -/
theorem QueuesInv.change {queue queue' : κ → QueueBatching τ α} (h : QueuesInv queue ops)
    (hkeep : ∀ u q, (ops u).holds = some q → (queue' q).locked = (queue q).locked ∧
      (queue q).elements.length ≤ (queue' q).elements.length) : QueuesInv queue' ops :=
  ⟨fun u q hq => (hkeep u q hq).1.trans (h.holder u q hq),
    fun u q hq => (h.enough u q hq).trans (hkeep u q hq).2⟩

omit [DecidableEq δ] [DecidableEq κ] in
/-- A call starts without a lock. -/
theorem Op.holds_start (c : QueueCall δ κ α) : (Op.start c).holds = none := by
  cases c <;> rfl

omit [DecidableEq δ] [DecidableEq κ] in
/-- A call starts without a queue to drain. -/
theorem Op.drains_start (c : QueueCall δ κ α) : (Op.start c).drains = none := by
  cases c <;> rfl

/-! ## Cells a step leaves alone -/

omit [DecidableEq τ] in
/-- An access changes no cell but the one it writes or reads out. -/
theorem QInstr.exec_cellAt {β : Type} {i : QInstr δ κ α β} {b : β}
    (hx : i.exec t m = some (m', b)) {d : δ} {cursor : UInt32}
    (hw : ∀ c, i.slotWritten = some (d, c) →
      (m.deque d).buffer.maskSlot cursor ≠ (m.deque d).buffer.maskSlot c)
    (hr : ∀ c, i.slotRead = some (d, c) →
      (m.deque d).buffer.maskSlot cursor ≠ (m.deque d).buffer.maskSlot c) :
    (m'.deque d).buffer.cellAt cursor = (m.deque d).buffer.cellAt cursor := by
  have hset : ∀ e q, (d = e → q.buffer.cellAt cursor = (m.deque e).buffer.cellAt cursor) →
      ((m.setDeque e q).deque d).buffer.cellAt cursor = (m.deque d).buffer.cellAt cursor := by
    intro e q hq
    by_cases hd : d = e
    · subst hd
      simpa [Queues.setDeque] using hq rfl
    · simp [Queues.setDeque, hd]
  cases i
  case slotWrite e c val k =>
    cases hx
    refine hset e _ fun hd => ?_
    subst hd
    rw [FixedRingBuffer.cellAt_write, if_neg (hw c rfl)]
  case slotTake e c k =>
    simp only [QInstr.exec] at hx
    split at hx <;> cases hx
    refine hset e _ fun hd => ?_
    subst hd
    rw [FixedRingBuffer.cellAt_clearAt, if_neg (hr c rfl)]
  all_goals
    simp only [QInstr.exec] at hx
    (try split at hx) <;> cases hx <;> first | rfl | exact hset _ _ fun _ => rfl

section Ring

variable {r : Ring τ α} {d : δ}

omit [DecidableEq τ] [DecidableEq κ] in
/-- A slot about to be written is held by the thread that writes it. -/
theorem Op.Writes.holds (h : DequesInv m.deque ops)
    (hm : Models (m.deque d) (fun x => (ops x).claimAt d) (fun x => (ops x).ownAt d) r)
    {c : UInt32} (hw : (ops t).Writes d c) : ∃ j, c = UInt32.ofNat j ∧ r.Holds t j := by
  obtain ⟨tail, room, filled, hown, hlt, rfl⟩ := hw.cases (h.localOk t)
  obtain ⟨hg, rfl⟩ := hm.hold_staged hown
  exact ⟨r.tail + filled, (UInt32.ofNat_add ..).symm,
    .inr ⟨_, hg, Nat.le_add_right .., Nat.add_lt_add_left hlt _⟩⟩

omit [DecidableEq τ] [DecidableEq κ] in
/-- A slot about to be read out is held by the thread that reads it. -/
theorem Op.Reads.holds (h : DequesInv m.deque ops)
    (hm : Models (m.deque d) (fun x => (ops x).claimAt d) (fun x => (ops x).ownAt d) r)
    {c : UInt32} (hread : (ops t).Reads d c) : ∃ j, c = UInt32.ofNat j ∧ r.Holds t j := by
  rcases hread.cases with hown | ⟨dst, amount, offset, dc, start, hop, rfl⟩
  · obtain ⟨hg, rfl⟩ := hm.hold_popped hown
    exact ⟨r.tail, rfl, .inr ⟨_, hg, Nat.le_refl _, Nat.lt_succ_self _⟩⟩
  · have hlt : offset < amount := by
      have := h.localOk t
      rwa [hop] at this
    obtain ⟨c, hc, hs, hlen, htaken⟩ := hm.exists_claim (x := t)
      (c := ⟨start, amount, offset⟩) (by simp [hop, Op.claimAt])
    simp only at hs hlen htaken
    subst hs
    exact ⟨c.start + offset, (UInt32.ofNat_add ..).symm, .inl ⟨c, hc, by omega, by omega⟩⟩

omit [DecidableEq τ] in
/-- A step leaves every slot alone that its thread does not hold. -/
theorem DequesInv.tick_cellAt (h : DequesInv m.deque ops)
    (hi : (ops t).instr spurious = some i) (hx : i.exec t m = some (m', o)) (hr : r.Inv)
    (hm : Models (m.deque d) (fun x => (ops x).claimAt d) (fun x => (ops x).ownAt d) r)
    {j : Nat} (hj : r.stolen ≤ j) (hj' : j < r.stolen + r.cap) (hfree : ¬ r.Holds t j) :
    (m'.deque d).buffer.cellAt (UInt32.ofNat j) = (m.deque d).buffer.cellAt (UInt32.ofNat j) := by
  have hne : ∀ c, (∃ k, c = UInt32.ofNat k ∧ r.Holds t k) →
      (m.deque d).buffer.maskSlot (UInt32.ofNat j) ≠ (m.deque d).buffer.maskSlot c := by
    rintro c ⟨k, rfl, hk⟩ hmod
    rw [FixedRingBuffer.maskSlot_ofNat, FixedRingBuffer.maskSlot_ofNat, hm.cap] at hmod
    have hwin := hr.holds_window hk
    obtain rfl := window_mod_inj hj hj' hwin.1 hwin.2.1 hmod
    exact hfree hk
  exact i.exec_cellAt hx (fun c hc => hne c (Op.Writes.holds h hm ⟨spurious, i, hi, hc⟩))
    fun c hc => hne c (Op.Reads.holds h hm ⟨spurious, i, hi, hc⟩)

omit [DecidableEq τ] [DecidableEq κ] in
/-- The unread part of a claim lies before the blocked cursor, and is full. -/
theorem Models.claim_stretch
    (hm : Models (m.deque d) (fun x => (ops x).claimAt d) (fun x => (ops x).ownAt d) r)
    (hr : r.Inv) {start : UInt32} {amount taken : Nat}
    (hclaim : (ops t).claimAt d = some ⟨start, amount, taken⟩) :
    ∃ j, start + UInt32.ofNat taken = UInt32.ofNat j ∧ r.stolen ≤ j ∧
      j + (amount - taken) ≤ r.blocked ∧
      ∀ k, k < amount - taken → r.Holds t (j + k) ∧ (r.slot (j + k)).isSome := by
  obtain ⟨c, hc, hs, hlen, htaken⟩ := hm.exists_claim (x := t) hclaim
  simp only at hs hlen htaken
  subst hs hlen htaken
  have hrange := hr.claim_range t c hc
  refine ⟨c.start + c.taken, (UInt32.ofNat_add ..).symm, by omega, by omega, fun k hk => ⟨?_, ?_⟩⟩
  · exact .inl ⟨c, hc, by omega, by omega⟩
  · exact hr.claim_live t c _ hc (by omega) (by omega)

omit [DecidableEq δ] [DecidableEq τ] [DecidableEq κ] in
/-- Two positions of the window fall on different slots. -/
theorem Models.maskSlot_ne {q : WorkerQueue α} {claims : τ → Option ClaimView}
    {owns : τ → Option OwnView} (hm : Models q claims owns r) {j k : Nat} (hjk : j ≠ k)
    (hj : r.stolen ≤ j ∧ j < r.stolen + r.cap) (hk : r.stolen ≤ k ∧ k < r.stolen + r.cap) :
    q.buffer.maskSlot (UInt32.ofNat j) ≠ q.buffer.maskSlot (UInt32.ofNat k) := by
  rw [FixedRingBuffer.maskSlot_ofNat, FixedRingBuffer.maskSlot_ofNat, hm.cap]
  exact fun h => hjk (window_mod_inj hj.1 hj.2 hk.1 hk.2 h)

omit [DecidableEq τ] [DecidableEq κ] in
/-- The stretches of slots in an operation's hands are held by its thread, and
full. -/
theorem Models.stretch_holds
    (hm : Models (m.deque d) (fun x => (ops x).claimAt d) (fun x => (ops x).ownAt d) r)
    (hr : r.Inv) {c : UInt32} {n : Nat} (hs : (ops t).staged = some (d, c, n) ∨ (ops t).won = some (d, c, n)) :
    ∃ j, c = UInt32.ofNat j ∧ ∀ k, k < n → r.Holds t (j + k) ∧ (r.slot (j + k)).isSome := by
  have hstaged : ∀ tail room filled, (ops t).ownAt d = some (.staged tail room filled) →
      ∃ j, tail = UInt32.ofNat j ∧
        ∀ k, k < filled → r.Holds t (j + k) ∧ (r.slot (j + k)).isSome := by
    intro tail room filled hown
    obtain ⟨hg, rfl⟩ := hm.hold_staged hown
    obtain ⟨hfits, -⟩ := hr.own_room t _ hg
    simp only [Hold.Fits] at hfits
    refine ⟨r.tail, rfl, fun k hk => ⟨.inr ⟨_, hg, by omega, ?_⟩, hr.own_live t _ k hg hk⟩⟩
    simp only [Hold.extent]
    omega
  rcases hs with hs | hs
  · cases hop : ops t <;> rw [hop] at hs hstaged <;> simp only [Op.staged, reduceCtorEq] at hs <;>
      cases hs <;> exact hstaged _ _ _ (if_pos rfl)
  · cases hop : ops t <;> simp only [hop, Op.won, reduceCtorEq] at hs <;> cases hs
    case inr.popTake.refl =>
      have hown : (ops t).ownAt d = some (.popped c) := by simp [hop, Op.ownAt]
      obtain ⟨hg, rfl⟩ := hm.hold_popped hown
      refine ⟨r.tail, rfl, fun k hk => ?_⟩
      obtain rfl : k = 0 := by omega
      exact ⟨.inr ⟨_, hg, by omega, by simp [Hold.extent]⟩, hr.own_live t _ 0 hg rfl⟩
    all_goals
      obtain ⟨j, hj, -, -, hheld⟩ := hm.claim_stretch (t := t) hr (by rw [hop]; exact if_pos rfl)
      exact ⟨j, hj, hheld⟩

end Ring

omit [DecidableEq τ] in
/-- No step changes the hands of another thread. -/
theorem DequesInv.hands_frame (h : DequesInv m.deque ops) (hq : QueuesInv m.queue ops)
    (hi : (ops t).instr spurious = some i) (hx : i.exec t m = some (m', o)) {u : τ}
    (hu : u ≠ t) : (ops u).hands m' = (ops u).hands m := by
  have hstretch : ∀ p, (ops u).staged = p ∨ (ops u).won = p → m'.stretch p = m.stretch p := by
    rintro (_ | ⟨d, c, n⟩) hp
    · rfl
    · obtain ⟨r, hr, hm⟩ := h.ring d
      obtain ⟨j, rfl, hheld⟩ := hm.stretch_holds hr hp
      refine WorkerQueue.valuesAt_congr fun k hk => ?_
      have hwin := hr.holds_window (hheld k hk).1
      exact h.tick_cellAt hi hx hr hm hwin.1 hwin.2.1
        fun hk' => hr.holds_disjoint hu (hheld k hk).1 hk' rfl
  have hfront : m'.front (ops u).drains = m.front (ops u).drains := by
    cases hd : (ops u).drains with
    | none => rfl
    | some p =>
        obtain ⟨q, n⟩ := p
        simp only [Queues.front]
        rw [hq.tick_queue hi hx hu (hq.holder u q (Op.holds_of_drains hd))]
  rw [Op.hands, Op.hands, hstretch _ (.inl rfl), hstretch _ (.inr rfl), hfront]

omit [DecidableEq τ] in
/-- A step that moves no cursor of a deque leaves its unclaimed elements alone. -/
theorem DequesInv.tick_unclaimed (h : DequesInv m.deque ops)
    (hi : (ops t).instr spurious = some i) (hx : i.exec t m = some (m', o)) {d : δ}
    (hanchor : (m'.deque d).anchor = (m.deque d).anchor) :
    (m'.deque d).unclaimed = (m.deque d).unclaimed := by
  obtain ⟨r, hr, hm⟩ := h.ring d
  have hcap := hm.cap_lt
  have hsb := hr.stolen_le
  have hbt := hr.blocked_le
  have htl := hr.tail_le
  rw [WorkerQueue.unclaimed_eq, WorkerQueue.unclaimed_eq, hanchor, hm.unpack_anchor]
  dsimp only
  rw [toNat_ofNat_sub hbt (by omega)]
  refine WorkerQueue.valuesAt_congr fun k hk => ?_
  refine h.tick_cellAt hi hx hr hm (by omega) (by omega) fun hheld => ?_
  have := (hr.holds_window hheld).2.2
  omega

/-! ## A step's own hands -/

omit [DecidableEq τ] [DecidableEq κ] in
/-- Writing the next reserved slot adds one element to the staged stretch, and
disturbs no claim of the same thread. -/
theorem DequesInv.fill_stretch (h : DequesInv m.deque ops) {d : δ} {tail : UInt32}
    {room filled : Nat} (hown : (ops t).ownAt d = some (.staged tail room filled))
    (hlt : filled < room) (val : α)
    (hm' : m' = m.setDeque d { m.deque d with
      buffer := (m.deque d).buffer.write (tail + UInt32.ofNat filled) val }) :
    (m'.deque d).valuesAt tail (filled + 1) = (m.deque d).valuesAt tail filled ++ [val] ∧
      ∀ e start amount taken, (ops t).claimAt e = some ⟨start, amount, taken⟩ →
        (m'.deque e).valuesAt (start + UInt32.ofNat taken) (amount - taken) =
          (m.deque e).valuesAt (start + UInt32.ofNat taken) (amount - taken) := by
  obtain ⟨r, hr, hm⟩ := h.ring d
  obtain ⟨hg, rfl⟩ := hm.hold_staged hown
  obtain ⟨hfits, hroom⟩ := hr.own_room t _ hg
  simp only [Hold.extent, Hold.Fits] at hroom hfits
  have hsb := hr.stolen_le
  have hbt := hr.blocked_le
  have hcell : ∀ j, r.stolen ≤ j ∧ j < r.stolen + r.cap → j ≠ r.tail + filled →
      (m'.deque d).buffer.cellAt (UInt32.ofNat j) =
        (m.deque d).buffer.cellAt (UInt32.ofNat j) := by
    intro j hj hne
    subst hm'
    simp only [Queues.setDeque, Function.update_self]
    rw [FixedRingBuffer.cellAt_write, if_neg]
    rw [← UInt32.ofNat_add]
    exact hm.maskSlot_ne hne hj ⟨by omega, by omega⟩
  constructor
  · have hlast : (m'.deque d).buffer.cellAt (UInt32.ofNat r.tail + UInt32.ofNat filled) =
        some val := by
      subst hm'
      simp [Queues.setDeque, FixedRingBuffer.cellAt_write]
    rw [WorkerQueue.valuesAt_succ, hlast]
    congr 1
    exact WorkerQueue.valuesAt_congr fun k hk => hcell _ ⟨by omega, by omega⟩ (by omega)
  · intro e start amount taken hclaim
    by_cases he : e = d
    · subst he
      obtain ⟨j, hj, hle, hbound, -⟩ := hm.claim_stretch hr hclaim
      rw [hj]
      exact WorkerQueue.valuesAt_congr fun k hk => hcell _ ⟨by omega, by omega⟩ (by omega)
    · subst hm'
      simp [Queues.setDeque, he]

omit [DecidableEq τ] [DecidableEq κ] in
/-- Reading the next claimed slot moves its element into the thief's hand, and
disturbs nothing the thief has staged. -/
theorem DequesInv.take_stretch (h : DequesInv m.deque ops) {d : δ} {start : UInt32}
    {amount taken : Nat} {val : α} (hclaim : (ops t).claimAt d = some ⟨start, amount, taken⟩)
    (hlt : taken < amount)
    (hval : (m.deque d).buffer.cellAt (start + UInt32.ofNat taken) = some val)
    (hm' : m' = m.setDeque d { m.deque d with
      buffer := (m.deque d).buffer.clearAt (start + UInt32.ofNat taken) }) :
    (m.deque d).valuesAt (start + UInt32.ofNat taken) (amount - taken) =
        val :: (m'.deque d).valuesAt (start + UInt32.ofNat (taken + 1)) (amount - (taken + 1)) ∧
      ∀ e tail room filled, (ops t).ownAt e = some (.staged tail room filled) →
        (m'.deque e).valuesAt tail filled = (m.deque e).valuesAt tail filled := by
  obtain ⟨r, hr, hm⟩ := h.ring d
  obtain ⟨j, hj, hle, hbound, -⟩ := hm.claim_stretch hr hclaim
  have hbt := hr.blocked_le
  have htl := hr.tail_le
  have hcell : ∀ k, r.stolen ≤ k ∧ k < r.stolen + r.cap → k ≠ j →
      (m'.deque d).buffer.cellAt (UInt32.ofNat k) =
        (m.deque d).buffer.cellAt (UInt32.ofNat k) := by
    intro k hk hne
    subst hm'
    simp only [Queues.setDeque, Function.update_self]
    rw [FixedRingBuffer.cellAt_clearAt, if_neg]
    rw [hj]
    exact hm.maskSlot_ne hne hk ⟨hle, by omega⟩
  constructor
  · have hsplit : amount - taken = (amount - (taken + 1)) + 1 := by omega
    have hnext : start + UInt32.ofNat (taken + 1) = UInt32.ofNat (j + 1) := by
      rw [UInt32.ofNat_add, UInt32.ofNat_add, ← UInt32.add_assoc, hj]
    rw [hsplit, WorkerQueue.valuesAt_succ', hval, hnext, hj,
      show UInt32.ofNat j + 1 = UInt32.ofNat (j + 1) from (UInt32.ofNat_add ..).symm]
    have hrest : (m.deque d).valuesAt (UInt32.ofNat (j + 1)) (amount - (taken + 1)) =
        (m'.deque d).valuesAt (UInt32.ofNat (j + 1)) (amount - (taken + 1)) :=
      WorkerQueue.valuesAt_congr fun k hk => (hcell _ ⟨by omega, by omega⟩ (by omega)).symm
    rw [hrest]
    rfl
  · intro e tail room filled hown
    by_cases he : e = d
    · subst he
      obtain ⟨hg, rfl⟩ := hm.hold_staged hown
      obtain ⟨hfits, hroom⟩ := hr.own_room t _ hg
      simp only [Hold.extent, Hold.Fits] at hroom hfits
      have hsb := hr.stolen_le
      exact WorkerQueue.valuesAt_congr fun k hk => hcell _ ⟨by omega, by omega⟩ (by omega)
    · subst hm'
      simp [Queues.setDeque, he]

end Steps

end XynokConcurrency
