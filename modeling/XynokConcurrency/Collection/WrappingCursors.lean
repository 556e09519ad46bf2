import XynokConcurrency.Lib.ClaimRing
import XynokConcurrency.ThreadPool.WorkerQueue
import XynokConcurrency.Collection.SpmcRingBufferFifo

/-!
# Wrapping cursors compute like unbounded ones

Both rings keep 32-bit cursors that wrap.  Here the cursors are the reductions of
positions that never wrap, in the order stolen, blocked, tail and within one capacity of
each other; every count, every slot and every cursor update of the two rings is then the
one that the positions would give.

Main results:

- Structure {lit}`Positions`: unbounded cursors, in order.
- Structures {lit}`WorkerQueue.Commutes` and {lit}`SpmcRingBufferFifo.Commutes`: the
  cursor updates of a ring carry the reductions of some positions to the reductions of
  the updated positions.
- Theorem {lit}`wrapping_cursors_commute`: counts, slots, the packed addition and the
  cursor updates of both rings commute with the reduction.
-/

namespace XynokConcurrency

/-! ## Unbounded cursors -/

/-- Cursors that never wrap.  They are ordered and within one capacity of each other, so
cursors of no ring cannot be built. -/
structure Positions (cap : Nat) where
  stolen : Nat
  blocked : Nat
  tail : Nat
  stolen_le : stolen ≤ blocked
  blocked_le : blocked ≤ tail
  tail_le : tail ≤ stolen + cap

namespace Positions

variable {cap : Nat}

/-- The owner pushes {lit}`k` elements. -/
def push (p : Positions cap) (k : Nat) (h : p.tail + k ≤ p.stolen + cap) : Positions cap where
  stolen := p.stolen
  blocked := p.blocked
  tail := p.tail + k
  stolen_le := p.stolen_le
  blocked_le := p.blocked_le.trans (Nat.le_add_right ..)
  tail_le := h

/-- The owner pops the newest element. -/
def pop (p : Positions cap) (h : p.blocked < p.tail) : Positions cap where
  stolen := p.stolen
  blocked := p.blocked
  tail := p.tail - 1
  stolen_le := p.stolen_le
  blocked_le := Nat.le_sub_one_of_lt h
  tail_le := (Nat.sub_le ..).trans p.tail_le

/-- A consumer claims the {lit}`n` oldest elements. -/
def claim (p : Positions cap) (n : Nat) (h : p.blocked + n ≤ p.tail) : Positions cap where
  stolen := p.stolen
  blocked := p.blocked + n
  tail := p.tail
  stolen_le := p.stolen_le.trans (Nat.le_add_right ..)
  blocked_le := h
  tail_le := p.tail_le

/-- The oldest {lit}`n` claimed slots are given back. -/
def publish (p : Positions cap) (n : Nat) (h : p.stolen + n ≤ p.blocked) : Positions cap where
  stolen := p.stolen + n
  blocked := p.blocked
  tail := p.tail
  stolen_le := h
  blocked_le := p.blocked_le
  tail_le := by
    have := p.tail_le
    omega

/-- The snapshot the code takes of a ring at these positions. -/
def cursors (p : Positions cap) : CursorData where
  stolen := UInt32.ofNat p.stolen
  blocked := UInt32.ofNat p.blocked
  tail := UInt32.ofNat p.tail
  capacity := UInt32.ofNat cap
  mask := UInt32.ofNat (cap - 1)

/-- The word that packs the tail over blocked. -/
def anchor (p : Positions cap) : UInt64 :=
  pack (UInt32.ofNat p.tail) (UInt32.ofNat p.blocked)

/-- The word that packs stolen over blocked. -/
def head (p : Positions cap) : UInt64 :=
  pack (UInt32.ofNat p.stolen) (UInt32.ofNat p.blocked)

/-- Free slots are the capacity less the occupied ones. -/
theorem emptySlots_cursors (p : Positions cap) (h : acceptsCapacity cap) :
    p.cursors.emptySlots = cap - (p.tail - p.stolen) := by
  have hlt : cap < 2 ^ 31 := h.2.1
  exact CursorData.emptySlots_ofNat rfl (by omega) rfl rfl
    (p.stolen_le.trans p.blocked_le) p.tail_le

/-- Unclaimed elements lie between blocked and the tail. -/
theorem filledSlots_cursors (p : Positions cap) (h : acceptsCapacity cap) :
    p.cursors.filledSlots = p.tail - p.blocked := by
  have hlt : cap < 2 ^ 31 := h.2.1
  have hle := p.tail_le
  have hsb := p.stolen_le
  exact CursorData.filledSlots_ofNat rfl rfl p.blocked_le (by omega)

/-- Adding to the high half of the anchor moves the tail and nothing else. -/
theorem anchor_push (p : Positions cap) (k : Nat) (h : p.tail + k ≤ p.stolen + cap) :
    p.anchor + (UInt64.ofNat k <<< 32) = (p.push k h).anchor := by
  rw [anchor, pack_add_ofNat, ← UInt32.ofNat_add]
  rfl

end Positions

/-- A mask plus one is the capacity, as the code computes it. -/
theorem FixedRingBuffer.mask_add_one {α : Type} (b : FixedRingBuffer α) :
    b.mask + 1 = UInt32.ofNat b.capacity := by
  rw [capacity, UInt32.ofNat_add, UInt32.ofNat_toNat]
  rfl

/-- The mask is the capacity less one. -/
theorem FixedRingBuffer.mask_eq {α : Type} (b : FixedRingBuffer α) :
    b.mask = UInt32.ofNat (b.capacity - 1) := by
  rw [capacity, Nat.add_sub_cancel, UInt32.ofNat_toNat]

/-! ## The worker deque -/

section Deque

variable {δ κ τ α : Type} {cap : Nat}

/-- The cursors of a deque are the reductions of some positions. -/
structure WorkerQueue.ReducesTo (q : WorkerQueue α) (p : Positions cap) : Prop where
  capacity : q.buffer.capacity = cap
  anchor : q.anchor = p.anchor
  stolen : q.stolen = UInt32.ofNat p.stolen

variable [DecidableEq δ] [DecidableEq κ]

/-- The next access of an operation succeeds, leads to another program point, and takes
the cursors of a deque from the reductions of {lit}`p` to those of {lit}`p'`. -/
def Op.Updates (τ : Type) (o : Op δ κ α) (d : δ) (p p' : Positions cap) (o' : Op δ κ α) : Prop :=
  ∀ (t : τ) (m : Queues δ κ τ α), (m.deque d).ReducesTo p →
    ∃ i m', o.instr false = some i ∧ i.exec t m = some (m', o') ∧ (m'.deque d).ReducesTo p'

/-- The cursor accesses of the deque operations do to the reductions what they would do to
the positions.  A compare-exchange is that of a snapshot that is still current; the stolen
cursor of the snapshot may be older. -/
structure WorkerQueue.Commutes (δ κ τ α : Type) [DecidableEq δ] [DecidableEq κ]
    (p : Positions cap) : Prop where
  snapshot : ∀ d (k : Next δ κ α),
    Op.Updates τ (.cursorAnchor d k) d p p
        (.cursorStolen d k (UInt32.ofNat p.tail) (UInt32.ofNat p.blocked)) ∧
      Op.Updates τ (.cursorStolen d k (UInt32.ofNat p.tail) (UInt32.ofNat p.blocked)) d p p
        (Op.afterCursorData d p.cursors k)
  push : ∀ d c h, Op.Updates τ (.pushAdd d c : Op δ κ α) d p (p.push 1 h) (.done .pushed)
  refill : ∀ d c k h,
    Op.Updates τ (.refillAdd d k c : Op δ κ α) d p (p.push k h) (.done (.moved k))
  receive : ∀ d c k h,
    Op.Updates τ (.stealAdd d k c : Op δ κ α) d p (p.push k h) (.done (.stole (.success k)))
  pop : ∀ d c h, c.tail = UInt32.ofNat p.tail → c.blocked = UInt32.ofNat p.blocked →
    Op.Updates τ (.popCas d c : Op δ κ α) d p (p.pop h)
      (.popTake d (UInt32.ofNat (p.tail - 1)))
  claim : ∀ d dst dc c n h, c.tail = UInt32.ofNat p.tail → c.blocked = UInt32.ofNat p.blocked →
    Op.Updates τ (.stealCas d dst n dc c : Op δ κ α) d p (p.claim n h)
      (Op.stealLoop d dst n 0 dc (UInt32.ofNat p.blocked))
  publish : ∀ d dst dc n h,
    Op.Updates τ (.publishCas d dst n dc (UInt32.ofNat p.stolen) : Op δ κ α) d p (p.publish n h)
      (.stealAdd dst n dc)

/-- The snapshot of a deque is that of its positions. -/
theorem WorkerQueue.ReducesTo.snapshot {q : WorkerQueue α} {p : Positions cap}
    (h : q.ReducesTo p) :
    (⟨q.stolen, UInt32.ofNat p.blocked, UInt32.ofNat p.tail, q.buffer.mask + 1,
      q.buffer.mask⟩ : CursorData) = p.cursors := by
  rw [q.buffer.mask_add_one, q.buffer.mask_eq, h.capacity, h.stolen]
  rfl

/-- Taking a snapshot changes no cursor. -/
theorem Op.updates_snapshot (p : Positions cap) (d : δ) (k : Next δ κ α) :
    Op.Updates τ (.cursorAnchor d k) d p p
        (.cursorStolen d k (UInt32.ofNat p.tail) (UInt32.ofNat p.blocked)) ∧
      Op.Updates τ (.cursorStolen d k (UInt32.ofNat p.tail) (UInt32.ofNat p.blocked)) d p p
        (Op.afterCursorData d p.cursors k) := by
  constructor
  · intro t m hq
    refine ⟨_, m, rfl, ?_, hq⟩
    simp only [QInstr.exec, hq.anchor, Positions.anchor, unpack_pack]
  · intro t m hq
    refine ⟨_, m, rfl, ?_, hq⟩
    simp only [QInstr.exec, hq.snapshot]

/-- An access that adds to the anchor pushes. -/
theorem Op.updates_add {o o' : Op δ κ α} {d : δ} {k : Nat} (p : Positions cap)
    (h : p.tail + k ≤ p.stolen + cap) (hi : o.instr false = some (.anchorAdd d k o')) :
    Op.Updates τ o d p (p.push k h) o' := by
  intro t m hq
  refine ⟨_, _, hi, rfl, ?_⟩
  constructor
  · simpa [Queues.setDeque] using hq.capacity
  · simpa [Queues.setDeque, hq.anchor] using p.anchor_push k h
  · simpa [Queues.setDeque, Positions.push] using hq.stolen

/-- A compare-exchange of the anchor that expects its value succeeds. -/
theorem Op.updates_cas {o o' : Op δ κ α} {d : δ} {current next : UInt64}
    {err : UInt64 → Op δ κ α} {p p' : Positions cap}
    (hi : o.instr false = some (.anchorCas d current next o' err)) (hcurrent : current = p.anchor)
    (hnext : next = p'.anchor) (hstolen : p'.stolen = p.stolen) :
    Op.Updates τ o d p p' o' := by
  intro t m hq
  refine ⟨_, _, hi, if_pos (hq.anchor.trans hcurrent.symm), ?_⟩
  constructor
  · simpa [Queues.setDeque] using hq.capacity
  · simpa [Queues.setDeque] using hnext
  · simpa [Queues.setDeque, hstolen] using hq.stolen

/-- Publishing a claim at the stolen cursor succeeds. -/
theorem Op.updates_publish (p : Positions cap) (d dst : δ) (dc : CursorData) (n : Nat)
    (h : p.stolen + n ≤ p.blocked) :
    Op.Updates τ (.publishCas d dst n dc (UInt32.ofNat p.stolen) : Op δ κ α) d p (p.publish n h)
      (.stealAdd dst n dc) := by
  intro t m hq
  refine ⟨_, _, rfl, if_pos hq.stolen, ?_⟩
  constructor
  · simpa [Queues.setDeque] using hq.capacity
  · simpa [Queues.setDeque, Positions.publish, Positions.anchor] using hq.anchor
  · simp [Queues.setDeque, Positions.publish, UInt32.ofNat_add]

/-- The cursor updates of a deque commute with the reduction. -/
theorem WorkerQueue.commutes (p : Positions cap) : WorkerQueue.Commutes δ κ τ α p where
  snapshot d k := Op.updates_snapshot p d k
  push d c h := Op.updates_add p h rfl
  refill d c k h := Op.updates_add p h rfl
  receive d c k h := Op.updates_add p h rfl
  pop d c h ht hb := by
    have htail : c.tail - 1 = UInt32.ofNat (p.tail - 1) := by
      rw [ht, ofNat_sub_one (Nat.zero_lt_of_lt h)]
    rw [← htail]
    refine Op.updates_cas rfl ?_ ?_ rfl
    · rw [ht, hb]
      rfl
    · rw [htail, hb]
      rfl
  claim d dst dc c n h ht hb := by
    rw [← hb]
    refine Op.updates_cas rfl ?_ ?_ rfl
    · rw [ht, hb]
      rfl
    · rw [ht, hb, ← UInt32.ofNat_add]
      rfl
  publish d dst dc n h := Op.updates_publish p d dst dc n h

end Deque

/-! ## The public ring -/

section Ring

variable {τ α : Type} {cap : Nat}

/-- The cursors of a ring are the reductions of some positions. -/
structure SpmcRingBufferFifo.ReducesTo (q : SpmcRingBufferFifo α) (p : Positions cap) : Prop where
  capacity : q.buffer.capacity = cap
  head : q.head = p.head
  tail : q.tail = UInt32.ofNat p.tail

namespace Spmc

variable [DecidableEq α]

/-- The next step of an operation is possible, leads to another program point, and takes
the cursors of the ring from the reductions of {lit}`p` to those of {lit}`p'`. -/
def Op.Updates (τ : Type) (ch : Choice α) (o : Op α) (p p' : Positions cap) (o' : Op α) : Prop :=
  ∀ (t : τ) (m : Mem α) (th : Thread α), m.ring.ReducesTo p → th.op = o →
    ∃ m' th', step t ch m th = some (m', th') ∧ m'.ring.ReducesTo p' ∧ th'.op = o'

end Spmc

/-- The cursor accesses of the ring operations do to the reductions what they would do to
the positions.  The compare-exchanges are those of a snapshot that is still current. -/
structure SpmcRingBufferFifo.Commutes (τ α : Type) [DecidableEq α] (p : Positions cap) :
    Prop where
  snapshot : ∀ (k : Spmc.Next α),
    Spmc.Op.Updates τ (.tick false) (.headLoad k) p p
        (.tailLoad k (UInt32.ofNat p.stolen) (UInt32.ofNat p.blocked)) ∧
      Spmc.Op.Updates τ (.tick false)
        (.tailLoad k (UInt32.ofNat p.stolen) (UInt32.ofNat p.blocked)) p p
        (Spmc.Op.afterCursorData p.cursors k)
  push : ∀ c k (r : Spmc.Res α) h, c.tail = UInt32.ofNat p.tail →
    Spmc.Op.Updates τ .commit (.tailStore c k r) p (p.push k h) (.done r)
  claim : ∀ c n (k : Spmc.Taking α) h,
    c.stolen = UInt32.ofNat p.stolen → c.blocked = UInt32.ofNat p.blocked →
      Spmc.Op.Updates τ .claim (.claimCas n k c) p (p.claim n h)
        (Spmc.Op.takeLoop n 0 (UInt32.ofNat p.blocked) k)
  publish : ∀ n (k : Spmc.Taking α) h,
    Spmc.Op.Updates τ .publish (.publishCas n (UInt32.ofNat p.stolen) k p.head) p (p.publish n h)
      (.done (k.result n))

namespace Spmc

variable [DecidableEq α]

/-- Taking a snapshot changes no cursor. -/
theorem Op.updates_snapshot (p : Positions cap) (k : Next α) :
    Op.Updates τ (.tick false) (.headLoad k) p p
        (.tailLoad k (UInt32.ofNat p.stolen) (UInt32.ofNat p.blocked)) ∧
      Op.Updates τ (.tick false) (.tailLoad k (UInt32.ofNat p.stolen) (UInt32.ofNat p.blocked))
        p p (Op.afterCursorData p.cursors k) := by
  constructor
  · rintro t m ⟨o, since⟩ hq rfl
    refine ⟨m, _, rfl, hq, ?_⟩
    simp only [hq.head, Positions.head, unpack_pack]
  · rintro t m ⟨o, since⟩ hq rfl
    refine ⟨m, _, rfl, hq, ?_⟩
    dsimp only
    rw [m.ring.buffer.mask_add_one, m.ring.buffer.mask_eq, hq.capacity, hq.tail]
    rfl

/-- The producer's store pushes. -/
theorem Op.updates_commit (p : Positions cap) {c : CursorData} (k : Nat) (r : Res α)
    (h : p.tail + k ≤ p.stolen + cap) (htail : c.tail = UInt32.ofNat p.tail) :
    Op.Updates τ .commit (.tailStore c k r) p (p.push k h) (.done r) := by
  rintro t m ⟨o, since⟩ hq rfl
  refine ⟨_, _, rfl, ⟨hq.capacity, hq.head, ?_⟩, rfl⟩
  simp [htail, Positions.push, UInt32.ofNat_add]

/-- A compare-exchange that expects the current head claims. -/
theorem Op.updates_claim (p : Positions cap) {c : CursorData} (n : Nat) (k : Taking α)
    (h : p.blocked + n ≤ p.tail) (hstolen : c.stolen = UInt32.ofNat p.stolen)
    (hblocked : c.blocked = UInt32.ofNat p.blocked) :
    Op.Updates τ .claim (.claimCas n k c) p (p.claim n h)
      (Op.takeLoop n 0 (UInt32.ofNat p.blocked) k) := by
  rintro t m ⟨o, since⟩ hq rfl
  have hcurrent : m.ring.head = pack c.stolen c.blocked := by
    rw [hq.head, hstolen, hblocked]
    rfl
  refine ⟨_, _, if_pos hcurrent, ⟨hq.capacity, ?_, hq.tail⟩, ?_⟩
  · simp [claimed, hstolen, hblocked, Positions.claim, Positions.head, UInt32.ofNat_add]
  · simp only [hblocked]

/-- A compare-exchange that expects the current head publishes. -/
theorem Op.updates_publish (p : Positions cap) (n : Nat) (k : Taking α)
    (h : p.stolen + n ≤ p.blocked) :
    Op.Updates τ .publish (.publishCas n (UInt32.ofNat p.stolen) k p.head) p (p.publish n h)
      (.done (k.result n)) := by
  rintro t m ⟨o, since⟩ hq rfl
  refine ⟨_, _, if_pos hq.head, ⟨hq.capacity, ?_, hq.tail⟩, rfl⟩
  simp [published, Positions.publish, Positions.head, UInt32.ofNat_add]

end Spmc

/-- The cursor updates of the ring commute with the reduction. -/
theorem SpmcRingBufferFifo.commutes [DecidableEq α] (p : Positions cap) :
    SpmcRingBufferFifo.Commutes τ α p where
  snapshot k := Spmc.Op.updates_snapshot p k
  push _ k r h ht := Spmc.Op.updates_commit p k r h ht
  claim _ n k h hs hb := Spmc.Op.updates_claim p n k h hs hb
  publish n k h := Spmc.Op.updates_publish p n k h

end Ring

/-! ## Everything the rings compute -/

/-- On the reductions of unbounded cursors the code computes what it would compute on the
cursors themselves: the two counts of a snapshot, the slot of every position of the window,
the addition to the high half of a packed word, and every cursor update of both rings. -/
theorem wrapping_cursors_commute {δ κ τ α : Type} [DecidableEq δ] [DecidableEq κ]
    [DecidableEq α] {cap : Nat} (h : acceptsCapacity cap) (p : Positions cap) :
    p.cursors.emptySlots = cap - (p.tail - p.stolen) ∧
      p.cursors.filledSlots = p.tail - p.blocked ∧
      (∀ i, p.stolen ≤ i → i < p.stolen + cap →
        (FixedRingBuffer.new cap h : FixedRingBuffer α).maskSlot (UInt32.ofNat i) = i % cap) ∧
      (∀ i j, p.stolen ≤ i → i < p.stolen + cap → p.stolen ≤ j → j < p.stolen + cap → i ≠ j →
        (FixedRingBuffer.new cap h : FixedRingBuffer α).maskSlot (UInt32.ofNat i) ≠
          (FixedRingBuffer.new cap h : FixedRingBuffer α).maskSlot (UInt32.ofNat j)) ∧
      (∀ k, p.tail + k ≤ p.stolen + cap →
        pack (UInt32.ofNat p.tail) (UInt32.ofNat p.blocked) + (UInt64.ofNat k <<< 32) =
          pack (UInt32.ofNat (p.tail + k)) (UInt32.ofNat p.blocked)) ∧
      (∀ a b, unpack (pack a b) = (a, b)) ∧
      WorkerQueue.Commutes δ κ τ α p ∧ SpmcRingBufferFifo.Commutes τ α p := by
  have hslot : ∀ i, (FixedRingBuffer.new cap h : FixedRingBuffer α).maskSlot (UInt32.ofNat i) =
      i % cap := by
    intro i
    rw [FixedRingBuffer.maskSlot_ofNat, FixedRingBuffer.capacity_new]
  refine ⟨p.emptySlots_cursors h, p.filledSlots_cursors h, fun i _ _ => hslot i, ?_, ?_,
    unpack_pack, WorkerQueue.commutes p, SpmcRingBufferFifo.commutes p⟩
  · intro i j hi hi' hj hj' hne heq
    rw [hslot, hslot] at heq
    exact hne (ClaimRing.window_mod_inj hi hi' hj hj' heq)
  · intro k hk
    exact p.anchor_push k hk

/-- Three claimed or unclaimed elements across the wrap of both halves. -/
theorem cursors_commute_across_the_wrap :
    acceptsCapacity 4 ∧
      ((⟨2 ^ 32 - 2, 2 ^ 32 - 1, 2 ^ 32 + 1, by decide, by decide, by decide⟩ :
        Positions 4).cursors).filledSlots = 2 := by
  have hcap : acceptsCapacity 4 := by decide
  have h := wrapping_cursors_commute (δ := Unit) (κ := Unit) (τ := Unit) (α := Unit) hcap
    ⟨2 ^ 32 - 2, 2 ^ 32 - 1, 2 ^ 32 + 1, by decide, by decide, by decide⟩
  exact ⟨hcap, h.2.1⟩

end XynokConcurrency
