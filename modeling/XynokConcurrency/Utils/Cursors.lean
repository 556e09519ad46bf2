import Mathlib.Logic.Function.Basic
import Mathlib.Tactic.NormNum

/-!
# Packed words and wrapping cursors

The two 32-bit cursors that share one 64-bit word, and the snapshot of a ring's
cursors that every queue operation starts from.  The cursors of the code wrap;
here they are the reductions of unbounded positions, and the lemmas say that the
word operations compute what the unbounded ones do.

Main results:

- Theorem {lit}`unpack_pack`: unpacking inverts packing.
- Theorem {lit}`pack_add_high`: adding to the high half leaves the low half
  alone, also when the high half overflows.
- Theorems {lit}`CursorData.emptySlots_ofNat` and
  {lit}`CursorData.filledSlots_ofNat`: the wrapping counts are the unbounded
  ones.
- Theorem {lit}`maskSlot_ofNat`: masking a wrapped cursor selects the slot of
  its unbounded position.
-/

namespace XynokConcurrency

/-! ## Packed words -/

/-- Pack two 32-bit numbers, the first into the high half. -/
def pack (a b : UInt32) : UInt64 :=
  (a.toUInt64 <<< 32) ||| b.toUInt64

/-- Unpack a pair packed by {name}`pack`. -/
def unpack (val : UInt64) : UInt32 × UInt32 :=
  ((val >>> 32).toUInt32, val.toUInt32)

/-- A packed word is its halves in base {lit}`2 ^ 32`. -/
theorem pack_toNat (a b : UInt32) : (pack a b).toNat = a.toNat * 2 ^ 32 + b.toNat := by
  have ha := a.toNat_lt
  have hb := b.toNat_lt
  have hshift : a.toNat * 2 ^ 32 % 2 ^ 64 = a.toNat * 2 ^ 32 := Nat.mod_eq_of_lt (by omega)
  simp only [pack, UInt64.toNat_or, UInt64.toNat_shiftLeft, UInt32.toNat_toUInt64,
    Nat.shiftLeft_eq]
  rw [show (UInt64.toNat 32) % 64 = 32 from rfl, hshift, Nat.mul_comm,
    ← Nat.two_pow_add_eq_or_of_lt hb]

/-- Unpacking inverts packing. -/
@[simp] theorem unpack_pack (a b : UInt32) : unpack (pack a b) = (a, b) := by
  have ha := a.toNat_lt
  have hb := b.toNat_lt
  have hword := pack_toNat a b
  apply Prod.ext
  · apply UInt32.toNat_inj.mp
    simp only [unpack, UInt64.toNat_toUInt32, UInt64.toNat_shiftRight, Nat.shiftRight_eq_div_pow,
      hword]
    rw [show (UInt64.toNat 32) % 64 = 32 from rfl]
    omega
  · apply UInt32.toNat_inj.mp
    simp only [unpack, UInt64.toNat_toUInt32, hword]
    omega

/-- A word is its halves packed. -/
@[simp] theorem pack_unpack (val : UInt64) : pack (unpack val).1 (unpack val).2 = val := by
  have hval := val.toNat_lt
  apply UInt64.toNat_inj.mp
  rw [pack_toNat]
  simp only [unpack, UInt64.toNat_toUInt32, UInt64.toNat_shiftRight, Nat.shiftRight_eq_div_pow]
  rw [show (UInt64.toNat 32) % 64 = 32 from rfl]
  omega

/-- Packing is injective in both halves. -/
theorem pack_inj {a b a' b' : UInt32} (h : pack a b = pack a' b') : a = a' ∧ b = b' := by
  have := congrArg unpack h
  simpa using this

/-- Adding to the high half leaves the low half alone: a carry leaves the word. -/
theorem pack_add_high (a b k : UInt32) :
    pack a b + (k.toUInt64 <<< 32) = pack (a + k) b := by
  have ha := a.toNat_lt
  have hb := b.toNat_lt
  have hk := k.toNat_lt
  apply UInt64.toNat_inj.mp
  simp only [UInt64.toNat_add, pack_toNat, UInt64.toNat_shiftLeft, UInt32.toNat_toUInt64,
    UInt32.toNat_add, Nat.shiftLeft_eq]
  rw [show (UInt64.toNat 32) % 64 = 32 from rfl]
  omega

/-- The same for an amount given as a machine word: only its low half arrives. -/
theorem pack_add_ofNat (a b : UInt32) (n : Nat) :
    pack a b + (UInt64.ofNat n <<< 32) = pack (a + UInt32.ofNat n) b := by
  have hamount : UInt64.ofNat n <<< 32 = (UInt32.ofNat n).toUInt64 <<< 32 := by
    apply UInt64.toNat_inj.mp
    simp only [UInt64.toNat_shiftLeft, UInt32.toNat_toUInt64, UInt64.toNat_ofNat',
      UInt32.toNat_ofNat', Nat.shiftLeft_eq]
    rw [show (UInt64.toNat 32) % 64 = 32 from rfl]
    have hsplit : (2 : Nat) ^ 64 = 2 ^ 32 * 2 ^ 32 := by norm_num
    rw [hsplit, Nat.mul_mod_mul_right, Nat.mul_mod_mul_right, Nat.mod_mul_right_mod,
      Nat.mod_mod]
  rw [hamount, pack_add_high]

/-! ## Reduced positions -/

/-- Equal reductions of two positions less than one wrap apart are equal. -/
theorem ofNat_inj_of_lt {i j : Nat} (hij : i ≤ j) (hlt : j - i < 2 ^ 32)
    (h : UInt32.ofNat i = UInt32.ofNat j) : i = j := by
  have := congrArg UInt32.toNat h
  simp only [UInt32.toNat_ofNat'] at this
  omega

/-- The wrapping difference of two positions is the unbounded one. -/
theorem toNat_ofNat_sub {i j : Nat} (hij : i ≤ j) (hlt : j - i < 2 ^ 32) :
    (UInt32.ofNat j - UInt32.ofNat i).toNat = j - i := by
  simp only [UInt32.toNat_sub, UInt32.toNat_ofNat']
  omega

/-- Stepping a reduced position back by one. -/
theorem ofNat_sub_one {i : Nat} (hi : 0 < i) :
    UInt32.ofNat i - 1 = UInt32.ofNat (i - 1) := by
  apply UInt32.toNat_inj.mp
  simp only [UInt32.toNat_sub, UInt32.toNat_ofNat', UInt32.toNat_one]
  omega

/-! ## Cursor snapshots -/

/-- A snapshot of the cursors of a ring. -/
structure CursorData where
  stolen : UInt32
  blocked : UInt32
  tail : UInt32
  capacity : UInt32
  mask : UInt32
deriving DecidableEq, Repr

/-- Slots the owner may still write. -/
def CursorData.emptySlots (c : CursorData) : Nat :=
  (c.capacity - c.tail + c.stolen).toNat

/-- Slots holding elements nobody has claimed. -/
def CursorData.filledSlots (c : CursorData) : Nat :=
  (c.tail - c.blocked).toNat

/-- On reductions of real positions the free count is the unbounded one. -/
theorem CursorData.emptySlots_ofNat {c : CursorData} {s t cap : Nat}
    (hcap : c.capacity = UInt32.ofNat cap) (hlt : cap < 2 ^ 32)
    (hs : c.stolen = UInt32.ofNat s) (ht : c.tail = UInt32.ofNat t)
    (hst : s ≤ t) (hfit : t ≤ s + cap) : c.emptySlots = cap - (t - s) := by
  simp only [emptySlots, hcap, hs, ht, UInt32.toNat_add, UInt32.toNat_sub, UInt32.toNat_ofNat']
  omega

/-- On reductions of real positions the unclaimed count is the unbounded one. -/
theorem CursorData.filledSlots_ofNat {c : CursorData} {b t : Nat}
    (hb : c.blocked = UInt32.ofNat b) (ht : c.tail = UInt32.ofNat t)
    (hbt : b ≤ t) (hlt : t - b < 2 ^ 32) : c.filledSlots = t - b := by
  simp only [filledSlots, hb, ht]
  exact toNat_ofNat_sub hbt hlt

/-! ## The fixed ring buffer -/

/-- Exclusive capacity limit of a ring. -/
def maxCapacity : Nat := 2 ^ 31

/-- The cells of a ring.  A cell is {lean}`none` while it holds no initialised
element; the mask is one less than a power of two below the capacity limit, so
an unacceptable ring cannot be built. -/
structure FixedRingBuffer (α : Type) where
  cells : Nat → Option α
  mask : UInt32
  pow : ∃ e, e < 31 ∧ mask.toNat + 1 = 2 ^ e

namespace FixedRingBuffer

variable {α : Type}

/-- Capacity of the ring. -/
def capacity (b : FixedRingBuffer α) : Nat :=
  b.mask.toNat + 1

/-- Slot a cursor falls on. -/
def maskSlot (b : FixedRingBuffer α) (cursor : UInt32) : Nat :=
  (cursor &&& b.mask).toNat

/-- Read the cell of a cursor. -/
def cellAt (b : FixedRingBuffer α) (cursor : UInt32) : Option α :=
  b.cells (b.maskSlot cursor)

/-- Move a value into the cell of a cursor. -/
def write (b : FixedRingBuffer α) (cursor : UInt32) (val : α) : FixedRingBuffer α :=
  { b with cells := Function.update b.cells (b.maskSlot cursor) (some val) }

/-- Move the value out of the cell of a cursor. -/
def clearAt (b : FixedRingBuffer α) (cursor : UInt32) : FixedRingBuffer α :=
  { b with cells := Function.update b.cells (b.maskSlot cursor) none }

theorem capacity_lt (b : FixedRingBuffer α) : b.capacity < maxCapacity := by
  obtain ⟨e, he, hpow⟩ := b.pow
  have : 2 ^ e ≤ 2 ^ 30 := Nat.pow_le_pow_right (by omega) (by omega)
  simp only [capacity, maxCapacity]
  omega

/-- Masking a wrapped cursor selects the slot of its unbounded position, since
the capacity divides the wrap. -/
theorem maskSlot_ofNat (b : FixedRingBuffer α) (i : Nat) :
    b.maskSlot (UInt32.ofNat i) = i % b.capacity := by
  obtain ⟨e, he, hpow⟩ := b.pow
  have hmask : b.mask.toNat = 2 ^ e - 1 := by omega
  have hdvd : 2 ^ e ∣ 2 ^ 32 := Nat.pow_dvd_pow 2 (by omega)
  rw [capacity, hpow, maskSlot, UInt32.toNat_and, UInt32.toNat_ofNat', hmask,
    Nat.and_two_pow_sub_one_eq_mod]
  exact Nat.mod_mod_of_dvd i hdvd

theorem cellAt_write (b : FixedRingBuffer α) (cursor cursor' : UInt32) (val : α) :
    (b.write cursor val).cellAt cursor' =
      if b.maskSlot cursor' = b.maskSlot cursor then some val else b.cellAt cursor' :=
  Function.update_apply ..

theorem cellAt_clearAt (b : FixedRingBuffer α) (cursor cursor' : UInt32) :
    (b.clearAt cursor).cellAt cursor' =
      if b.maskSlot cursor' = b.maskSlot cursor then none else b.cellAt cursor' :=
  Function.update_apply ..

end FixedRingBuffer

/-- The asserts of {lit}`FixedRingBuffer::new`: a positive power of two below
the limit. -/
def acceptsCapacity (capacity : Nat) : Prop :=
  0 < capacity ∧ capacity < maxCapacity ∧ ∃ e, capacity = 2 ^ e

instance (capacity : Nat) : Decidable (acceptsCapacity capacity) :=
  decidable_of_iff (0 < capacity ∧ capacity < maxCapacity ∧ 2 ^ Nat.log2 capacity = capacity) <|
    and_congr_right fun _ => and_congr_right fun _ =>
      ⟨fun h => ⟨_, h.symm⟩, fun ⟨e, he⟩ => by rw [he, Nat.log2_two_pow]⟩

/-- An accepted capacity is a mask plus one of the required shape. -/
theorem acceptsCapacity.pow {capacity : Nat} (h : acceptsCapacity capacity) :
    ∃ e, e < 31 ∧ (UInt32.ofNat (capacity - 1)).toNat + 1 = 2 ^ e := by
  obtain ⟨hpos, hlt, e, rfl⟩ := h
  have he : e < 31 := (Nat.pow_lt_pow_iff_right (by omega)).mp hlt
  refine ⟨e, he, ?_⟩
  simp only [maxCapacity] at hlt
  simp only [UInt32.toNat_ofNat']
  omega

/-- An empty ring of an accepted capacity. -/
def FixedRingBuffer.new {α : Type} (capacity : Nat) (h : acceptsCapacity capacity) :
    FixedRingBuffer α where
  cells := fun _ => none
  mask := UInt32.ofNat (capacity - 1)
  pow := h.pow

/-- A new ring has the capacity asked for. -/
theorem FixedRingBuffer.capacity_new {α : Type} {capacity : Nat} (h : acceptsCapacity capacity) :
    (FixedRingBuffer.new (α := α) capacity h).capacity = capacity := by
  obtain ⟨hpos, hlt, _⟩ := h
  simp only [maxCapacity] at hlt
  simp only [FixedRingBuffer.capacity, FixedRingBuffer.new, UInt32.toNat_ofNat']
  omega

end XynokConcurrency
