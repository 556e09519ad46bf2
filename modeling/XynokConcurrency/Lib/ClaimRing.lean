import Mathlib.Logic.Function.Basic
import Mathlib.Data.List.Basic
import Mathlib.Data.Nat.ModEq

/-!
# A ring with claimed heads

The abstract protocol of a bounded ring shared by one owner and many thieves, on
unbounded cursors.  The window {lit}`[stolen, stolen + cap)` is cut in three:
slots that thieves have claimed and are still reading, slots nobody has claimed,
and slots the owner may write.  A claim is taken at the front of the middle part
and given back in claim order, while the owner works at the back.

The cursors never wrap and every transition is a plain function, so the module
holds no word arithmetic; a concrete ring refines it by reducing its cursors.

Main results:

- Structure {lit}`Ring.Inv`: the slot-ownership invariant.
- Theorems {lit}`Ring.Inv.claimFront`, {lit}`Ring.Inv.take`,
  {lit}`Ring.Inv.publish`, {lit}`Ring.Inv.fill`, {lit}`Ring.Inv.commit`,
  {lit}`Ring.Inv.popClaim` and {lit}`Ring.Inv.popTake`: every transition of the
  protocol keeps it.
- Structure {lit}`Ring.StepBy`: what a transition of one thread leaves alone.
- Theorems {lit}`Ring.unclaimed_commit`, {lit}`Ring.unclaimed_popClaim` and
  {lit}`Ring.unclaimed_claimFront`: what the transitions do to the list of
  unclaimed elements.
-/

namespace XynokConcurrency
namespace ClaimRing

/-! ## Windows of positions -/

/-- Two positions of one window of {lit}`cap` consecutive positions that share a
slot are the same position. -/
theorem window_mod_inj {cap s i j : Nat} (hi : s ≤ i) (hi' : i < s + cap)
    (hj : s ≤ j) (hj' : j < s + cap) (h : i % cap = j % cap) : i = j := by
  rcases Nat.le_total i j with hij | hij
  · have hdvd : cap ∣ j - i := (Nat.modEq_iff_dvd' hij).mp h
    have hlt : j - i < cap := by omega
    have := Nat.eq_zero_of_dvd_of_lt hdvd hlt
    omega
  · have hdvd : cap ∣ i - j := (Nat.modEq_iff_dvd' hij).mp h.symm
    have hlt : i - j < cap := by omega
    have := Nat.eq_zero_of_dvd_of_lt hdvd hlt
    omega

/-! ## The protocol state -/

/-- A claim a thief has won: {lit}`len` slots from {lit}`start` on, of which the
first {lit}`taken` have been read out. -/
structure Claim where
  start : Nat
  len : Nat
  taken : Nat
deriving DecidableEq

/-- What the owner keeps beyond the tail during one of its operations. -/
inductive Hold
  /-- An operation is under way and keeps nothing. -/
  | busy
  /-- {lit}`room` slots are known to be free and the first {lit}`filled` of them
  have been written. -/
  | staged (room filled : Nat)
  /-- The slot at the tail was just given up by a pop and is still to be read. -/
  | popped
deriving DecidableEq

/-- Offsets from the tail whose slots the owner has filled. -/
def Hold.covers : Hold → Nat → Prop
  | .busy, _ => False
  | .staged _ filled, k => k < filled
  | .popped, k => k = 0

/-- Number of slots from the tail on that the owner counts on. -/
def Hold.extent : Hold → Nat
  | .busy => 0
  | .staged room _ => room
  | .popped => 1

/-- A staged hold fills at most the room it found. -/
def Hold.Fits : Hold → Prop
  | .staged room filled => filled ≤ room
  | _ => True

/-- A filled offset lies inside the extent of a fitting hold. -/
theorem Hold.lt_extent_of_covers {h : Hold} {k : Nat} (hfits : h.Fits)
    (hk : h.covers k) : k < h.extent := by
  cases h with
  | busy => exact hk.elim
  | staged room filled =>
      simp only [Hold.covers, Hold.extent, Hold.Fits] at *
      omega
  | popped =>
      simp only [Hold.covers, Hold.extent] at *
      omega

/-- The shared ring on unbounded cursors, with the claim of every thief and the
hold of every owner-side operation. -/
structure Ring (τ α : Type) where
  cap : Nat
  cell : Nat → Option α
  stolen : Nat
  blocked : Nat
  tail : Nat
  claim : τ → Option Claim
  own : τ → Option Hold

namespace Ring

variable {τ α : Type}

/-- Content of the slot a position falls on. -/
def slot (r : Ring τ α) (i : Nat) : Option α :=
  r.cell (i % r.cap)

/-- Slot ownership: the three parts of the window, the claims that tile the
first one, and which slots are live in each part. -/
structure Inv (r : Ring τ α) : Prop where
  cap_pos : 0 < r.cap
  stolen_le : r.stolen ≤ r.blocked
  blocked_le : r.blocked ≤ r.tail
  tail_le : r.tail ≤ r.stolen + r.cap
  claim_range : ∀ x c, r.claim x = some c →
    r.stolen ≤ c.start ∧ c.start + c.len ≤ r.blocked ∧ 0 < c.len ∧ c.taken ≤ c.len
  claim_disjoint : ∀ x y c c', x ≠ y → r.claim x = some c → r.claim y = some c' →
    c.start + c.len ≤ c'.start ∨ c'.start + c'.len ≤ c.start
  claim_cover : ∀ i, r.stolen ≤ i → i < r.blocked →
    ∃ x c, r.claim x = some c ∧ c.start ≤ i ∧ i < c.start + c.len
  claim_taken : ∀ x c i, r.claim x = some c → c.start ≤ i → i < c.start + c.taken →
    r.slot i = none
  claim_live : ∀ x c i, r.claim x = some c → c.start + c.taken ≤ i →
    i < c.start + c.len → (r.slot i).isSome
  live : ∀ i, r.blocked ≤ i → i < r.tail → (r.slot i).isSome
  own_unique : ∀ x y, (r.own x).isSome → (r.own y).isSome → x = y
  own_room : ∀ x h, r.own x = some h → h.Fits ∧ r.tail + h.extent ≤ r.stolen + r.cap
  own_live : ∀ x h k, r.own x = some h → h.covers k → (r.slot (r.tail + k)).isSome
  free : ∀ i, r.tail ≤ i → i < r.stolen + r.cap →
    (∀ x h, r.own x = some h → ¬ h.covers (i - r.tail)) → r.slot i = none

/-- A ring with no element, whose cursors start at a given position. -/
def empty (cap start : Nat) : Ring τ α :=
  ⟨cap, fun _ => none, start, start, start, fun _ => none, fun _ => none⟩

theorem empty_inv {cap : Nat} (hcap : 0 < cap) (start : Nat) :
    (Ring.empty cap start : Ring τ α).Inv := by
  constructor <;> simp [Ring.empty, Ring.slot]
  omega

/-- Overwrite the slot a position falls on. -/
def setSlot (r : Ring τ α) (i : Nat) (v : Option α) : Ring τ α :=
  { r with cell := Function.update r.cell (i % r.cap) v }

theorem slot_setSlot (r : Ring τ α) (i j : Nat) (v : Option α) :
    (r.setSlot i v).slot j = if j % r.cap = i % r.cap then v else r.slot j := by
  simp [slot, setSlot, Function.update_apply]

/-- Inside the window a write is seen at its own position only. -/
theorem slot_setSlot_window (r : Ring τ α) {i j : Nat} (v : Option α)
    (hi : r.stolen ≤ i) (hi' : i < r.stolen + r.cap)
    (hj : r.stolen ≤ j) (hj' : j < r.stolen + r.cap) :
    (r.setSlot i v).slot j = if j = i then v else r.slot j := by
  rw [slot_setSlot]
  by_cases hij : j = i
  · simp [hij]
  · have hne : j % r.cap ≠ i % r.cap :=
      fun h => hij (window_mod_inj hj hj' hi hi' h)
    simp [hij, hne]

/-- The values held in {lit}`n` consecutive positions from {lit}`i` on. -/
def values (r : Ring τ α) (i n : Nat) : List α :=
  (List.range n).filterMap fun k => r.slot (i + k)

/-- The unclaimed elements, oldest first. -/
def unclaimed (r : Ring τ α) : List α :=
  r.values r.blocked (r.tail - r.blocked)

/-- A stretch of live positions has one value per position. -/
theorem values_length {r : Ring τ α} {i n : Nat}
    (h : ∀ k, k < n → (r.slot (i + k)).isSome) : (r.values i n).length = n := by
  induction n with
  | zero => simp [values]
  | succ n ih =>
      have hn := h n (Nat.lt_succ_self n)
      obtain ⟨v, hv⟩ := Option.isSome_iff_exists.mp hn
      have := ih fun k hk => h k (by omega)
      simp only [values] at this ⊢
      simp [List.range_succ, List.filterMap_append, hv, this]

theorem values_add (r : Ring τ α) (i m n : Nat) :
    r.values i (m + n) = r.values i m ++ r.values (i + m) n := by
  simp only [values, List.range_add, List.filterMap_append, List.filterMap_map]
  congr 1
  apply List.filterMap_congr
  intro k _
  simp [Nat.add_assoc]

theorem values_one {r : Ring τ α} {i : Nat} {v : α} (h : r.slot i = some v) :
    r.values i 1 = [v] := by
  simp [values, h]

/-- Two rings that agree on a stretch of positions hold the same values there. -/
theorem values_congr {r r' : Ring τ α} {i n : Nat}
    (h : ∀ k, k < n → r.slot (i + k) = r'.slot (i + k)) : r.values i n = r'.values i n := by
  apply List.filterMap_congr
  intro k hk
  exact h k (List.mem_range.mp hk)

namespace Inv

variable {r : Ring τ α}

/-- The unclaimed list has one element per unclaimed position. -/
theorem unclaimed_length (h : r.Inv) : r.unclaimed.length = r.tail - r.blocked :=
  values_length fun k hk => h.live _ (by omega) (by omega)

/-- Whenever some slot is claimed, one pending claim starts at {lit}`stolen`. -/
theorem exists_first_claim (h : r.Inv) (hlt : r.stolen < r.blocked) :
    ∃ x c, r.claim x = some c ∧ c.start = r.stolen := by
  obtain ⟨x, c, hc, hstart, _⟩ := h.claim_cover r.stolen (Nat.le_refl _) hlt
  exact ⟨x, c, hc, Nat.le_antisymm hstart (h.claim_range x c hc).1⟩

end Inv

/-! ## Positions a thread has to itself -/

/-- Positions a thread has to itself: its claim, and what it counts on beyond
the tail. -/
def Holds (r : Ring τ α) (x : τ) (i : Nat) : Prop :=
  (∃ c, r.claim x = some c ∧ c.start ≤ i ∧ i < c.start + c.len) ∨
    ∃ g, r.own x = some g ∧ r.tail ≤ i ∧ i < r.tail + g.extent

/-- A held position lies in the window, outside of the unclaimed part. -/
theorem Inv.holds_window {r : Ring τ α} (h : r.Inv) {x : τ} {i : Nat} (hi : r.Holds x i) :
    r.stolen ≤ i ∧ i < r.stolen + r.cap ∧ (i < r.blocked ∨ r.tail ≤ i) := by
  have hs := h.stolen_le
  have hb := h.blocked_le
  have ht := h.tail_le
  rcases hi with ⟨c, hc, hle, hlt⟩ | ⟨g, hg, hle, hlt⟩
  · have := h.claim_range x c hc
    omega
  · have := (h.own_room x g hg).2
    omega

/-- Two threads never hold the same slot. -/
theorem Inv.holds_disjoint {r : Ring τ α} (h : r.Inv) {x y : τ} {i j : Nat} (hxy : x ≠ y)
    (hi : r.Holds x i) (hj : r.Holds y j) : i % r.cap ≠ j % r.cap := by
  have hwi := h.holds_window hi
  have hwj := h.holds_window hj
  have hb := h.blocked_le
  intro hmod
  have hij : i = j := window_mod_inj hwi.1 hwi.2.1 hwj.1 hwj.2.1 hmod
  rcases hi with ⟨c, hc, hle, hlt⟩ | ⟨g, hg, hle, hlt⟩ <;>
    rcases hj with ⟨c', hc', hle', hlt'⟩ | ⟨g', hg', hle', hlt'⟩
  · rcases h.claim_disjoint x y c c' hxy hc hc' with hdisj | hdisj <;> omega
  · have := h.claim_range x c hc
    omega
  · have := h.claim_range y c' hc'
    omega
  · exact hxy (h.own_unique x y (by simp [hg]) (by simp [hg']))

/-! ## Transitions of the owner -/

section Transitions

variable [DecidableEq τ]

/-- Change what one owner-side operation keeps. -/
def setOwn (r : Ring τ α) (x : τ) (h : Option Hold) : Ring τ α :=
  { r with own := Function.update r.own x h }

/-- Change the claim of one thief. -/
def setClaim (r : Ring τ α) (x : τ) (c : Option Claim) : Ring τ α :=
  { r with claim := Function.update r.claim x c }

/-- Write the next reserved slot. -/
def fill (r : Ring τ α) (x : τ) (room filled : Nat) (v : α) : Ring τ α :=
  (r.setSlot (r.tail + filled) (some v)).setOwn x (some (.staged room (filled + 1)))

/-- Move the tail over the slots written so far. -/
def commit (r : Ring τ α) (x : τ) (filled : Nat) : Ring τ α :=
  { r.setOwn x none with tail := r.tail + filled }

/-- Give up the last unclaimed position. -/
def popClaim (r : Ring τ α) (x : τ) : Ring τ α :=
  { r.setOwn x (some .popped) with tail := r.tail - 1 }

/-- Read the position just given up. -/
def popTake (r : Ring τ α) (x : τ) : Ring τ α :=
  (r.setSlot r.tail none).setOwn x none

/-- Claim the first {lit}`n` unclaimed positions. -/
def claimFront (r : Ring τ α) (x : τ) (n : Nat) : Ring τ α :=
  { r.setClaim x (some ⟨r.blocked, n, 0⟩) with blocked := r.blocked + n }

/-- Read the next claimed position. -/
def take (r : Ring τ α) (x : τ) (c : Claim) : Ring τ α :=
  (r.setSlot (c.start + c.taken) none).setClaim x (some { c with taken := c.taken + 1 })

/-- Give a finished claim back to the owner. -/
def publish (r : Ring τ α) (x : τ) (n : Nat) : Ring τ α :=
  { r.setClaim x none with stolen := r.stolen + n }

variable {r : Ring τ α} {x : τ}

@[simp] theorem setOwn_slot (h : Option Hold) (i : Nat) : (r.setOwn x h).slot i = r.slot i := rfl

@[simp] theorem setClaim_slot (c : Option Claim) (i : Nat) :
    (r.setClaim x c).slot i = r.slot i := rfl

/-- An operation may start, end, or change what it knows, as long as it keeps no
written slot: no other operation may be under way, and the new hold must fit. -/
theorem Inv.setOwn {h' : Option Hold} (h : r.Inv)
    (hother : ∀ y, y ≠ x → r.own y = none)
    (hold : ∀ g k, r.own x = some g → ¬ g.covers k)
    (hnew : ∀ g, h' = some g → g.Fits ∧ r.tail + g.extent ≤ r.stolen + r.cap ∧
      ∀ k, ¬ g.covers k) : (r.setOwn x h').Inv := by
  refine { h with
    own_unique := ?_, own_room := ?_, own_live := ?_, free := ?_
    claim_taken := h.claim_taken, claim_live := h.claim_live, live := h.live }
  · intro y z hy hz
    simp only [Ring.setOwn, Function.update_apply] at hy hz
    by_cases hyx : y = x <;> by_cases hzx : z = x <;> simp_all
  · intro y g hg
    simp only [Ring.setOwn, Function.update_apply] at hg
    by_cases hyx : y = x
    · rw [if_pos hyx] at hg
      exact ⟨(hnew g hg).1, (hnew g hg).2.1⟩
    · rw [if_neg hyx, hother y hyx] at hg
      cases hg
  · intro y g k hg hk
    simp only [Ring.setOwn, Function.update_apply] at hg
    by_cases hyx : y = x
    · rw [if_pos hyx] at hg
      exact ((hnew g hg).2.2 k hk).elim
    · rw [if_neg hyx, hother y hyx] at hg
      cases hg
  · intro i hi hi' _
    apply h.free i hi hi'
    intro y g hg
    by_cases hyx : y = x
    · subst hyx
      exact hold g _ hg
    · rw [hother y hyx] at hg
      cases hg

omit [DecidableEq τ] in
/-- Nobody else runs an owner-side operation while one thread does. -/
theorem Inv.own_eq_none_of_ne (h : r.Inv) {y : τ} (hx : (r.own x).isSome) (hy : y ≠ x) :
    r.own y = none := by
  cases hown : r.own y with
  | none => rfl
  | some g => exact (hy (h.own_unique y x (by simp [hown]) hx)).elim

/-- Writing the next reserved slot keeps slot ownership. -/
theorem Inv.fill {room filled : Nat} (h : r.Inv) (v : α)
    (hown : r.own x = some (.staged room filled)) (hlt : filled < room) :
    (r.fill x room filled v).Inv := by
  obtain ⟨_, hroom⟩ := h.own_room x _ hown
  simp only [Hold.extent] at hroom
  have hs := h.stolen_le
  have hb := h.blocked_le
  have hother : ∀ y, y ≠ x → r.own y = none :=
    fun y hy => h.own_eq_none_of_ne (by simp [hown]) hy
  have hslot : ∀ j, r.stolen ≤ j → j < r.stolen + r.cap →
      (r.fill x room filled v).slot j = if j = r.tail + filled then some v else r.slot j :=
    fun j hj hj' => r.slot_setSlot_window (some v) (by omega) (by omega) hj hj'
  refine { h with
    claim_taken := ?_, claim_live := ?_, live := ?_, own_unique := ?_
    own_room := ?_, own_live := ?_, free := ?_ }
  · intro y c i hc hi hi'
    have hr := h.claim_range y c hc
    have ht := h.tail_le
    rw [hslot i (by omega) (by omega), if_neg (by omega)]
    exact h.claim_taken y c i hc hi hi'
  · intro y c i hc hi hi'
    have hr := h.claim_range y c hc
    have ht := h.tail_le
    rw [hslot i (by omega) (by omega), if_neg (by omega)]
    exact h.claim_live y c i hc hi hi'
  · intro i hi hi'
    simp only [Ring.fill, Ring.setOwn, Ring.setSlot] at hi hi'
    rw [hslot i (by omega) (by omega), if_neg (by omega)]
    exact h.live i hi hi'
  · intro y z hy hz
    simp only [Ring.fill, Ring.setOwn, Ring.setSlot, Function.update_apply] at hy hz
    by_cases hyx : y = x <;> by_cases hzx : z = x <;> simp_all
  · intro y g hg
    simp only [Ring.fill, Ring.setOwn, Ring.setSlot, Function.update_apply] at hg ⊢
    by_cases hyx : y = x
    · rw [if_pos hyx] at hg
      cases hg
      simp only [Hold.Fits, Hold.extent]
      omega
    · rw [if_neg hyx, hother y hyx] at hg
      cases hg
  · intro y g k hg hk
    simp only [Ring.fill, Ring.setOwn, Ring.setSlot, Function.update_apply] at hg
    by_cases hyx : y = x
    · rw [if_pos hyx] at hg
      cases hg
      simp only [Hold.covers] at hk
      show ((r.fill x room filled v).slot (r.tail + k)).isSome
      rw [hslot (r.tail + k) (by omega) (by omega)]
      by_cases hkf : k = filled
      · simp [hkf]
      · rw [if_neg (by omega)]
        exact h.own_live x _ k hown (by simp only [Hold.covers]; omega)
    · rw [if_neg hyx, hother y hyx] at hg
      cases hg
  · intro i hi hi' hcov
    simp only [Ring.fill, Ring.setOwn, Ring.setSlot] at hi hi' hcov
    have hnew := hcov x (.staged room (filled + 1)) (by simp)
    simp only [Hold.covers] at hnew
    rw [hslot i (by omega) hi', if_neg (by omega)]
    apply h.free i hi hi'
    intro y g hg
    by_cases hyx : y = x
    · subst hyx
      rw [hown] at hg
      cases hg
      simp only [Hold.covers]
      omega
    · rw [hother y hyx] at hg
      cases hg

/-- Moving the tail over the written slots keeps slot ownership. -/
theorem Inv.commit {room filled : Nat} (h : r.Inv)
    (hown : r.own x = some (.staged room filled)) : (r.commit x filled).Inv := by
  obtain ⟨hfits, hroom⟩ := h.own_room x _ hown
  simp only [Hold.extent, Hold.Fits] at hroom hfits
  have hother : ∀ y, y ≠ x → r.own y = none :=
    fun y hy => h.own_eq_none_of_ne (by simp [hown]) hy
  have hnone : ∀ y, (r.commit x filled).own y = none := by
    intro y
    simp only [Ring.commit, Ring.setOwn, Function.update_apply]
    by_cases hyx : y = x
    · simp [hyx]
    · simp [hyx, hother y hyx]
  refine { h with
    blocked_le := ?_, tail_le := ?_, live := ?_, own_unique := ?_
    own_room := ?_, own_live := ?_, free := ?_
    claim_taken := h.claim_taken, claim_live := h.claim_live }
  · exact Nat.le_trans h.blocked_le (Nat.le_add_right _ _)
  · show r.tail + filled ≤ r.stolen + r.cap
    omega
  · intro i hi hi'
    show (r.slot i).isSome
    change i < r.tail + filled at hi'
    by_cases hit : i < r.tail
    · exact h.live i hi hit
    · have hcov : (Hold.staged room filled).covers (i - r.tail) := by
        simp only [Hold.covers]
        omega
      have := h.own_live x _ _ hown hcov
      rwa [Nat.add_sub_cancel' (by omega)] at this
  · intro y z hy _
    simp [hnone y] at hy
  · intro y g hg
    simp [hnone y] at hg
  · intro y g k hg _
    simp [hnone y] at hg
  · intro i hi hi' _
    change r.tail + filled ≤ i at hi
    show r.slot i = none
    apply h.free i (by omega) hi'
    intro y g hg
    by_cases hyx : y = x
    · subst hyx
      rw [hown] at hg
      cases hg
      simp only [Hold.covers]
      omega
    · rw [hother y hyx] at hg
      cases hg

/-- Giving up the last unclaimed position keeps slot ownership. -/
theorem Inv.popClaim {g : Hold} (h : r.Inv) (hown : r.own x = some g)
    (hkeep : ∀ k, ¬ g.covers k) (hlt : r.blocked < r.tail) : (r.popClaim x).Inv := by
  have hs := h.stolen_le
  have ht := h.tail_le
  have hother : ∀ y, y ≠ x → r.own y = none :=
    fun y hy => h.own_eq_none_of_ne (by simp [hown]) hy
  refine { h with
    blocked_le := ?_, tail_le := ?_, live := ?_, own_unique := ?_
    own_room := ?_, own_live := ?_, free := ?_
    claim_taken := h.claim_taken, claim_live := h.claim_live }
  · show r.blocked ≤ r.tail - 1
    omega
  · show r.tail - 1 ≤ r.stolen + r.cap
    omega
  · intro i hi hi'
    change i < r.tail - 1 at hi'
    exact h.live i hi (by omega)
  · intro y z hy hz
    simp only [Ring.popClaim, Ring.setOwn, Function.update_apply] at hy hz
    by_cases hyx : y = x <;> by_cases hzx : z = x <;> simp_all
  · intro y g' hg
    simp only [Ring.popClaim, Ring.setOwn, Function.update_apply] at hg
    by_cases hyx : y = x
    · rw [if_pos hyx] at hg
      cases hg
      refine ⟨trivial, ?_⟩
      show r.tail - 1 + 1 ≤ r.stolen + r.cap
      omega
    · rw [if_neg hyx, hother y hyx] at hg
      cases hg
  · intro y g' k hg hk
    simp only [Ring.popClaim, Ring.setOwn, Function.update_apply] at hg
    by_cases hyx : y = x
    · rw [if_pos hyx] at hg
      cases hg
      simp only [Hold.covers] at hk
      subst hk
      exact h.live (r.tail - 1) (by omega) (by omega)
    · rw [if_neg hyx, hother y hyx] at hg
      cases hg
  · intro i hi hi' hcov
    change r.tail - 1 ≤ i at hi
    change i < r.stolen + r.cap at hi'
    show r.slot i = none
    have hnew := hcov x .popped (by simp [Ring.popClaim, Ring.setOwn])
    simp only [Hold.covers, Ring.popClaim] at hnew
    apply h.free i (by omega) hi'
    intro y g' hg
    by_cases hyx : y = x
    · subst hyx
      rw [hown] at hg
      cases hg
      exact hkeep _
    · rw [hother y hyx] at hg
      cases hg

/-- Reading the position just given up keeps slot ownership. -/
theorem Inv.popTake (h : r.Inv) (hown : r.own x = some .popped) : (r.popTake x).Inv := by
  obtain ⟨_, hroom⟩ := h.own_room x _ hown
  simp only [Hold.extent] at hroom
  have hs := h.stolen_le
  have hb := h.blocked_le
  have hother : ∀ y, y ≠ x → r.own y = none :=
    fun y hy => h.own_eq_none_of_ne (by simp [hown]) hy
  have hslot : ∀ j, r.stolen ≤ j → j < r.stolen + r.cap →
      (r.popTake x).slot j = if j = r.tail then none else r.slot j :=
    fun j hj hj' => r.slot_setSlot_window none (by omega) (by omega) hj hj'
  have hnone : ∀ y, (r.popTake x).own y = none := by
    intro y
    simp only [Ring.popTake, Ring.setOwn, Ring.setSlot, Function.update_apply]
    by_cases hyx : y = x
    · simp [hyx]
    · simp [hyx, hother y hyx]
  refine { h with
    claim_taken := ?_, claim_live := ?_, live := ?_, own_unique := ?_
    own_room := ?_, own_live := ?_, free := ?_ }
  · intro y c i hc hi hi'
    have hr := h.claim_range y c hc
    rw [hslot i (by omega) (by omega), if_neg (by omega)]
    exact h.claim_taken y c i hc hi hi'
  · intro y c i hc hi hi'
    have hr := h.claim_range y c hc
    rw [hslot i (by omega) (by omega), if_neg (by omega)]
    exact h.claim_live y c i hc hi hi'
  · intro i hi hi'
    simp only [Ring.popTake, Ring.setOwn, Ring.setSlot] at hi hi'
    rw [hslot i (by omega) (by omega), if_neg (by omega)]
    exact h.live i hi hi'
  · intro y z hy _
    simp [hnone y] at hy
  · intro y g hg
    simp [hnone y] at hg
  · intro y g k hg _
    simp [hnone y] at hg
  · intro i hi hi' _
    simp only [Ring.popTake, Ring.setOwn, Ring.setSlot] at hi hi'
    rw [hslot i (by omega) hi']
    by_cases hit : i = r.tail
    · simp [hit]
    · rw [if_neg hit]
      apply h.free i hi hi'
      intro y g hg
      by_cases hyx : y = x
      · subst hyx
        rw [hown] at hg
        cases hg
        simp only [Hold.covers]
        omega
      · rw [hother y hyx] at hg
        cases hg

/-! ## Transitions of the thieves -/

/-- Claiming the front of the unclaimed part keeps slot ownership. -/
theorem Inv.claimFront {n : Nat} (h : r.Inv) (hnone : r.claim x = none) (hpos : 0 < n)
    (hle : n ≤ r.tail - r.blocked) : (r.claimFront x n).Inv := by
  have hs := h.stolen_le
  have hb := h.blocked_le
  have hclaim : ∀ y c, (r.claimFront x n).claim y = some c →
      (y = x ∧ c = ⟨r.blocked, n, 0⟩) ∨ (y ≠ x ∧ r.claim y = some c) := by
    intro y c hc
    simp only [Ring.claimFront, Ring.setClaim, Function.update_apply] at hc
    by_cases hyx : y = x
    · rw [if_pos hyx] at hc
      exact .inl ⟨hyx, (Option.some.inj hc).symm⟩
    · rw [if_neg hyx] at hc
      exact .inr ⟨hyx, hc⟩
  refine { h with
    stolen_le := ?_, blocked_le := ?_, claim_range := ?_, claim_disjoint := ?_
    claim_cover := ?_, claim_taken := ?_, claim_live := ?_, live := ?_
    own_room := h.own_room, own_live := h.own_live, free := h.free }
  · show r.stolen ≤ r.blocked + n
    omega
  · show r.blocked + n ≤ r.tail
    omega
  · intro y c hc
    show r.stolen ≤ c.start ∧ c.start + c.len ≤ r.blocked + n ∧ 0 < c.len ∧ c.taken ≤ c.len
    rcases hclaim y c hc with ⟨_, rfl⟩ | ⟨_, hc⟩
    · exact ⟨hs, Nat.le_refl _, hpos, Nat.zero_le _⟩
    · have := h.claim_range y c hc
      omega
  · intro y z c c' hyz hc hc'
    rcases hclaim y c hc with ⟨rfl, rfl⟩ | ⟨_, hcy⟩
    · rcases hclaim z c' hc' with ⟨rfl, _⟩ | ⟨_, hcz⟩
      · exact (hyz rfl).elim
      · exact .inr (h.claim_range z c' hcz).2.1
    · rcases hclaim z c' hc' with ⟨rfl, rfl⟩ | ⟨_, hcz⟩
      · exact .inl (h.claim_range y c hcy).2.1
      · exact h.claim_disjoint y z c c' hyz hcy hcz
  · intro i hi hi'
    change i < r.blocked + n at hi'
    by_cases hib : i < r.blocked
    · obtain ⟨y, c, hc, hrange⟩ := h.claim_cover i hi hib
      have hyx : y ≠ x := by
        rintro rfl
        rw [hnone] at hc
        cases hc
      exact ⟨y, c, by simpa [Ring.claimFront, Ring.setClaim, hyx] using hc, hrange⟩
    · exact ⟨x, ⟨r.blocked, n, 0⟩, by simp [Ring.claimFront, Ring.setClaim],
        Nat.le_of_not_lt hib, hi'⟩
  · intro y c i hc hi hi'
    show r.slot i = none
    rcases hclaim y c hc with ⟨_, rfl⟩ | ⟨_, hc⟩
    · simp only at hi hi'
      omega
    · exact h.claim_taken y c i hc hi hi'
  · intro y c i hc hi hi'
    show (r.slot i).isSome
    rcases hclaim y c hc with ⟨_, rfl⟩ | ⟨_, hc⟩
    · simp only at hi hi'
      exact h.live i (by omega) (by omega)
    · exact h.claim_live y c i hc hi hi'
  · intro i hi hi'
    change r.blocked + n ≤ i at hi
    exact h.live i (by omega) hi'

/-- Reading the next claimed position keeps slot ownership. -/
theorem Inv.take {c : Claim} (h : r.Inv) (hc : r.claim x = some c) (hlt : c.taken < c.len) :
    (r.take x c).Inv := by
  have hr := h.claim_range x c hc
  have hb := h.blocked_le
  have ht := h.tail_le
  have hslot : ∀ j, r.stolen ≤ j → j < r.stolen + r.cap →
      (r.take x c).slot j = if j = c.start + c.taken then none else r.slot j :=
    fun j hj hj' => r.slot_setSlot_window none (by omega) (by omega) hj hj'
  have hclaim : ∀ y c', (r.take x c).claim y = some c' →
      (y = x ∧ c' = { c with taken := c.taken + 1 }) ∨ (y ≠ x ∧ r.claim y = some c') := by
    intro y c' hc'
    simp only [Ring.take, Ring.setClaim, Ring.setSlot, Function.update_apply] at hc'
    by_cases hyx : y = x
    · rw [if_pos hyx] at hc'
      exact .inl ⟨hyx, (Option.some.inj hc').symm⟩
    · rw [if_neg hyx] at hc'
      exact .inr ⟨hyx, hc'⟩
  refine { h with
    claim_range := ?_, claim_disjoint := ?_, claim_cover := ?_, claim_taken := ?_
    claim_live := ?_, live := ?_, own_live := ?_, free := ?_ }
  · intro y c' hc'
    show r.stolen ≤ c'.start ∧ c'.start + c'.len ≤ r.blocked ∧ 0 < c'.len ∧ c'.taken ≤ c'.len
    rcases hclaim y c' hc' with ⟨_, rfl⟩ | ⟨_, hc'⟩
    · simp only
      omega
    · exact h.claim_range y c' hc'
  · intro y z c₁ c₂ hyz h₁ h₂
    rcases hclaim y c₁ h₁ with ⟨rfl, rfl⟩ | ⟨_, hy⟩
    · rcases hclaim z c₂ h₂ with ⟨rfl, _⟩ | ⟨_, hz⟩
      · exact (hyz rfl).elim
      · exact h.claim_disjoint y z c c₂ hyz hc hz
    · rcases hclaim z c₂ h₂ with ⟨rfl, rfl⟩ | ⟨_, hz⟩
      · exact h.claim_disjoint y z c₁ c hyz hy hc
      · exact h.claim_disjoint y z c₁ c₂ hyz hy hz
  · intro i hi hi'
    obtain ⟨y, c', hc', hrange⟩ := h.claim_cover i hi hi'
    by_cases hyx : y = x
    · subst hyx
      rw [hc] at hc'
      cases hc'
      exact ⟨y, { c with taken := c.taken + 1 }, by simp [Ring.take, Ring.setClaim], hrange⟩
    · exact ⟨y, c', by simpa [Ring.take, Ring.setClaim, Ring.setSlot, hyx] using hc', hrange⟩
  · intro y c' i hc' hi hi'
    rcases hclaim y c' hc' with ⟨_, rfl⟩ | ⟨hyx, hc'⟩
    · simp only at hi hi'
      rw [hslot i (by omega) (by omega)]
      by_cases hit : i = c.start + c.taken
      · simp [hit]
      · rw [if_neg hit]
        exact h.claim_taken x c i hc hi (by omega)
    · have hr' := h.claim_range y c' hc'
      have hdis := h.claim_disjoint y x c' c hyx hc' hc
      rw [hslot i (by omega) (by omega), if_neg (by omega)]
      exact h.claim_taken y c' i hc' hi hi'
  · intro y c' i hc' hi hi'
    rcases hclaim y c' hc' with ⟨_, rfl⟩ | ⟨hyx, hc'⟩
    · simp only at hi hi'
      rw [hslot i (by omega) (by omega), if_neg (by omega)]
      exact h.claim_live x c i hc (by omega) hi'
    · have hr' := h.claim_range y c' hc'
      have hdis := h.claim_disjoint y x c' c hyx hc' hc
      rw [hslot i (by omega) (by omega), if_neg (by omega)]
      exact h.claim_live y c' i hc' hi hi'
  · intro i hi hi'
    simp only [Ring.take, Ring.setClaim, Ring.setSlot] at hi hi'
    rw [hslot i (by omega) (by omega), if_neg (by omega)]
    exact h.live i hi hi'
  · intro y g k hg hk
    obtain ⟨hfits, hroom⟩ := h.own_room y g hg
    have hlt' := Hold.lt_extent_of_covers hfits hk
    show ((r.take x c).slot (r.tail + k)).isSome
    rw [hslot (r.tail + k) (by omega) (by omega), if_neg (by omega)]
    exact h.own_live y g k hg hk
  · intro i hi hi' hcov
    simp only [Ring.take, Ring.setClaim, Ring.setSlot] at hi hi'
    rw [hslot i (by omega) hi', if_neg (by omega)]
    exact h.free i hi hi' hcov

/-- Giving a finished first claim back keeps slot ownership. -/
theorem Inv.publish {c : Claim} (h : r.Inv) (hc : r.claim x = some c)
    (hdone : c.taken = c.len) (hstart : c.start = r.stolen) : (r.publish x c.len).Inv := by
  have hr := h.claim_range x c hc
  have hb := h.blocked_le
  have ht := h.tail_le
  have hclaim : ∀ y c', (r.publish x c.len).claim y = some c' →
      y ≠ x ∧ r.claim y = some c' := by
    intro y c' hc'
    simp only [Ring.publish, Ring.setClaim, Function.update_apply] at hc'
    by_cases hyx : y = x
    · rw [if_pos hyx] at hc'
      cases hc'
    · rw [if_neg hyx] at hc'
      exact ⟨hyx, hc'⟩
  refine { h with
    stolen_le := ?_, tail_le := ?_, claim_range := ?_, claim_disjoint := ?_
    claim_cover := ?_, claim_taken := ?_, claim_live := ?_, own_room := ?_, free := ?_
    live := h.live, own_live := h.own_live }
  · show r.stolen + c.len ≤ r.blocked
    omega
  · show r.tail ≤ r.stolen + c.len + r.cap
    omega
  · intro y c' hc'
    obtain ⟨hyx, hc'⟩ := hclaim y c' hc'
    have hr' := h.claim_range y c' hc'
    have hdis := h.claim_disjoint y x c' c hyx hc' hc
    show r.stolen + c.len ≤ c'.start ∧ c'.start + c'.len ≤ r.blocked ∧
      0 < c'.len ∧ c'.taken ≤ c'.len
    omega
  · intro y z c₁ c₂ hyz h₁ h₂
    exact h.claim_disjoint y z c₁ c₂ hyz (hclaim y c₁ h₁).2 (hclaim z c₂ h₂).2
  · intro i hi hi'
    change r.stolen + c.len ≤ i at hi
    obtain ⟨y, c', hc', hrange⟩ := h.claim_cover i (by omega) hi'
    have hyx : y ≠ x := by
      rintro rfl
      rw [hc] at hc'
      cases hc'
      omega
    exact ⟨y, c', by simpa [Ring.publish, Ring.setClaim, hyx] using hc', hrange⟩
  · intro y c' i hc' hi hi'
    exact h.claim_taken y c' i (hclaim y c' hc').2 hi hi'
  · intro y c' i hc' hi hi'
    exact h.claim_live y c' i (hclaim y c' hc').2 hi hi'
  · intro y g hg
    obtain ⟨hfits, hroom⟩ := h.own_room y g hg
    refine ⟨hfits, ?_⟩
    show r.tail + g.extent ≤ r.stolen + c.len + r.cap
    omega
  · intro i hi hi' hcov
    change r.tail ≤ i at hi
    change i < r.stolen + c.len + r.cap at hi'
    show r.slot i = none
    by_cases hin : i < r.stolen + r.cap
    · exact h.free i hi hin hcov
    · -- the slot enters the window from the other end, where the claim left it empty
      have hcap := h.cap_pos
      have halias : r.slot i = r.slot (i - r.cap) := by
        simp only [slot]
        congr 1
        rw [Nat.mod_eq_sub_mod (by omega)]
      rw [halias]
      exact h.claim_taken x c (i - r.cap) hc (by omega) (by omega)

/-! ## What a transition leaves alone -/

/-- A forward transition of one thread: it writes at most one slot, which the thread
holds, and changes no claim and no hold of another thread.  The cursors grow, and the
tail stays put unless the thread works on the owner side. -/
structure StepBy (x : τ) (r r' : Ring τ α) : Prop where
  cap : r'.cap = r.cap
  cell : r'.cell = r.cell ∨
    ∃ i v, r.Holds x i ∧ r'.cell = Function.update r.cell (i % r.cap) v
  claim : ∀ y, y ≠ x → r'.claim y = r.claim y
  own : ∀ y, y ≠ x → r'.own y = r.own y
  stolen : r.stolen ≤ r'.stolen
  blocked : r.blocked ≤ r'.blocked
  tail : r.tail ≤ r'.tail
  tail_owner : r'.tail = r.tail ∨ (r.own x).isSome

omit [DecidableEq τ] in
theorem StepBy.refl (x : τ) (r : Ring τ α) : StepBy x r r :=
  ⟨rfl, .inl rfl, fun _ _ => rfl, fun _ _ => rfl, le_rfl, le_rfl, le_rfl, .inl rfl⟩

theorem StepBy.setOwn (h : Option Hold) : StepBy x r (r.setOwn x h) :=
  ⟨rfl, .inl rfl, fun _ _ => rfl, fun _ hy => Function.update_of_ne hy .., le_rfl, le_rfl, le_rfl,
    .inl rfl⟩

theorem StepBy.fill {room filled : Nat} (v : α) (hown : r.own x = some (.staged room filled))
    (hlt : filled < room) : StepBy x r (r.fill x room filled v) := by
  refine ⟨rfl, .inr ⟨r.tail + filled, some v, .inr ⟨_, hown, Nat.le_add_right .., ?_⟩, rfl⟩,
    fun _ _ => rfl, fun _ hy => Function.update_of_ne hy .., le_rfl, le_rfl, le_rfl, .inl rfl⟩
  exact Nat.add_lt_add_left hlt _

theorem StepBy.commit (filled : Nat) (hown : (r.own x).isSome) : StepBy x r (r.commit x filled) :=
  ⟨rfl, .inl rfl, fun _ _ => rfl, fun _ hy => Function.update_of_ne hy .., le_rfl, le_rfl,
    Nat.le_add_right .., .inr hown⟩

theorem StepBy.claimFront (n : Nat) : StepBy x r (r.claimFront x n) :=
  ⟨rfl, .inl rfl, fun _ hy => Function.update_of_ne hy .., fun _ _ => rfl, le_rfl,
    Nat.le_add_right .., le_rfl, .inl rfl⟩

theorem StepBy.take {c : Claim} (hc : r.claim x = some c) (hlt : c.taken < c.len) :
    StepBy x r (r.take x c) := by
  refine ⟨rfl, .inr ⟨c.start + c.taken, none, .inl ⟨c, hc, Nat.le_add_right .., ?_⟩, rfl⟩,
    fun _ hy => Function.update_of_ne hy .., fun _ _ => rfl, le_rfl, le_rfl, le_rfl, .inl rfl⟩
  exact Nat.add_lt_add_left hlt _

theorem StepBy.publish (n : Nat) : StepBy x r (r.publish x n) :=
  ⟨rfl, .inl rfl, fun _ hy => Function.update_of_ne hy .., fun _ _ => rfl, Nat.le_add_right ..,
    le_rfl, le_rfl, .inl rfl⟩

section Frame

variable {r' : Ring τ α} {y : τ} {i n : Nat}

omit [DecidableEq τ] in
/-- Slots that fall on none the thread holds keep their content. -/
theorem StepBy.slot_of_not_held (h : StepBy x r r')
    (hfree : ∀ j, r.Holds x j → i % r.cap ≠ j % r.cap) : r'.slot i = r.slot i := by
  rcases h.cell with hcell | ⟨j, v, hj, hcell⟩
  · simp only [slot, hcell, h.cap]
  · simp only [slot, hcell, h.cap]
    exact Function.update_of_ne (hfree j hj) ..

omit [DecidableEq τ] in
/-- What another thread holds keeps its content. -/
theorem StepBy.slot_held (h : StepBy x r r') (hr : r.Inv) (hyx : y ≠ x) (hi : r.Holds y i) :
    r'.slot i = r.slot i :=
  h.slot_of_not_held fun _ hj => hr.holds_disjoint hyx hi hj

omit [DecidableEq τ] in
/-- What nobody has claimed keeps its content. -/
theorem StepBy.slot_unclaimed (h : StepBy x r r') (hr : r.Inv) (hi : r.blocked ≤ i)
    (hi' : i < r.tail) : r'.slot i = r.slot i := by
  have hs := hr.stolen_le
  have ht := hr.tail_le
  refine h.slot_of_not_held fun j hj hmod => ?_
  have hwin := hr.holds_window hj
  have := window_mod_inj (by omega) (by omega) hwin.1 hwin.2.1 hmod
  omega

omit [DecidableEq τ] in
/-- A transition that claims and commits nothing leaves the unclaimed list alone. -/
theorem StepBy.unclaimed_eq (h : StepBy x r r') (hr : r.Inv) (hblocked : r'.blocked = r.blocked)
    (htail : r'.tail = r.tail) : r'.unclaimed = r.unclaimed := by
  unfold unclaimed
  rw [hblocked, htail]
  exact values_congr fun k hk => h.slot_unclaimed hr (by omega) (by omega)

omit [DecidableEq τ] in
/-- The values another thread holds stay the same. -/
theorem StepBy.values_held (h : StepBy x r r') (hr : r.Inv) (hyx : y ≠ x)
    (hheld : ∀ k, k < n → r.Holds y (i + k)) : r'.values i n = r.values i n :=
  values_congr fun k hk => h.slot_held hr hyx (hheld k hk)

end Frame

/-! ## The list of unclaimed elements -/

/-- A commit appends the staged values. -/
theorem unclaimed_commit (h : r.Inv) {filled : Nat} :
    (r.commit x filled).unclaimed = r.unclaimed ++ r.values r.tail filled := by
  have hb := h.blocked_le
  show r.values r.blocked (r.tail + filled - r.blocked) = _
  have hsplit : r.tail + filled - r.blocked = (r.tail - r.blocked) + filled := by omega
  rw [hsplit, values_add, Nat.add_sub_cancel' hb]
  rfl

/-- A pop claim removes the last unclaimed element. -/
theorem unclaimed_popClaim (hlt : r.blocked < r.tail) {v : α}
    (hv : r.slot (r.tail - 1) = some v) :
    r.unclaimed = (r.popClaim x).unclaimed ++ [v] := by
  show r.values r.blocked (r.tail - r.blocked) =
    r.values r.blocked (r.tail - 1 - r.blocked) ++ [v]
  have hsplit : r.tail - r.blocked = (r.tail - 1 - r.blocked) + 1 := by omega
  rw [hsplit, values_add, show r.blocked + (r.tail - 1 - r.blocked) = r.tail - 1 by omega,
    values_one hv]

/-- A front claim removes the claimed prefix. -/
theorem unclaimed_claimFront {n : Nat} (hle : n ≤ r.tail - r.blocked) :
    r.unclaimed = r.values r.blocked n ++ (r.claimFront x n).unclaimed := by
  show r.values r.blocked (r.tail - r.blocked) =
    r.values r.blocked n ++ r.values (r.blocked + n) (r.tail - (r.blocked + n))
  rw [← values_add]
  congr 1
  omega

omit [DecidableEq τ] in
/-- A claimed prefix has one value per position. -/
theorem values_claimFront_length (h : r.Inv) {n : Nat} (hle : n ≤ r.tail - r.blocked) :
    (r.values r.blocked n).length = n :=
  values_length fun k hk => h.live _ (by omega) (by omega)

omit [DecidableEq τ] in
/-- The staged values have one value per written slot. -/
theorem values_staged_length {room filled : Nat} (h : r.Inv)
    (hown : r.own x = some (.staged room filled)) : (r.values r.tail filled).length = filled :=
  values_length fun k hk => h.own_live x _ k hown hk

/-- A write extends the staged values. -/
theorem values_fill {room filled : Nat} (h : r.Inv) (v : α)
    (hown : r.own x = some (.staged room filled)) (hlt : filled < room) :
    (r.fill x room filled v).values r.tail (filled + 1) = r.values r.tail filled ++ [v] := by
  obtain ⟨-, hroom⟩ := h.own_room x _ hown
  simp only [Hold.extent] at hroom
  have hs := h.stolen_le
  have hb := h.blocked_le
  have hslot : ∀ j, r.stolen ≤ j → j < r.stolen + r.cap →
      (r.fill x room filled v).slot j = if j = r.tail + filled then some v else r.slot j :=
    fun j hj hj' => r.slot_setSlot_window (some v) (by omega) (by omega) hj hj'
  rw [values_add]
  congr 1
  · refine values_congr fun k hk => ?_
    rw [hslot _ (by omega) (by omega), if_neg (by omega)]
  · refine values_one ?_
    rw [hslot _ (by omega) (by omega), if_pos rfl]

/-- A read takes the first of the values a claim still has. -/
theorem values_take {c : Claim} (h : r.Inv) (hc : r.claim x = some c) (hlt : c.taken < c.len)
    {v : α} (hv : r.slot (c.start + c.taken) = some v) :
    r.values (c.start + c.taken) (c.len - c.taken) =
      v :: (r.take x c).values (c.start + (c.taken + 1)) (c.len - (c.taken + 1)) := by
  have hr := h.claim_range x c hc
  have hb := h.blocked_le
  have ht := h.tail_le
  have hrest : (r.take x c).values (c.start + (c.taken + 1)) (c.len - (c.taken + 1)) =
      r.values (c.start + c.taken + 1) (c.len - (c.taken + 1)) := by
    refine values_congr fun k hk => ?_
    have hslot : (r.take x c).slot (c.start + c.taken + 1 + k) =
        if c.start + c.taken + 1 + k = c.start + c.taken then none
        else r.slot (c.start + c.taken + 1 + k) :=
      r.slot_setSlot_window none (by omega) (by omega) (by omega) (by omega)
    rw [← Nat.add_assoc, hslot, if_neg (by omega)]
  rw [hrest, show c.len - c.taken = 1 + (c.len - (c.taken + 1)) by omega, values_add, values_one hv]
  rfl

end Transitions

end Ring

end ClaimRing
end XynokConcurrency
