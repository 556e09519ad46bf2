import XynokConcurrency.Lib.ClaimRing
import XynokConcurrency.ThreadPool.WorkerQueue

/-!
# Slot ownership of the worker deque

The concrete deque, with its wrapping cursors and its operations cut at every
memory access, refines the abstract ring of {lit}`Lib.ClaimRing`: each program
point shows the ring a claim, a hold, both or nothing, and every access to the
memory is one transition of the ring or leaves it alone.

Main results:

- Definition {lit}`DequesInv`: every deque is modelled by a ring in good order.
- Theorem {lit}`DequesInv.tick`: every step of every operation keeps it.
- Theorem {lit}`DequesInv.call`: so does the start of a call, provided nobody
  else is on the owner side of that deque.
-/

namespace XynokConcurrency

open ClaimRing

variable {δ κ τ α : Type}

/-! ## What a program point shows of a deque -/

/-- The owner-side state a program point shows, on wrapped cursors. -/
inductive OwnView
  | busy
  | staged (tail : UInt32) (room filled : Nat)
  | popped (cursor : UInt32)
deriving DecidableEq

/-- A hold of the abstract ring as seen by the code. -/
def OwnView.ofHold (tail : Nat) : Hold → OwnView
  | .busy => .busy
  | .staged room filled => .staged (UInt32.ofNat tail) room filled
  | .popped => .popped (UInt32.ofNat tail)

/-- The operation has written no slot it still has to account for. -/
def OwnView.KeepsNothing : OwnView → Prop
  | .busy => True
  | .staged _ _ filled => filled = 0
  | .popped _ => False

/-- A view that keeps nothing comes from a hold that covers nothing. -/
theorem OwnView.KeepsNothing.not_covers {tail : Nat} {g : Hold}
    (h : (OwnView.ofHold tail g).KeepsNothing) (k : Nat) : ¬ g.covers k := by
  cases g with
  | busy => exact id
  | staged room filled =>
      simp only [OwnView.ofHold, OwnView.KeepsNothing] at h
      simp [Hold.covers, h]
  | popped => exact h.elim

/-- A claim as seen by the code: wrapped start, amount, and how much was read. -/
structure ClaimView where
  start : UInt32
  amount : Nat
  taken : Nat
deriving DecidableEq

/-- A claim of the abstract ring as seen by the code. -/
def ClaimView.ofClaim (c : Claim) : ClaimView :=
  ⟨UInt32.ofNat c.start, c.len, c.taken⟩

variable [DecidableEq δ]

/-- The claim a program point has on deque {lit}`d`. -/
def Op.claimAt (d : δ) : Op δ κ α → Option ClaimView
  | .stealTake v _ amount offset _ start => if v = d then some ⟨start, amount, offset⟩ else none
  | .stealWrite v _ amount offset _ start _ =>
      if v = d then some ⟨start, amount, offset + 1⟩ else none
  | .publishLoad v _ amount _ start => if v = d then some ⟨start, amount, amount⟩ else none
  | .publishCas v _ amount _ start => if v = d then some ⟨start, amount, amount⟩ else none
  | _ => none

/-- The owner-side state of deque {lit}`d` while {lit}`cursor_data` loads the
cursors of deque {lit}`e`; {lit}`tail` is what it has already loaded. -/
def Next.ownAt (d e : δ) (tail : Option UInt32) : Next δ κ α → Option OwnView
  | .stealVictim dst _ dc => if dst = d then some (.staged dc.tail dc.emptySlots 0) else none
  | .len => none
  | _ =>
      if e = d then
        match tail with
        | none => some .busy
        | some t => some (.staged t 0 0)
      else none

/-- The owner-side state a program point has on deque {lit}`d`. -/
def Op.ownAt (d : δ) : Op δ κ α → Option OwnView
  | .cursorAnchor e k => k.ownAt d e none
  | .cursorStolen e k tail _ => k.ownAt d e (some tail)
  | .pushWrite e _ c => if e = d then some (.staged c.tail 1 0) else none
  | .pushAdd e c => if e = d then some (.staged c.tail 1 1) else none
  | .popCas e _ => if e = d then some .busy else none
  | .popTake e cursor => if e = d then some (.popped cursor) else none
  | .refillLen e _ _ c => if e = d then some (.staged c.tail c.emptySlots 0) else none
  | .drainIsEmpty e _ take c => if e = d then some (.staged c.tail take 0) else none
  | .drainLock e _ take c => if e = d then some (.staged c.tail take 0) else none
  | .drainAmount e _ take c => if e = d then some (.staged c.tail take 0) else none
  | .drainFront e _ moved offset c => if e = d then some (.staged c.tail moved offset) else none
  | .drainWrite e _ moved offset c _ => if e = d then some (.staged c.tail moved offset) else none
  | .drainStoreLen e _ moved c => if e = d then some (.staged c.tail moved moved) else none
  | .drainUnlock e _ moved c => if e = d then some (.staged c.tail moved moved) else none
  | .refillAdd e moved c => if e = d then some (.staged c.tail moved moved) else none
  | .stealCas _ e amount dc _ => if e = d then some (.staged dc.tail amount 0) else none
  | .stealTake _ e amount offset dc _ => if e = d then some (.staged dc.tail amount offset) else none
  | .stealWrite _ e amount offset dc _ _ =>
      if e = d then some (.staged dc.tail amount offset) else none
  | .publishLoad _ e amount dc _ => if e = d then some (.staged dc.tail amount amount) else none
  | .publishCas _ e amount dc _ => if e = d then some (.staged dc.tail amount amount) else none
  | .stealAdd e amount dc => if e = d then some (.staged dc.tail amount amount) else none
  | _ => none

omit [DecidableEq δ] in
/-- Facts about local variables that hold at a program point whatever the memory
is: loop bounds, and the amount a steal is about to claim. -/
def Op.LocalOk : Op δ κ α → Prop
  | .popCas _ c => ¬ c.filledSlots < 1
  | .drainFront _ _ moved offset _ => offset < moved
  | .drainWrite _ _ moved offset _ _ => offset < moved
  | .stealCas _ _ amount _ vc => 0 < amount ∧ amount ≤ vc.filledSlots
  | .stealTake _ _ amount offset _ _ => offset < amount
  | .stealWrite _ _ amount offset _ _ _ => offset < amount
  | _ => True

/-! ## The refinement relation -/

/-- A deque, seen together with what every thread's program point shows of it,
is modelled by a ring whose unbounded cursors reduce to the deque's words. -/
structure Models (q : WorkerQueue α) (claims : τ → Option ClaimView)
    (owns : τ → Option OwnView) (r : Ring τ α) : Prop where
  cap : q.buffer.capacity = r.cap
  cell : q.buffer.cells = r.cell
  stolen : q.stolen = UInt32.ofNat r.stolen
  anchor : q.anchor = pack (UInt32.ofNat r.tail) (UInt32.ofNat r.blocked)
  claim : ∀ x, claims x = (r.claim x).map ClaimView.ofClaim
  own : ∀ x, owns x = (r.own x).map (OwnView.ofHold r.tail)

/-- Every deque is modelled by a ring in good order, and every program point has
sensible local variables. -/
structure DequesInv (deque : δ → WorkerQueue α) (ops : τ → Op δ κ α) : Prop where
  ring : ∀ d, ∃ r : Ring τ α, r.Inv ∧
    Models (deque d) (fun x => (ops x).claimAt d) (fun x => (ops x).ownAt d) r
  localOk : ∀ x, (ops x).LocalOk

namespace Models

variable {q : WorkerQueue α} {claims : τ → Option ClaimView} {owns : τ → Option OwnView}
  {r : Ring τ α}

/-- A claim shown by a program point is a claim of the ring. -/
theorem exists_claim (h : Models q claims owns r) {x : τ} {c : ClaimView}
    (hc : claims x = some c) :
    ∃ c', r.claim x = some c' ∧ c.start = UInt32.ofNat c'.start ∧ c.amount = c'.len ∧
      c.taken = c'.taken := by
  have := h.claim x
  rw [hc] at this
  obtain ⟨c', hc', heq⟩ := Option.map_eq_some_iff.mp this.symm
  subst heq
  exact ⟨c', hc', rfl, rfl, rfl⟩

/-- Owner-side state shown by a program point is a hold of the ring. -/
theorem exists_hold (h : Models q claims owns r) {x : τ} {v : OwnView}
    (hv : owns x = some v) : ∃ g, r.own x = some g ∧ v = OwnView.ofHold r.tail g := by
  have := h.own x
  rw [hv] at this
  obtain ⟨g, hg, heq⟩ := Option.map_eq_some_iff.mp this.symm
  exact ⟨g, hg, heq.symm⟩

theorem hold_staged (h : Models q claims owns r) {x : τ} {tail : UInt32} {room filled : Nat}
    (hv : owns x = some (.staged tail room filled)) :
    r.own x = some (.staged room filled) ∧ tail = UInt32.ofNat r.tail := by
  obtain ⟨g, hg, heq⟩ := h.exists_hold hv
  cases g with
  | busy => cases heq
  | staged room' filled' =>
      cases heq
      exact ⟨hg, rfl⟩
  | popped => cases heq

theorem hold_busy (h : Models q claims owns r) {x : τ} (hv : owns x = some .busy) :
    r.own x = some .busy := by
  obtain ⟨g, hg, heq⟩ := h.exists_hold hv
  cases g with
  | busy => exact hg
  | staged room' filled' => cases heq
  | popped => cases heq

theorem hold_popped (h : Models q claims owns r) {x : τ} {cursor : UInt32}
    (hv : owns x = some (.popped cursor)) :
    r.own x = some .popped ∧ cursor = UInt32.ofNat r.tail := by
  obtain ⟨g, hg, heq⟩ := h.exists_hold hv
  cases g with
  | busy => cases heq
  | staged room' filled' => cases heq
  | popped =>
      cases heq
      exact ⟨hg, rfl⟩

/-- The cell a wrapped cursor falls on is the slot of its position. -/
theorem cellAt_ofNat (h : Models q claims owns r) (i : Nat) :
    q.buffer.cellAt (UInt32.ofNat i) = r.slot i := by
  rw [FixedRingBuffer.cellAt, FixedRingBuffer.maskSlot_ofNat, h.cap, h.cell]
  rfl

/-- The tail and blocked cursors an anchor load returns. -/
theorem unpack_anchor (h : Models q claims owns r) :
    unpack q.anchor = (UInt32.ofNat r.tail, UInt32.ofNat r.blocked) := by
  rw [h.anchor, unpack_pack]

end Models

/-- The capacity of a modelled ring leaves room for wrapping differences. -/
theorem Models.cap_lt {q : WorkerQueue α} {claims : τ → Option ClaimView}
    {owns : τ → Option OwnView} {r : Ring τ α} (h : Models q claims owns r) :
    r.cap < 2 ^ 31 := by
  have := q.buffer.capacity_lt
  rw [h.cap] at this
  exact this

/-! ## Ring transitions on the concrete deque -/

variable [DecidableEq τ]

namespace Models

variable {q : WorkerQueue α} {claims : τ → Option ClaimView} {owns : τ → Option OwnView}
  {r : Ring τ α} {t : τ}

/-- An operation changes what it keeps. -/
theorem setOwn (h : Models q claims owns r) (g : Option Hold) :
    Models q claims (Function.update owns t (g.map (OwnView.ofHold r.tail))) (r.setOwn t g) := by
  refine ⟨h.cap, h.cell, h.stolen, h.anchor, h.claim, ?_⟩
  intro x
  by_cases hx : x = t
  · subst hx
    simp [Ring.setOwn]
  · simpa [Ring.setOwn, hx] using h.own x

/-- The owner writes the next reserved slot. -/
theorem fill (h : Models q claims owns r) (room filled : Nat) (v : α) :
    Models { q with buffer := q.buffer.write (UInt32.ofNat (r.tail + filled)) v } claims
      (Function.update owns t (some (.staged (UInt32.ofNat r.tail) room (filled + 1))))
      (r.fill t room filled v) := by
  refine ⟨h.cap, ?_, h.stolen, h.anchor, h.claim, ?_⟩
  · show Function.update q.buffer.cells _ _ = Function.update r.cell _ _
    rw [FixedRingBuffer.maskSlot_ofNat, h.cap, h.cell]
  · intro x
    by_cases hx : x = t
    · subst hx
      simp [Ring.fill, Ring.setOwn, Ring.setSlot, OwnView.ofHold]
    · simpa [Ring.fill, Ring.setOwn, Ring.setSlot, hx] using h.own x

/-- The owner moves the tail over what it has written. -/
theorem commit (h : Models q claims owns r) (filled : Nat)
    (hother : ∀ y, y ≠ t → r.own y = none) :
    Models { q with anchor := q.anchor + (UInt64.ofNat filled <<< 32) } claims
      (Function.update owns t none) (r.commit t filled) := by
  refine ⟨h.cap, h.cell, h.stolen, ?_, h.claim, ?_⟩
  · have hword := pack_add_ofNat (UInt32.ofNat r.tail) (UInt32.ofNat r.blocked) filled
    rw [← h.anchor, ← UInt32.ofNat_add] at hword
    exact hword
  · intro x
    by_cases hx : x = t
    · subst hx
      simp [Ring.commit, Ring.setOwn]
    · have := h.own x
      simp only [hother x hx, Option.map_none] at this
      simp [Ring.commit, Ring.setOwn, hx, hother x hx, this]

/-- The owner's pop wins the last unclaimed position. -/
theorem popClaim (h : Models q claims owns r) (hother : ∀ y, y ≠ t → r.own y = none)
    (hpos : 0 < r.tail) :
    Models { q with anchor := pack (UInt32.ofNat r.tail - 1) (UInt32.ofNat r.blocked) } claims
      (Function.update owns t (some (.popped (UInt32.ofNat r.tail - 1)))) (r.popClaim t) := by
  refine ⟨h.cap, h.cell, h.stolen, ?_, h.claim, ?_⟩
  · show pack _ _ = pack (UInt32.ofNat (r.tail - 1)) (UInt32.ofNat r.blocked)
    rw [ofNat_sub_one hpos]
  · intro x
    by_cases hx : x = t
    · subst hx
      simp [Ring.popClaim, Ring.setOwn, OwnView.ofHold, ofNat_sub_one hpos]
    · have := h.own x
      simp only [hother x hx, Option.map_none] at this
      simp [Ring.popClaim, Ring.setOwn, hx, hother x hx, this]

/-- The owner's pop reads the position it won. -/
theorem popTake (h : Models q claims owns r) :
    Models { q with buffer := q.buffer.clearAt (UInt32.ofNat r.tail) } claims
      (Function.update owns t none) (r.popTake t) := by
  refine ⟨h.cap, ?_, h.stolen, h.anchor, h.claim, ?_⟩
  · show Function.update q.buffer.cells _ _ = Function.update r.cell _ _
    rw [FixedRingBuffer.maskSlot_ofNat, h.cap, h.cell]
  · intro x
    by_cases hx : x = t
    · subst hx
      simp [Ring.popTake, Ring.setOwn, Ring.setSlot]
    · simpa [Ring.popTake, Ring.setOwn, Ring.setSlot, hx] using h.own x

/-- A thief's CAS wins the front of the unclaimed positions. -/
theorem claimFront (h : Models q claims owns r) (n : Nat) :
    Models
      { q with anchor := pack (UInt32.ofNat r.tail) (UInt32.ofNat r.blocked + UInt32.ofNat n) }
      (Function.update claims t (some ⟨UInt32.ofNat r.blocked, n, 0⟩)) owns
      (r.claimFront t n) := by
  refine ⟨h.cap, h.cell, h.stolen, ?_, ?_, h.own⟩
  · show pack _ _ = pack (UInt32.ofNat r.tail) (UInt32.ofNat (r.blocked + n))
    rw [UInt32.ofNat_add]
  · intro x
    by_cases hx : x = t
    · subst hx
      simp [Ring.claimFront, Ring.setClaim, ClaimView.ofClaim]
    · simpa [Ring.claimFront, Ring.setClaim, hx] using h.claim x

/-- A thief reads its next claimed position. -/
theorem take (h : Models q claims owns r) (c : Claim) :
    Models
      { q with buffer := q.buffer.clearAt (UInt32.ofNat (c.start + c.taken)) }
      (Function.update claims t (some ⟨UInt32.ofNat c.start, c.len, c.taken + 1⟩)) owns
      (r.take t c) := by
  refine ⟨h.cap, ?_, h.stolen, h.anchor, ?_, h.own⟩
  · show Function.update q.buffer.cells _ _ = Function.update r.cell _ _
    rw [FixedRingBuffer.maskSlot_ofNat, h.cap, h.cell]
  · intro x
    by_cases hx : x = t
    · subst hx
      simp [Ring.take, Ring.setClaim, ClaimView.ofClaim]
    · simpa [Ring.take, Ring.setClaim, Ring.setSlot, hx] using h.claim x

/-- A thief gives its finished claim back. -/
theorem publish (h : Models q claims owns r) (n : Nat) :
    Models { q with stolen := UInt32.ofNat r.stolen + UInt32.ofNat n }
      (Function.update claims t none) owns (r.publish t n) := by
  refine ⟨h.cap, h.cell, ?_, h.anchor, ?_, h.own⟩
  · show _ = UInt32.ofNat (r.stolen + n)
    rw [UInt32.ofNat_add]
  · intro x
    by_cases hx : x = t
    · subst hx
      simp [Ring.publish, Ring.setClaim]
    · simpa [Ring.publish, Ring.setClaim, hx] using h.claim x

end Models

/-! ## One thread changes its view of one deque -/

namespace DequesInv

variable {deque : δ → WorkerQueue α} {ops : τ → Op δ κ α} {t : τ} {o : Op δ κ α} {d : δ}

/-- A step that replaces one deque, and whose thread shows the other deques what
it showed them before, keeps the invariant if that deque is modelled again. -/
theorem update (h : DequesInv deque ops) (q : WorkerQueue α)
    (hclaim : ∀ e, e ≠ d → o.claimAt e = (ops t).claimAt e)
    (hown : ∀ e, e ≠ d → o.ownAt e = (ops t).ownAt e) (hlocal : o.LocalOk)
    (hd : ∀ r : Ring τ α, r.Inv →
      Models (deque d) (fun x => (ops x).claimAt d) (fun x => (ops x).ownAt d) r →
      ∃ r' : Ring τ α, r'.Inv ∧
        Models q (Function.update (fun x => (ops x).claimAt d) t (o.claimAt d))
          (Function.update (fun x => (ops x).ownAt d) t (o.ownAt d)) r') :
    DequesInv (Function.update deque d q) (Function.update ops t o) := by
  have hview : ∀ {ρ : Type} (f : Op δ κ α → ρ),
      (fun x => f (Function.update ops t o x)) = Function.update (fun x => f (ops x)) t (f o) := by
    intro ρ f
    funext x
    by_cases hx : x = t
    · subst hx
      simp
    · simp [hx]
  constructor
  · intro e
    obtain ⟨r, hr, hm⟩ := h.ring e
    rw [hview (fun p => p.claimAt e), hview (fun p => p.ownAt e)]
    by_cases he : e = d
    · subst he
      simpa using hd r hr hm
    · refine ⟨r, hr, ?_⟩
      rw [Function.update_of_ne he, hclaim e he, hown e he]
      have hc : Function.update (fun x => (ops x).claimAt e) t ((ops t).claimAt e) =
          fun x => (ops x).claimAt e := Function.update_eq_self t _
      have ho : Function.update (fun x => (ops x).ownAt e) t ((ops t).ownAt e) =
          fun x => (ops x).ownAt e := Function.update_eq_self t _
      rw [hc, ho]
      exact hm
  · intro x
    by_cases hx : x = t
    · subst hx
      simpa using hlocal
    · simpa [hx] using h.localOk x

/-- A step that leaves the deques alone and shows them what it showed before. -/
theorem same (h : DequesInv deque ops) (hclaim : ∀ e, o.claimAt e = (ops t).claimAt e)
    (hown : ∀ e, o.ownAt e = (ops t).ownAt e) (hlocal : o.LocalOk) :
    DequesInv deque (Function.update ops t o) := by
  constructor
  · intro e
    obtain ⟨r, hr, hm⟩ := h.ring e
    refine ⟨r, hr, ?_⟩
    have hc : (fun x => (Function.update ops t o x).claimAt e) = fun x => (ops x).claimAt e := by
      funext x
      by_cases hx : x = t
      · subst hx
        simp [hclaim e]
      · simp [hx]
    have ho : (fun x => (Function.update ops t o x).ownAt e) = fun x => (ops x).ownAt e := by
      funext x
      by_cases hx : x = t
      · subst hx
        simp [hown e]
      · simp [hx]
    rw [hc, ho]
    exact hm
  · intro x
    by_cases hx : x = t
    · subst hx
      simpa using hlocal
    · simpa [hx] using h.localOk x

/-- A step on the owner side of one deque: no claim changes. -/
theorem updateOwn (h : DequesInv deque ops) (q : WorkerQueue α)
    (hclaim : ∀ e, o.claimAt e = (ops t).claimAt e)
    (hown : ∀ e, e ≠ d → o.ownAt e = (ops t).ownAt e) (hlocal : o.LocalOk)
    (hd : ∀ r : Ring τ α, r.Inv →
      Models (deque d) (fun x => (ops x).claimAt d) (fun x => (ops x).ownAt d) r →
      ∃ r' : Ring τ α, r'.Inv ∧ Models q (fun x => (ops x).claimAt d)
        (Function.update (fun x => (ops x).ownAt d) t (o.ownAt d)) r') :
    DequesInv (Function.update deque d q) (Function.update ops t o) := by
  refine h.update q (fun e _ => hclaim e) hown hlocal ?_
  intro r hr hm
  rw [hclaim d, show Function.update (fun x => (ops x).claimAt d) t ((ops t).claimAt d) =
    fun x => (ops x).claimAt d from Function.update_eq_self t _]
  exact hd r hr hm

/-- A step on the thief side of one deque: no owner-side state changes. -/
theorem updateClaim (h : DequesInv deque ops) (q : WorkerQueue α)
    (hclaim : ∀ e, e ≠ d → o.claimAt e = (ops t).claimAt e)
    (hown : ∀ e, o.ownAt e = (ops t).ownAt e) (hlocal : o.LocalOk)
    (hd : ∀ r : Ring τ α, r.Inv →
      Models (deque d) (fun x => (ops x).claimAt d) (fun x => (ops x).ownAt d) r →
      ∃ r' : Ring τ α, r'.Inv ∧
        Models q (Function.update (fun x => (ops x).claimAt d) t (o.claimAt d))
          (fun x => (ops x).ownAt d) r') :
    DequesInv (Function.update deque d q) (Function.update ops t o) := by
  refine h.update q hclaim (fun e _ => hown e) hlocal ?_
  intro r hr hm
  rw [hown d, show Function.update (fun x => (ops x).ownAt d) t ((ops t).ownAt d) =
    fun x => (ops x).ownAt d from Function.update_eq_self t _]
  exact hd r hr hm

/-- An owner-side operation that has written nothing changes what it knows, or
ends. -/
theorem restage {v : OwnView} (h : DequesInv deque ops)
    (hclaim : ∀ e, o.claimAt e = (ops t).claimAt e)
    (hown : ∀ e, e ≠ d → o.ownAt e = (ops t).ownAt e) (hlocal : o.LocalOk)
    (hold : (ops t).ownAt d = some v) (hv : v.KeepsNothing)
    (hnew : ∀ r : Ring τ α, r.Inv →
      Models (deque d) (fun x => (ops x).claimAt d) (fun x => (ops x).ownAt d) r →
      ∃ g : Option Hold, o.ownAt d = g.map (OwnView.ofHold r.tail) ∧
        ∀ g', g = some g' → g'.Fits ∧ r.tail + g'.extent ≤ r.stolen + r.cap ∧
          ∀ k, ¬ g'.covers k) :
    DequesInv deque (Function.update ops t o) := by
  have hself : Function.update deque d (deque d) = deque := Function.update_eq_self d _
  rw [← hself]
  refine h.updateOwn (deque d) hclaim hown hlocal ?_
  intro r hr hm
  obtain ⟨g, hg, hfit⟩ := hnew r hr hm
  obtain ⟨g₀, hg₀, hv₀⟩ := hm.exists_hold hold
  refine ⟨r.setOwn t g, hr.setOwn ?_ ?_ hfit, ?_⟩
  · intro y hy
    exact hr.own_eq_none_of_ne (by simp [hg₀]) hy
  · intro g₁ k hg₁
    rw [hg₀] at hg₁
    cases hg₁
    rw [hv₀] at hv
    exact hv.not_covers k
  · rw [hg]
    exact hm.setOwn g

omit [DecidableEq τ] in
/-- A snapshot that starts with the owner's own tail counts the free slots of
the moment its stolen cursor was loaded. -/
theorem emptySlots_le {r : Ring τ α} (hr : r.Inv)
    (hm : Models (deque d) (fun x => (ops x).claimAt d) (fun x => (ops x).ownAt d) r)
    (blocked : UInt32) :
    r.tail + (CursorData.mk (deque d).stolen blocked (UInt32.ofNat r.tail)
      ((deque d).buffer.mask + 1) (deque d).buffer.mask).emptySlots ≤ r.stolen + r.cap := by
  have hcap : (deque d).buffer.mask + 1 = UInt32.ofNat r.cap := by
    rw [← hm.cap, FixedRingBuffer.capacity, UInt32.ofNat_add, UInt32.ofNat_toNat]
    rfl
  have hlt := hm.cap_lt
  have hle := hr.tail_le
  have hst := Nat.le_trans hr.stolen_le hr.blocked_le
  rw [CursorData.emptySlots_ofNat (s := r.stolen) (t := r.tail) hcap (by omega)
    hm.stolen rfl hst hle]
  omega

/-! ## The steps, by what they do to the ring -/

/-- Writing the next reserved slot. -/
theorem fillStep {tail cursor : UInt32} {room filled : Nat} (h : DequesInv deque ops) (v : α)
    (hclaim : ∀ e, o.claimAt e = (ops t).claimAt e)
    (hown : ∀ e, e ≠ d → o.ownAt e = (ops t).ownAt e) (hlocal : o.LocalOk)
    (hold : (ops t).ownAt d = some (.staged tail room filled)) (hlt : filled < room)
    (hcursor : cursor = tail + UInt32.ofNat filled)
    (hnew : o.ownAt d = some (.staged tail room (filled + 1))) :
    DequesInv
      (Function.update deque d { deque d with buffer := (deque d).buffer.write cursor v })
      (Function.update ops t o) := by
  refine h.updateOwn _ hclaim hown hlocal ?_
  intro r hr hm
  obtain ⟨hg, rfl⟩ := hm.hold_staged hold
  refine ⟨r.fill t room filled v, hr.fill v hg hlt, ?_⟩
  rw [hnew, hcursor, ← UInt32.ofNat_add]
  exact hm.fill room filled v

/-- Moving the tail over what was written ends the operation. -/
theorem commitStep {tail : UInt32} {room filled : Nat} (h : DequesInv deque ops)
    (hclaim : ∀ e, o.claimAt e = (ops t).claimAt e)
    (hown : ∀ e, e ≠ d → o.ownAt e = (ops t).ownAt e) (hlocal : o.LocalOk)
    (hold : (ops t).ownAt d = some (.staged tail room filled)) (hnew : o.ownAt d = none) :
    DequesInv
      (Function.update deque d
        { deque d with anchor := (deque d).anchor + (UInt64.ofNat filled <<< 32) })
      (Function.update ops t o) := by
  refine h.updateOwn _ hclaim hown hlocal ?_
  intro r hr hm
  obtain ⟨hg, _⟩ := hm.hold_staged hold
  refine ⟨r.commit t filled, hr.commit hg, ?_⟩
  rw [hnew]
  exact hm.commit filled fun y hy => hr.own_eq_none_of_ne (by simp [hg]) hy

/-- The CAS of {lit}`pop` succeeds. -/
theorem popCasStep {c : CursorData} (h : DequesInv deque ops) (hop : ops t = .popCas d c)
    (hcas : (deque d).anchor = pack c.tail c.blocked) :
    DequesInv
      (Function.update deque d { deque d with anchor := pack (c.tail - 1) c.blocked })
      (Function.update ops t (.popTake d (c.tail - 1))) := by
  have hfilled : ¬ c.filledSlots < 1 := by
    have := h.localOk t
    rwa [hop] at this
  refine h.updateOwn _ (fun e => by rw [hop]; rfl) ?_ trivial ?_
  · intro e he
    rw [hop]
    simp [Op.ownAt, Ne.symm he]
  · intro r hr hm
    have hg : r.own t = some .busy := hm.hold_busy (by simp [hop, Op.ownAt])
    rw [hm.anchor] at hcas
    obtain ⟨htail, hblocked⟩ := pack_inj hcas
    have hbt := hr.blocked_le
    have hcap := hm.cap_lt
    have hle := hr.tail_le
    have hsb := hr.stolen_le
    rw [CursorData.filledSlots_ofNat hblocked.symm htail.symm hbt (by omega)] at hfilled
    refine ⟨r.popClaim t, hr.popClaim hg (fun k => id) (by omega), ?_⟩
    have hown : Op.ownAt d (Op.popTake d (c.tail - 1) : Op δ κ α) =
        some (.popped (c.tail - 1)) := by simp [Op.ownAt]
    rw [hown, ← htail, ← hblocked]
    exact hm.popClaim (fun y hy => hr.own_eq_none_of_ne (by simp [hg]) hy) (by omega)

/-- {lit}`pop` reads the slot it won. -/
theorem popTakeStep {cursor : UInt32} (h : DequesInv deque ops)
    (hop : ops t = .popTake d cursor) (res : QueueRes α) :
    DequesInv
      (Function.update deque d { deque d with buffer := (deque d).buffer.clearAt cursor })
      (Function.update ops t (.done res)) := by
  refine h.updateOwn _ (fun e => by rw [hop]; rfl) ?_ trivial ?_
  · intro e he
    rw [hop]
    simp [Op.ownAt, Ne.symm he]
  · intro r hr hm
    have hown : (ops t).ownAt d = some (.popped cursor) := by simp [hop, Op.ownAt]
    obtain ⟨hg, rfl⟩ := hm.hold_popped hown
    exact ⟨r.popTake t, hr.popTake hg, hm.popTake⟩

/-- The only CAS of a steal succeeds. -/
theorem stealCasStep {dst : δ} {amount : Nat} {dc vc : CursorData} (h : DequesInv deque ops)
    (hop : ops t = .stealCas d dst amount dc vc)
    (hcas : (deque d).anchor = pack vc.tail vc.blocked) :
    DequesInv
      (Function.update deque d
        { deque d with anchor := pack vc.tail (vc.blocked + UInt32.ofNat amount) })
      (Function.update ops t (.stealLoop d dst amount 0 dc vc.blocked)) := by
  obtain ⟨hpos, hle⟩ : 0 < amount ∧ amount ≤ vc.filledSlots := by
    have := h.localOk t
    rwa [hop] at this
  have hloop : (Op.stealLoop d dst amount 0 dc vc.blocked : Op δ κ α) =
      .stealTake d dst amount 0 dc vc.blocked := if_pos hpos
  rw [hloop]
  refine h.updateClaim _ ?_ (fun e => by rw [hop]; rfl) hpos ?_
  · intro e he
    rw [hop]
    simp [Op.claimAt, Ne.symm he]
  · intro r hr hm
    have hnone : r.claim t = none := by
      have := hm.claim t
      simpa [hop, Op.claimAt] using this.symm
    rw [hm.anchor] at hcas
    obtain ⟨htail, hblocked⟩ := pack_inj hcas
    have hbt := hr.blocked_le
    have hcap := hm.cap_lt
    have htl := hr.tail_le
    have hsb := hr.stolen_le
    rw [CursorData.filledSlots_ofNat hblocked.symm htail.symm hbt (by omega)] at hle
    refine ⟨r.claimFront t amount, hr.claimFront hnone hpos hle, ?_⟩
    have hclaim : Op.claimAt d (Op.stealTake d dst amount 0 dc vc.blocked : Op δ κ α) =
        some ⟨vc.blocked, amount, 0⟩ := by simp [Op.claimAt]
    rw [hclaim, ← htail, ← hblocked]
    exact hm.claimFront amount

/-- A thief reads its next claimed slot. -/
theorem stealTakeStep {dst : δ} {amount offset : Nat} {dc : CursorData} {start : UInt32}
    (h : DequesInv deque ops) (hop : ops t = .stealTake d dst amount offset dc start) (v : α) :
    DequesInv
      (Function.update deque d
        { deque d with buffer := (deque d).buffer.clearAt (start + UInt32.ofNat offset) })
      (Function.update ops t (.stealWrite d dst amount offset dc start v)) := by
  have hlt : offset < amount := by
    have := h.localOk t
    rwa [hop] at this
  refine h.updateClaim _ ?_ (fun e => by rw [hop]; rfl) hlt ?_
  · intro e he
    rw [hop]
    simp [Op.claimAt, Ne.symm he]
  · intro r hr hm
    obtain ⟨c, hc, hstart, hlen, htaken⟩ := hm.exists_claim (x := t)
      (c := ⟨start, amount, offset⟩) (by simp [hop, Op.claimAt])
    simp only at hstart hlen htaken
    subst hstart hlen htaken
    refine ⟨r.take t c, hr.take hc hlt, ?_⟩
    have hclaim : Op.claimAt d
        (Op.stealWrite d dst c.len c.taken dc (UInt32.ofNat c.start) v : Op δ κ α) =
        some ⟨UInt32.ofNat c.start, c.len, c.taken + 1⟩ := by simp [Op.claimAt]
    rw [hclaim, ← UInt32.ofNat_add]
    exact hm.take c

/-- The CAS of {lit}`consumer_publish_stolen` succeeds: the claim it gives back
is the first one. -/
theorem publishCasStep {dst : δ} {amount : Nat} {dc : CursorData} {start : UInt32}
    (h : DequesInv deque ops) (hop : ops t = .publishCas d dst amount dc start)
    (hcas : (deque d).stolen = start) :
    DequesInv
      (Function.update deque d { deque d with stolen := start + UInt32.ofNat amount })
      (Function.update ops t (.stealAdd dst amount dc)) := by
  refine h.updateClaim _ ?_ (fun e => by rw [hop]; rfl) trivial ?_
  · intro e he
    rw [hop]
    simp [Op.claimAt, Ne.symm he]
  · intro r hr hm
    obtain ⟨c, hc, hstart, hlen, htaken⟩ := hm.exists_claim (x := t)
      (c := ⟨start, amount, amount⟩) (by simp [hop, Op.claimAt])
    simp only at hstart hlen htaken
    subst hlen
    have hrange := hr.claim_range t c hc
    have hcap := hm.cap_lt
    have htl := hr.tail_le
    have hbt := hr.blocked_le
    have hfirst : c.start = r.stolen := by
      have hsame : UInt32.ofNat r.stolen = UInt32.ofNat c.start := by
        rw [← hm.stolen, hcas, hstart]
      exact (ofNat_inj_of_lt hrange.1 (by omega) hsame).symm
    refine ⟨r.publish t c.len, hr.publish hc htaken.symm hfirst, ?_⟩
    have hclaim : Op.claimAt d (Op.stealAdd dst c.len dc : Op δ κ α) = none := rfl
    rw [hclaim, hstart, hfirst]
    exact hm.publish c.len

omit [DecidableEq τ] in
/-- The views and local facts at the head of the loop of {lit}`pop`. -/
theorem popLoop_view (c : CursorData) :
    (∀ e, (Op.popLoop d c : Op δ κ α).claimAt e = none) ∧
      (∀ e, e ≠ d → (Op.popLoop d c : Op δ κ α).ownAt e = none) ∧
      ((Op.popLoop d c : Op δ κ α).ownAt d = none ∨
        (Op.popLoop d c : Op δ κ α).ownAt d = some .busy) ∧
      (Op.popLoop d c : Op δ κ α).LocalOk := by
  unfold Op.popLoop
  split
  · exact ⟨fun _ => rfl, fun _ _ => rfl, .inl rfl, trivial⟩
  · rename_i hfilled
    refine ⟨fun _ => rfl, fun e he => ?_, .inr ?_, hfilled⟩
    · simp [Op.ownAt, Ne.symm he]
    · simp [Op.ownAt]

/-- A pop starts its loop, over or again, with whatever cursors it has read. -/
theorem popLoopStep {v : OwnView} (h : DequesInv deque ops) (c : CursorData)
    (hclaim : ∀ e, (ops t).claimAt e = none) (hown : ∀ e, e ≠ d → (ops t).ownAt e = none)
    (hold : (ops t).ownAt d = some v) (hv : v.KeepsNothing) :
    DequesInv deque (Function.update ops t (.popLoop d c)) := by
  obtain ⟨hc, ho, hd, hlocal⟩ := popLoop_view (δ := δ) (κ := κ) (α := α) (d := d) c
  refine h.restage (fun e => by rw [hc, hclaim]) (fun e he => by rw [ho e he, hown e he])
    hlocal hold hv ?_
  intro r hr hm
  rcases hd with hd | hd
  · exact ⟨none, by simp [hd], by simp⟩
  · refine ⟨some .busy, by simp [hd, OwnView.ofHold], ?_⟩
    rintro g' ⟨⟩
    have htl := hr.tail_le
    exact ⟨trivial, by simpa [Hold.extent] using htl, fun k => id⟩

/-- The owner's cursor load: from now on it knows its own tail. -/
theorem anchorLoadStep {k : Next δ κ α} (h : DequesInv deque ops)
    (hop : ops t = .cursorAnchor d k) :
    DequesInv deque (Function.update ops t
      (.cursorStolen d k (unpack (deque d).anchor).1 (unpack (deque d).anchor).2)) := by
  have hstage : ∀ o' : Op δ κ α,
      o' = .cursorStolen d k (unpack (deque d).anchor).1 (unpack (deque d).anchor).2 →
      k.ownAt d d none = some .busy →
      (∀ e, e ≠ d → k.ownAt e d none = none ∧ k.ownAt e d (some (unpack (deque d).anchor).1) = none) →
      k.ownAt d d (some (unpack (deque d).anchor).1) =
        some (.staged (unpack (deque d).anchor).1 0 0) →
      DequesInv deque (Function.update ops t o') := by
    rintro o' rfl hbusy hother hnew
    refine h.restage (fun e => by rw [hop]; rfl) ?_ trivial (d := d) (v := .busy) ?_ trivial ?_
    · intro e he
      rw [hop]
      simp only [Op.ownAt, hother e he]
    · simpa [hop, Op.ownAt] using hbusy
    · intro r hr hm
      refine ⟨some (.staged 0 0), ?_, ?_⟩
      · simp only [Op.ownAt, hnew, Option.map_some, OwnView.ofHold]
        rw [hm.unpack_anchor]
      · rintro g' ⟨⟩
        have htl := hr.tail_le
        exact ⟨Nat.le_refl _, by simpa [Hold.extent] using htl, fun k => by simp [Hold.covers]⟩
  cases k with
  | stealVictim dst max dc =>
      exact h.same (fun e => by rw [hop]; rfl) (fun e => by rw [hop]; rfl) trivial
  | len => exact h.same (fun e => by rw [hop]; rfl) (fun e => by rw [hop]; rfl) trivial
  | push val =>
      exact hstage _ rfl (by simp [Next.ownAt])
        (fun e he => by simp [Next.ownAt, Ne.symm he]) (by simp [Next.ownAt])
  | refill max src =>
      exact hstage _ rfl (by simp [Next.ownAt])
        (fun e he => by simp [Next.ownAt, Ne.symm he]) (by simp [Next.ownAt])
  | pop =>
      exact hstage _ rfl (by simp [Next.ownAt])
        (fun e he => by simp [Next.ownAt, Ne.symm he]) (by simp [Next.ownAt])
  | stealDst victim max =>
      exact hstage _ rfl (by simp [Next.ownAt])
        (fun e he => by simp [Next.ownAt, Ne.symm he]) (by simp [Next.ownAt])

/-- An owner that knows its tail reserves at most the free slots it counted. -/
theorem reserveStep {tail : UInt32} {room : Nat} (h : DequesInv deque ops) (blocked : UInt32)
    (hclaim : ∀ e, o.claimAt e = (ops t).claimAt e)
    (hown : ∀ e, e ≠ d → o.ownAt e = (ops t).ownAt e) (hlocal : o.LocalOk)
    (hold : (ops t).ownAt d = some (.staged tail 0 0))
    (hroom : room ≤ (CursorData.mk (deque d).stolen blocked tail
      ((deque d).buffer.mask + 1) (deque d).buffer.mask).emptySlots)
    (hnew : o.ownAt d = some (.staged tail room 0)) :
    DequesInv deque (Function.update ops t o) := by
  refine h.restage hclaim hown hlocal hold rfl ?_
  intro r hr hm
  obtain ⟨_, rfl⟩ := hm.hold_staged hold
  have hle := emptySlots_le hr hm blocked
  refine ⟨some (.staged room 0), by simp [hnew, OwnView.ofHold], ?_⟩
  rintro g' ⟨⟩
  exact ⟨Nat.zero_le _, by simp only [Hold.extent]; omega, fun k => by simp [Hold.covers]⟩

/-- An operation that has written nothing ends. -/
theorem endStep {v : OwnView} (h : DequesInv deque ops)
    (hclaim : ∀ e, o.claimAt e = (ops t).claimAt e)
    (hown : ∀ e, e ≠ d → o.ownAt e = (ops t).ownAt e) (hlocal : o.LocalOk)
    (hold : (ops t).ownAt d = some v) (hv : v.KeepsNothing) (hnew : o.ownAt d = none) :
    DequesInv deque (Function.update ops t o) := by
  refine h.restage hclaim hown hlocal hold hv ?_
  intro r _ _
  exact ⟨none, by simp [hnew], by simp⟩

/-- An operation that has written nothing gives part of its room back. -/
theorem shrinkStep {tail : UInt32} {room room' : Nat} (h : DequesInv deque ops)
    (hclaim : ∀ e, o.claimAt e = (ops t).claimAt e)
    (hown : ∀ e, e ≠ d → o.ownAt e = (ops t).ownAt e) (hlocal : o.LocalOk)
    (hold : (ops t).ownAt d = some (.staged tail room 0)) (hle : room' ≤ room)
    (hnew : o.ownAt d = some (.staged tail room' 0)) :
    DequesInv deque (Function.update ops t o) := by
  refine h.restage hclaim hown hlocal hold rfl ?_
  intro r hr hm
  obtain ⟨hg, rfl⟩ := hm.hold_staged hold
  have hroom := (hr.own_room t _ hg).2
  refine ⟨some (.staged room' 0), by simp [hnew, OwnView.ofHold], ?_⟩
  rintro g' ⟨⟩
  simp only [Hold.extent] at hroom
  exact ⟨Nat.zero_le _, by simp only [Hold.extent]; omega, fun k => by simp [Hold.covers]⟩

/-- The second load of {lit}`cursor_data` and the branch the call takes on it. -/
theorem stolenLoadStep {k : Next δ κ α} {tail blocked : UInt32} (h : DequesInv deque ops)
    (hop : ops t = .cursorStolen d k tail blocked) :
    DequesInv deque (Function.update ops t
      (.afterCursorData d ⟨(deque d).stolen, blocked, tail, (deque d).buffer.mask + 1,
        (deque d).buffer.mask⟩ k)) := by
  have hclaim : ∀ e, (ops t).claimAt e = none := fun e => by rw [hop]; rfl
  cases k with
  | push val =>
      have hold : (ops t).ownAt d = some (.staged tail 0 0) := by simp [hop, Op.ownAt, Next.ownAt]
      have hne : ∀ e, e ≠ d → (ops t).ownAt e = none :=
        fun e he => by simp [hop, Op.ownAt, Next.ownAt, Ne.symm he]
      simp only [Op.afterCursorData]
      split
      · exact h.endStep (fun e => (hclaim e).symm) (fun e he => (hne e he).symm) trivial hold rfl rfl
      · exact h.reserveStep blocked (fun e => (hclaim e).symm)
          (fun e he => by rw [hne e he]; simp [Op.ownAt, Ne.symm he]) trivial hold
          (Nat.le_of_not_lt (by assumption)) (by simp [Op.ownAt])
  | refill max src =>
      have hold : (ops t).ownAt d = some (.staged tail 0 0) := by simp [hop, Op.ownAt, Next.ownAt]
      refine h.reserveStep blocked (fun e => (hclaim e).symm) ?_ trivial hold (Nat.le_refl _) ?_
      · intro e he
        simp [Op.afterCursorData, hop, Op.ownAt, Next.ownAt, Ne.symm he]
      · simp [Op.afterCursorData, Op.ownAt]
  | pop =>
      refine h.popLoopStep _ hclaim ?_ (v := .staged tail 0 0) ?_ rfl
      · intro e he
        simp [hop, Op.ownAt, Next.ownAt, Ne.symm he]
      · simp [hop, Op.ownAt, Next.ownAt]
  | stealDst victim max =>
      have hold : (ops t).ownAt d = some (.staged tail 0 0) := by simp [hop, Op.ownAt, Next.ownAt]
      refine h.reserveStep blocked (fun e => (hclaim e).symm) ?_ trivial hold (Nat.le_refl _) ?_
      · intro e he
        simp [Op.afterCursorData, hop, Op.ownAt, Next.ownAt, Ne.symm he]
      · simp [Op.afterCursorData, Op.ownAt, Next.ownAt]
  | stealVictim dst max dc =>
      have hold : (ops t).ownAt dst = some (.staged dc.tail dc.emptySlots 0) := by
        simp [hop, Op.ownAt, Next.ownAt]
      have hne : ∀ e, e ≠ dst → (ops t).ownAt e = none :=
        fun e he => by simp [hop, Op.ownAt, Next.ownAt, Ne.symm he]
      simp only [Op.afterCursorData]
      split
      · exact h.endStep (fun e => (hclaim e).symm) (fun e he => (hne e he).symm) trivial hold rfl rfl
      · rename_i hamount
        exact h.shrinkStep (d := dst) (fun e => (hclaim e).symm)
          (fun e he => by rw [hne e he]; simp [Op.ownAt, Ne.symm he])
          ⟨by omega, Nat.min_le_right _ _⟩ hold (by omega) (if_pos rfl)
  | len => exact h.same (fun e => (hclaim e).symm) (fun e => by rw [hop]; rfl) trivial

/-- Every step of every operation keeps the deques in order. -/
theorem tick [DecidableEq κ] {m m' : Queues δ κ τ α} {spurious : Bool}
    {i : QInstr δ κ α (Op δ κ α)} (h : DequesInv m.deque ops)
    (hi : (ops t).instr spurious = some i) (hx : i.exec t m = some (m', o)) :
    DequesInv m'.deque (Function.update ops t o) := by
  have hlocal := h.localOk t
  cases hop : ops t <;> rw [hop] at hi hlocal <;> simp only [Op.instr] at hi
  case idle => cases hi
  case done => cases hi
  case cursorAnchor d k =>
    cases hi
    cases hx
    exact h.anchorLoadStep hop
  case cursorStolen d k tail blocked =>
    cases hi
    cases hx
    exact h.stolenLoadStep hop
  case pushWrite d val c =>
    cases hi
    cases hx
    have hold : (ops t).ownAt d = some (.staged c.tail 1 0) := by simp [hop, Op.ownAt]
    refine h.fillStep val (fun e => by rw [hop]; rfl) (fun e he => ?_) trivial
      hold (by omega) (by simp) ?_
    · simp [hop, Op.ownAt, Ne.symm he]
    · simp [Op.ownAt]
  case pushAdd d c =>
    cases hi
    cases hx
    have hold : (ops t).ownAt d = some (.staged c.tail 1 1) := by simp [hop, Op.ownAt]
    refine h.commitStep (fun e => by rw [hop]; rfl) (fun e he => ?_) trivial
      hold rfl
    · simp [hop, Op.ownAt, Ne.symm he]
  case popCas d c =>
    have hclaim : ∀ e, (ops t).claimAt e = none := fun e => by rw [hop]; rfl
    have hne : ∀ e, e ≠ d → (ops t).ownAt e = none :=
      fun e he => by simp [hop, Op.ownAt, Ne.symm he]
    have hold : (ops t).ownAt d = some .busy := by simp [hop, Op.ownAt]
    split at hi <;> cases hi
    · cases hx
      exact h.popLoopStep _ hclaim hne hold trivial
    · simp only [QInstr.exec] at hx
      split at hx <;> cases hx
      · rename_i hcas
        exact h.popCasStep hop hcas
      · exact h.popLoopStep _ hclaim hne hold trivial
  case popTake d cursor =>
    cases hi
    simp only [QInstr.exec] at hx
    split at hx <;> cases hx
    exact h.popTakeStep hop _
  case refillLen d max src c =>
    cases hi
    cases hx
    have hold : (ops t).ownAt d = some (.staged c.tail c.emptySlots 0) := by simp [hop, Op.ownAt]
    have hne : ∀ e, e ≠ d → (ops t).ownAt e = none :=
      fun e he => by simp [hop, Op.ownAt, Ne.symm he]
    dsimp only
    split
    · exact h.endStep (fun e => by rw [hop]; rfl) (fun e he => (hne e he).symm) trivial hold rfl rfl
    · exact h.shrinkStep (fun e => by rw [hop]; rfl)
        (fun e he => by rw [hne e he]; simp [Op.ownAt, Ne.symm he]) trivial hold (by omega)
        (if_pos rfl)
  case drainIsEmpty d src take c =>
    cases hi
    cases hx
    have hold : (ops t).ownAt d = some (.staged c.tail take 0) := by simp [hop, Op.ownAt]
    dsimp only
    split
    · refine h.endStep (fun e => by rw [hop]; rfl) (fun e he => ?_) trivial hold rfl rfl
      simp [hop, Op.ownAt, Ne.symm he]
    · exact h.same (fun e => by rw [hop]; rfl) (fun e => by rw [hop]; rfl) trivial
  case drainLock d src take c =>
    cases hi
    simp only [QInstr.exec] at hx
    split at hx <;> cases hx
    exact h.same (fun e => by rw [hop]; rfl) (fun e => by rw [hop]; rfl) trivial
  case drainAmount d src take c =>
    cases hi
    cases hx
    have hold : (ops t).ownAt d = some (.staged c.tail take 0) := by simp [hop, Op.ownAt]
    have hne : ∀ e, e ≠ d → (ops t).ownAt e = none :=
      fun e he => by simp [hop, Op.ownAt, Ne.symm he]
    dsimp only
    unfold Op.drainLoop
    split
    · rename_i hpos
      exact h.shrinkStep (fun e => by rw [hop]; rfl)
        (fun e he => by rw [hne e he]; simp [Op.ownAt, Ne.symm he]) hpos hold
        (Nat.min_le_left _ _) (if_pos rfl)
    · rename_i hzero
      have hmin : min take (m.queue src).elements.length = 0 := by omega
      exact h.shrinkStep (fun e => by rw [hop]; rfl)
        (fun e he => by rw [hne e he]; simp [Op.ownAt, Ne.symm he]) trivial hold (Nat.zero_le _)
        (by simp [Op.ownAt, hmin])
  case drainFront d src moved offset c =>
    cases hi
    simp only [QInstr.exec] at hx
    split at hx <;> cases hx
    exact h.same (fun e => by rw [hop]; rfl) (fun e => by rw [hop]; rfl) hlocal
  case drainWrite d src moved offset c val =>
    cases hi
    cases hx
    simp only [Op.LocalOk] at hlocal
    unfold Op.drainLoop
    split
    · rename_i hlt
      have hold : (ops t).ownAt d = some (.staged c.tail moved offset) := by simp [hop, Op.ownAt]
      refine h.fillStep val (fun e => by rw [hop]; rfl) (fun e he => ?_) hlt
        hold hlocal rfl ?_
      · simp [hop, Op.ownAt, Ne.symm he]
      · simp [Op.ownAt]
    · have hlast : moved = offset + 1 := by omega
      have hold : (ops t).ownAt d = some (.staged c.tail moved offset) := by simp [hop, Op.ownAt]
      refine h.fillStep val (fun e => by rw [hop]; rfl) (fun e he => ?_) trivial
        hold hlocal rfl ?_
      · simp [hop, Op.ownAt, Ne.symm he]
      · simp [Op.ownAt, hlast]
  case drainStoreLen d src moved c =>
    cases hi
    cases hx
    exact h.same (fun e => by rw [hop]; rfl) (fun e => by rw [hop]; rfl) trivial
  case drainUnlock d src moved c =>
    cases hi
    cases hx
    split
    · rename_i hzero
      have hmoved : moved = 0 := by omega
      refine h.endStep (fun e => by rw [hop]; rfl) (fun e he => ?_) trivial (d := d)
        (v := .staged c.tail moved moved) ?_ hmoved rfl
      · simp [hop, Op.ownAt, Ne.symm he]
      · simp [hop, Op.ownAt]
    · exact h.same (fun e => by rw [hop]; rfl) (fun e => by rw [hop]; rfl) trivial
  case refillAdd d moved c =>
    cases hi
    cases hx
    have hold : (ops t).ownAt d = some (.staged c.tail moved moved) := by simp [hop, Op.ownAt]
    refine h.commitStep (fun e => by rw [hop]; rfl) (fun e he => ?_) trivial
      hold rfl
    · simp [hop, Op.ownAt, Ne.symm he]
  case stealCas victim dst amount dc vc =>
    cases hi
    simp only [QInstr.exec] at hx
    split at hx <;> cases hx
    · rename_i hcas
      exact h.stealCasStep hop hcas
    · refine h.endStep (fun e => by rw [hop]; rfl) (fun e he => ?_) trivial (d := dst)
        (v := .staged dc.tail amount 0) ?_ rfl rfl
      · simp [hop, Op.ownAt, Ne.symm he]
      · simp [hop, Op.ownAt]
  case stealTake victim dst amount offset dc start =>
    cases hi
    simp only [QInstr.exec] at hx
    split at hx <;> cases hx
    exact h.stealTakeStep hop _
  case stealWrite victim dst amount offset dc start val =>
    cases hi
    cases hx
    simp only [Op.LocalOk] at hlocal
    unfold Op.stealLoop
    split
    · rename_i hlt
      have hold : (ops t).ownAt dst = some (.staged dc.tail amount offset) := by simp [hop, Op.ownAt]
      refine h.fillStep val (fun e => by rw [hop]; rfl) (fun e he => ?_) hlt
        hold hlocal rfl ?_
      · simp [hop, Op.ownAt, Ne.symm he]
      · simp [Op.ownAt]
    · have hlast : amount = offset + 1 := by omega
      have hold : (ops t).ownAt dst = some (.staged dc.tail amount offset) := by simp [hop, Op.ownAt]
      refine h.fillStep val (fun e => ?_) (fun e he => ?_) trivial
        hold hlocal rfl ?_
      · simp [hop, Op.claimAt, hlast]
      · simp [hop, Op.ownAt, Ne.symm he]
      · simp [Op.ownAt, hlast]
  case publishLoad victim dst amount dc start =>
    cases hi
    cases hx
    dsimp only
    split
    · exact h.same (fun e => by rw [hop]; rfl) (fun e => by rw [hop]; rfl) trivial
    · exact h.same (fun e => by rw [hop]) (fun e => by rw [hop]) trivial
  case publishCas victim dst amount dc start =>
    split at hi <;> cases hi
    · cases hx
      exact h.same (fun e => by rw [hop]; rfl) (fun e => by rw [hop]; rfl) trivial
    · simp only [QInstr.exec] at hx
      split at hx <;> cases hx
      · rename_i hcas
        exact h.publishCasStep hop hcas
      · exact h.same (fun e => by rw [hop]; rfl) (fun e => by rw [hop]; rfl) trivial
  case stealAdd dst amount dc =>
    cases hi
    cases hx
    have hold : (ops t).ownAt dst = some (.staged dc.tail amount amount) := by simp [hop, Op.ownAt]
    refine h.commitStep (fun e => by rw [hop]; rfl) (fun e he => ?_) trivial
      hold rfl
    · simp [hop, Op.ownAt, Ne.symm he]
  -- the operations of a batching queue show the deques nothing
  case queuePushLock q val =>
    cases hi
    simp only [QInstr.exec] at hx
    split at hx <;> cases hx
    exact h.same (fun e => by rw [hop]; rfl) (fun e => by rw [hop]; rfl) trivial
  case queuePushBack q val =>
    cases hi
    cases hx
    exact h.same (fun e => by rw [hop]; rfl) (fun e => by rw [hop]; rfl) trivial
  case queuePushStoreLen q =>
    cases hi
    cases hx
    exact h.same (fun e => by rw [hop]; rfl) (fun e => by rw [hop]; rfl) trivial
  case queuePushUnlock q =>
    cases hi
    cases hx
    exact h.same (fun e => by rw [hop]; rfl) (fun e => by rw [hop]; rfl) trivial
  case queuePopIsEmpty q =>
    cases hi
    cases hx
    dsimp only
    split
    · exact h.same (fun e => by rw [hop]; rfl) (fun e => by rw [hop]; rfl) trivial
    · exact h.same (fun e => by rw [hop]; rfl) (fun e => by rw [hop]; rfl) trivial
  case queuePopLock q =>
    cases hi
    simp only [QInstr.exec] at hx
    split at hx <;> cases hx
    exact h.same (fun e => by rw [hop]; rfl) (fun e => by rw [hop]; rfl) trivial
  case queueTryPopLock q =>
    cases hi
    simp only [QInstr.exec] at hx
    split at hx <;> cases hx <;>
      exact h.same (fun e => by rw [hop]; rfl) (fun e => by rw [hop]; rfl) trivial
  case queuePopFront q =>
    cases hi
    cases hx
    exact h.same (fun e => by rw [hop]; rfl) (fun e => by rw [hop]; rfl) trivial
  case queuePopStoreLen q val =>
    cases hi
    cases hx
    exact h.same (fun e => by rw [hop]; rfl) (fun e => by rw [hop]; rfl) trivial
  case queuePopUnlock q val =>
    cases hi
    cases hx
    exact h.same (fun e => by rw [hop]; rfl) (fun e => by rw [hop]; rfl) trivial

/-- A call may start on an idle thread when nobody else is on the owner side it
uses. -/
theorem call (h : DequesInv deque ops) (hop : ops t = .idle) (c : QueueCall δ κ α)
    (hfree : ∀ d, c.ownerSide = some d → ∀ y, y ≠ t → (ops y).ownAt d = none) :
    DequesInv deque (Function.update ops t (.start c)) := by
  have enter : ∀ d k, c.ownerSide = some d → Op.start c = .cursorAnchor d k →
      (∀ e, k.ownAt e d none = if d = e then some .busy else none) →
      DequesInv deque (Function.update ops t (.start c)) := by
    intro d k hside hstart hview
    have hself : Function.update deque d (deque d) = deque := Function.update_eq_self d _
    rw [← hself, hstart]
    refine h.updateOwn (deque d) (fun e => by rw [hop]; rfl) (fun e he => ?_) trivial ?_
    · rw [hop]
      simp only [Op.ownAt, hview, if_neg (Ne.symm he)]
    · intro r hr hm
      have hnone : ∀ y, r.own y = none := by
        intro y
        have := hm.own y
        by_cases hy : y = t
        · subst hy
          simpa [hop, Op.ownAt] using this.symm
        · simpa [hfree d hside y hy] using this.symm
      have htl := hr.tail_le
      refine ⟨r.setOwn t (some .busy), hr.setOwn (fun y _ => hnone y) ?_ ?_, ?_⟩
      · intro g k' hg
        rw [hnone] at hg
        cases hg
      · rintro g ⟨⟩
        exact ⟨trivial, by simpa [Hold.extent] using htl, fun k => id⟩
      · have := hm.setOwn (t := t) (some .busy)
        simpa [Op.ownAt, hview, OwnView.ofHold] using this
  cases c with
  | push d val => exact enter d _ rfl rfl fun e => rfl
  | pushBatchByTakingFromQueue d max src => exact enter d _ rfl rfl fun e => rfl
  | pop d => exact enter d _ rfl rfl fun e => rfl
  | trySteal victim max dst => exact enter dst _ rfl rfl fun e => rfl
  | len d => exact h.same (fun e => by rw [hop]; rfl) (fun e => by rw [hop]; rfl) trivial
  | queuePush q val => exact h.same (fun e => by rw [hop]; rfl) (fun e => by rw [hop]; rfl) trivial
  | queuePop q => exact h.same (fun e => by rw [hop]; rfl) (fun e => by rw [hop]; rfl) trivial
  | queueTryPop q => exact h.same (fun e => by rw [hop]; rfl) (fun e => by rw [hop]; rfl) trivial

/-- A finished call returns. -/
theorem ret {res : QueueRes α} (h : DequesInv deque ops) (hop : ops t = .done res) :
    DequesInv deque (Function.update ops t .idle) :=
  h.same (fun e => by rw [hop]; rfl) (fun e => by rw [hop]; rfl) trivial

omit [DecidableEq τ] in
/-- An empty deque nobody shows anything of is modelled by an empty ring. -/
theorem startingAt {capacity : Nat} (hcap : acceptsCapacity capacity) (cursor : UInt32)
    (hclaim : ∀ x, (ops x).claimAt d = none) (hown : ∀ x, (ops x).ownAt d = none) :
    ∃ r : Ring τ α, r.Inv ∧ Models (.startingAt cursor capacity hcap)
      (fun x => (ops x).claimAt d) (fun x => (ops x).ownAt d) r := by
  refine ⟨.empty capacity cursor.toNat, Ring.empty_inv hcap.1 _, ?_⟩
  constructor
  · exact FixedRingBuffer.capacity_new hcap
  · rfl
  · simp [WorkerQueue.startingAt, Ring.empty]
  · simp [WorkerQueue.startingAt, Ring.empty]
  · intro x
    simp [hclaim x, Ring.empty]
  · intro x
    simp [hown x, Ring.empty]

omit [DecidableEq τ] in
/-- Empty deques and idle threads. -/
theorem initial (hidle : ∀ x, ops x = .idle)
    (hempty : ∀ d, ∃ cursor capacity, ∃ h : acceptsCapacity capacity,
      deque d = .startingAt cursor capacity h) : DequesInv deque ops := by
  constructor
  · intro d
    obtain ⟨cursor, capacity, hcap, hd⟩ := hempty d
    rw [hd]
    exact startingAt hcap cursor (fun x => by rw [hidle x]; rfl) fun x => by rw [hidle x]; rfl
  · intro x
    rw [hidle x]
    trivial

omit [DecidableEq τ] in
/-- Deques nobody shows anything of may be created afresh. -/
theorem renew {deque' : δ → WorkerQueue α} (h : DequesInv deque ops)
    (hnew : ∀ d, deque' d = deque d ∨
      (∃ capacity, ∃ hcap : acceptsCapacity capacity, deque' d = .new capacity hcap) ∧
        ∀ x, (ops x).claimAt d = none ∧ (ops x).ownAt d = none) : DequesInv deque' ops := by
  refine ⟨fun d => ?_, h.localOk⟩
  rcases hnew d with hsame | ⟨⟨capacity, hcap, hd⟩, hfree⟩
  · rw [hsame]
    exact h.ring d
  · rw [hd]
    exact startingAt hcap 0 (fun x => (hfree x).1) fun x => (hfree x).2

end DequesInv

end XynokConcurrency
