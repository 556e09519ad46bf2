import XynokConcurrency.Collection.SpmcRingBufferFifo
import XynokConcurrency.ThreadPool.SlotOwnership

/-!
# Slot ownership of the single-producer multiple-consumer ring

The ring keeps the same three cursors as a worker deque, split over its words
differently, and refines the same abstract ring of {lit}`Lib.ClaimRing`.  A consumer
decides on an amount from a head and a tail loaded at different moments; what it knows
of them is an old blocked cursor, at most as far behind the tail as elements were pushed
since, so that no wrap can make the word of its CAS look current when it is not.

Main results:

- Definition {lit}`Op.Knows`: what each program point knows of the ring.
- Structure {lit}`Modelled`: the invariant.
- Theorem {lit}`Modelled.step`: every step keeps it.
- Theorem {lit}`spmc_slot_ownership`: the ownership protocol over whole runs.
-/

namespace XynokConcurrency

open ClaimRing

/-- The cursors of the ring in the words of a worker deque. -/
def SpmcRingBufferFifo.cursors {α : Type} (q : SpmcRingBufferFifo α) : WorkerQueue α where
  buffer := q.buffer
  anchor := pack q.tail (unpack q.head).2
  stolen := (unpack q.head).1

namespace Spmc

variable {τ α : Type}

/-! ## What a program point shows of the ring -/

/-- The claim a program point has. -/
def Op.claim : Op α → Option ClaimView
  | .take amount offset start _ => some ⟨start, amount, offset⟩
  | .publishLoad amount start _ | .publishCas amount start _ _ => some ⟨start, amount, amount⟩
  | _ => none

/-- The owner-side state while {lit}`cursor_data` loads the cursors. -/
def Next.own : Next α → Option OwnView
  | .push _ | .pushBatch _ _ => some .busy
  | .claim _ _ | .len => none

/-- The owner-side state of a program point. -/
def Op.own : Op α → Option OwnView
  | .headLoad k | .tailLoad k _ _ => k.own
  | .pushWrite c offset _ todo _ => some (.staged c.tail (offset + (todo.length + 1)) offset)
  | .tailStore c amount _ => some (.staged c.tail amount amount)
  | _ => none

/-- The program point decides on a claim by cursors it has read before. -/
def Op.seeking : Op α → Bool
  | .tailLoad (.claim _ _) _ _ | .claimCas _ _ _ | .claimTail _ _ _ _ => true
  | _ => false

/-- Deciding on a claim is part of a consumer call. -/
theorem Op.consuming_of_seeking {o : Op α} (h : o.seeking = true) : o.consuming = true := by
  cases o with
  | tailLoad k stolen blocked =>
      cases k with
      | claim amount k => rfl
      | _ => cases h
  | claimCas amount k c => rfl
  | claimTail amount k c found => rfl
  | _ => cases h

/-- A blocked cursor that was read while {lit}`window` elements have been pushed at
most. -/
def BlockedRead (r : Ring τ α) (window : Nat) (blocked : UInt32) (b : Nat) : Prop :=
  blocked = UInt32.ofNat b ∧ b ≤ r.blocked ∧ r.tail ≤ b + r.cap + window

/-- What a program point knows of the ring, when {lit}`window` elements have been pushed
since its call began. -/
def Op.Knows (r : Ring τ α) (window : Nat) : Op α → Prop
  | .headLoad (.claim amount _) => 0 < amount
  | .tailLoad (.claim amount _) _ blocked => 0 < amount ∧ ∃ b, BlockedRead r window blocked b
  | .tailLoad (.push _) stolen _ | .tailLoad (.pushBatch _ _) stolen _ =>
      ∃ s, stolen = UInt32.ofNat s ∧ s ≤ r.stolen ∧ r.tail ≤ s + r.cap
  | .claimCas amount _ c => 0 < amount ∧ ∃ b, BlockedRead r window c.blocked b ∧ b + amount ≤ r.tail
  | .claimTail amount _ _ found => 0 < amount ∧ ∃ b, BlockedRead r window (unpack found).2 b
  | .take amount offset _ _ => offset < amount
  | .publishCas _ start _ current => (unpack current).1 = start
  | _ => True

/-! ## The invariant -/

/-- The ring is modelled by an abstract ring in good order, and every program point
knows what it should. -/
structure Modelled (s : Machine.Shared τ (Mem α) (Thread α)) (r : Ring τ α) : Prop where
  inv : r.Inv
  models : Models s.mem.ring.cursors (fun x => (s.threads x).op.claim)
    (fun x => (s.threads x).op.own) r
  since_le : ∀ x, (s.threads x).since ≤ s.mem.pushed
  knows : ∀ x, (s.threads x).op.Knows r (s.mem.pushed - (s.threads x).since)

/-- An old blocked cursor stays one. -/
theorem BlockedRead.later {r r' : Ring τ α} {window window' : Nat} {blocked : UInt32} {b : Nat}
    (h : BlockedRead r window blocked b) (hcap : r'.cap = r.cap) (hb : r.blocked ≤ r'.blocked)
    (htail : r'.tail + window ≤ r.tail + window') : BlockedRead r' window' blocked b := by
  obtain ⟨heq, hle, hwin⟩ := h
  exact ⟨heq, hle.trans hb, by omega⟩

/-- What a thread knows is not spoiled by the steps of the others. -/
theorem Op.Knows.later {o : Op α} {t : τ} {r r' : Ring τ α} {window window' : Nat}
    (h : o.Knows r window) (hstep : Ring.StepBy t r r')
    (htail : r'.tail + window ≤ r.tail + window') (hown : o.own ≠ none → r'.tail = r.tail) :
    o.Knows r' window' := by
  have hcap := hstep.cap
  have hblocked := hstep.blocked
  have hstolen := hstep.stolen
  have hgrow := hstep.tail
  have hproducer : ∀ stolen : UInt32, r'.tail = r.tail →
      (∃ s, stolen = UInt32.ofNat s ∧ s ≤ r.stolen ∧ r.tail ≤ s + r.cap) →
      ∃ s, stolen = UInt32.ofNat s ∧ s ≤ r'.stolen ∧ r'.tail ≤ s + r'.cap := by
    rintro stolen heq ⟨s, hs, hle, hfit⟩
    exact ⟨s, hs, hle.trans hstolen, by omega⟩
  cases o with
  | headLoad k => cases k <;> exact h
  | tailLoad k stolen blocked =>
      cases k with
      | claim amount k =>
          obtain ⟨hpos, b, hb⟩ := h
          exact ⟨hpos, b, hb.later hcap hblocked htail⟩
      | push val => exact hproducer stolen (hown nofun) h
      | pushBatch max vals => exact hproducer stolen (hown nofun) h
      | len => exact h
  | claimCas amount k c =>
      obtain ⟨hpos, b, hb, hle⟩ := h
      exact ⟨hpos, b, hb.later hcap hblocked htail, hle.trans hgrow⟩
  | claimTail amount k c found =>
      obtain ⟨hpos, b, hb⟩ := h
      exact ⟨hpos, b, hb.later hcap hblocked htail⟩
  | _ => exact h

variable [DecidableEq τ]

/-- Nothing changes where a thread shows what it showed before. -/
theorem update_view {ρ : Type} (f : Op α → ρ) {threads : τ → Thread α} {t : τ} {v : ρ}
    (h : v = f (threads t).op) :
    Function.update (fun x => f (threads x).op) t v = fun x => f (threads x).op := by
  rw [h]
  exact Function.update_eq_self t fun x => f (threads x).op

namespace Modelled

variable {s : Machine.Shared τ (Mem α) (Thread α)} {r r' : Ring τ α} {t : τ} {m : Mem α}
  {th : Thread α}

/-- One thread makes a transition of the ring. -/
theorem update (h : Modelled s r) (hstep : Ring.StepBy t r r') (hinv : r'.Inv)
    (hmodels : Models m.ring.cursors
      (Function.update (fun x => (s.threads x).op.claim) t th.op.claim)
      (Function.update (fun x => (s.threads x).op.own) t th.op.own) r')
    (hpushed : r'.tail + s.mem.pushed = r.tail + m.pushed) (hsince : th.since ≤ m.pushed)
    (hknows : th.op.Knows r' (m.pushed - th.since)) :
    Modelled ⟨m, Function.update s.threads t th⟩ r' := by
  have hview : ∀ {ρ : Type} (f : Op α → ρ),
      (fun x => f (Function.update s.threads t th x).op) =
        Function.update (fun x => f (s.threads x).op) t (f th.op) := by
    intro ρ f
    funext x
    by_cases hx : x = t
    · subst hx
      simp
    · simp [hx]
  have hgrow := hstep.tail
  refine ⟨hinv, ?_, fun x => ?_, fun x => ?_⟩
  · show Models m.ring.cursors _ _ r'
    rw [hview Op.claim, hview Op.own]
    exact hmodels
  · by_cases hx : x = t
    · subst hx
      simpa using hsince
    · have := h.since_le x
      simp only [Function.update_of_ne hx]
      omega
  · by_cases hx : x = t
    · subst hx
      simpa using hknows
    · have := h.since_le x
      simp only [Function.update_of_ne hx]
      refine (h.knows x).later hstep (by omega) fun hown => ?_
      rcases hstep.tail_owner with heq | howner
      · exact heq
      · obtain ⟨v, hv⟩ := Option.ne_none_iff_exists'.mp hown
        obtain ⟨g, hg, -⟩ := h.models.exists_hold hv
        exact (hx (h.inv.own_unique x t (by simp [hg]) howner)).elim

/-- A step that neither the ring nor its model notices. -/
theorem still (h : Modelled s r) (hclaim : th.op.claim = (s.threads t).op.claim)
    (hown : th.op.own = (s.threads t).op.own) (hsince : th.since ≤ s.mem.pushed)
    (hknows : th.op.Knows r (s.mem.pushed - th.since)) :
    Modelled ⟨s.mem, Function.update s.threads t th⟩ r := by
  refine h.update (.refl t r) h.inv ?_ rfl hsince hknows
  rw [update_view Op.claim hclaim, update_view Op.own hown]
  exact h.models

/-- The producer changes what it keeps, while it has written nothing. -/
theorem setOwn (h : Modelled s r) (g : Option Hold) (hclaim : th.op.claim = (s.threads t).op.claim)
    (hown : th.op.own = g.map (OwnView.ofHold r.tail)) (hother : ∀ y, y ≠ t → r.own y = none)
    (hold : ∀ g₀ k, r.own t = some g₀ → ¬ g₀.covers k)
    (hnew : ∀ g', g = some g' → g'.Fits ∧ r.tail + g'.extent ≤ r.stolen + r.cap ∧
      ∀ k, ¬ g'.covers k)
    (hsince : th.since ≤ s.mem.pushed) (hknows : th.op.Knows r (s.mem.pushed - th.since)) :
    Modelled ⟨s.mem, Function.update s.threads t th⟩ (r.setOwn t g) := by
  have hstep : Ring.StepBy t r (r.setOwn t g) := .setOwn g
  refine h.update hstep (h.inv.setOwn hother hold hnew) ?_ rfl hsince
    (hknows.later hstep le_rfl fun _ => rfl)
  rw [update_view Op.claim hclaim, hown]
  exact h.models.setOwn g

/-! ## The words of a modelled ring -/

omit [DecidableEq τ] in
theorem tail_eq (h : Modelled s r) : s.mem.ring.tail = UInt32.ofNat r.tail := by
  have := congrArg Prod.fst h.models.unpack_anchor
  simpa [SpmcRingBufferFifo.cursors] using this

omit [DecidableEq τ] in
theorem blocked_eq (h : Modelled s r) : (unpack s.mem.ring.head).2 = UInt32.ofNat r.blocked := by
  have := congrArg Prod.snd h.models.unpack_anchor
  simpa [SpmcRingBufferFifo.cursors] using this

omit [DecidableEq τ] in
theorem stolen_eq (h : Modelled s r) : (unpack s.mem.ring.head).1 = UInt32.ofNat r.stolen :=
  h.models.stolen

omit [DecidableEq τ] in
theorem capacity_eq (h : Modelled s r) : s.mem.ring.buffer.mask + 1 = UInt32.ofNat r.cap := by
  rw [← h.models.cap, FixedRingBuffer.capacity, UInt32.ofNat_add, UInt32.ofNat_toNat]
  rfl

omit [DecidableEq τ] in
/-- A stolen cursor read by the producer counts the free slots of that moment. -/
theorem emptySlots_eq (h : Modelled s r) {c : CursorData} {sc : Nat}
    (hcap : c.capacity = UInt32.ofNat r.cap) (htail : c.tail = s.mem.ring.tail)
    (hstolen : c.stolen = UInt32.ofNat sc) (hle : sc ≤ r.stolen) (hfit : r.tail ≤ sc + r.cap) :
    c.emptySlots = r.cap - (r.tail - sc) := by
  have hlt := h.models.cap_lt
  have hst := h.inv.stolen_le
  have hbt := h.inv.blocked_le
  exact CursorData.emptySlots_ofNat hcap (by omega) hstolen (htail.trans h.tail_eq) (by omega) hfit

omit [DecidableEq τ] in
/-- The blocked cursor just read. -/
theorem blockedRead (h : Modelled s r) (window : Nat) :
    BlockedRead r window (unpack s.mem.ring.head).2 r.blocked := by
  have hs := h.inv.stolen_le
  have ht := h.inv.tail_le
  exact ⟨h.blocked_eq, le_rfl, by omega⟩

omit [DecidableEq τ] in
/-- With a tail loaded now, an old blocked cursor counts exactly. -/
theorem filledSlots_eq (h : Modelled s r) {c : CursorData} {window b : Nat}
    (hb : BlockedRead r window c.blocked b) (hwin : r.cap + window < 2 ^ 32)
    (htail : c.tail = s.mem.ring.tail) : c.filledSlots = r.tail - b ∧ b ≤ r.tail := by
  obtain ⟨heq, hle, hfit⟩ := hb
  have hcap := h.models.cap_lt
  have hbt := h.inv.blocked_le
  exact ⟨CursorData.filledSlots_ofNat heq (htail.trans h.tail_eq) (by omega) (by omega), by omega⟩

omit [DecidableEq τ] in
/-- The claim loop asks for no more than there is. -/
theorem claimLoop_knows (h : Modelled s r) {c : CursorData} {amount window b : Nat} {k : Taking α}
    (hpos : 0 < amount) (hb : BlockedRead r window c.blocked b) (hwin : r.cap + window < 2 ^ 32)
    (htail : c.tail = s.mem.ring.tail) : (Op.claimLoop amount k c).Knows r window := by
  obtain ⟨hfilled, hle⟩ := h.filledSlots_eq hb hwin htail
  unfold Op.claimLoop
  split
  · trivial
  · rw [hfilled] at *
    exact ⟨by omega, b, hb, by omega⟩

/-! ## The transitions -/

/-- The producer writes the next slot. -/
theorem fillStep {c : CursorData} {offset since : Nat} {val : α} {todo : List α} {res : Res α}
    (h : Modelled s r) (hth : s.threads t = ⟨.pushWrite c offset val todo res, since⟩) :
    r.own t = some (.staged (offset + (todo.length + 1)) offset) ∧
      Modelled
        ⟨{ s.mem with ring :=
            { s.mem.ring with
              buffer := s.mem.ring.buffer.write (c.tail + UInt32.ofNat offset) val } },
          Function.update s.threads t ⟨.pushLoop c (offset + 1) res todo, since⟩⟩
        (r.fill t (offset + (todo.length + 1)) offset val) := by
  obtain ⟨hown, htail⟩ := h.models.hold_staged (x := t)
    (show (s.threads t).op.own = some (.staged c.tail (offset + (todo.length + 1)) offset) by
      rw [hth]
      rfl)
  have hlt : offset < offset + (todo.length + 1) := by omega
  refine ⟨hown, h.update (.fill val hown hlt) (h.inv.fill val hown hlt) ?_ rfl ?_ ?_⟩
  · have hmodels := h.models.fill (t := t) (offset + (todo.length + 1)) offset val
    rw [UInt32.ofNat_add, ← htail] at hmodels
    have hclaim : (Op.pushLoop c (offset + 1) res todo).claim = (s.threads t).op.claim := by
      rw [hth]
      cases todo <;> rfl
    have hview : (Op.pushLoop c (offset + 1) res todo).own =
        some (.staged c.tail (offset + (todo.length + 1)) (offset + 1)) := by
      cases todo with
      | nil => rfl
      | cons v todo =>
          simp only [Op.pushLoop, Op.own, List.length_cons]
          congr 2
          omega
    rw [update_view Op.claim hclaim, hview]
    exact hmodels
  · have := h.since_le t
    rwa [hth] at this
  · cases todo <;> trivial

/-- The producer stores the tail. -/
theorem commitStep {c : CursorData} {amount since : Nat} {res : Res α} (h : Modelled s r)
    (hth : s.threads t = ⟨.tailStore c amount res, since⟩) :
    r.own t = some (.staged amount amount) ∧
      Modelled
        ⟨⟨{ s.mem.ring with tail := c.tail + UInt32.ofNat amount }, s.mem.pushed + amount⟩,
          Function.update s.threads t ⟨.done res, since⟩⟩ (r.commit t amount) := by
  obtain ⟨hown, htail⟩ := h.models.hold_staged (x := t)
    (show (s.threads t).op.own = some (.staged c.tail amount amount) by
      rw [hth]
      rfl)
  have hother : ∀ y, y ≠ t → r.own y = none :=
    fun y hy => h.inv.own_eq_none_of_ne (by simp [hown]) hy
  refine ⟨hown, h.update (.commit amount (by simp [hown])) (h.inv.commit hown) ?_ ?_ ?_ trivial⟩
  · have hmodels := h.models.commit (t := t) amount hother
    have hword : s.mem.ring.cursors.anchor + (UInt64.ofNat amount <<< 32) =
        pack (c.tail + UInt32.ofNat amount) (unpack s.mem.ring.head).2 := by
      rw [htail, ← h.tail_eq]
      exact pack_add_ofNat ..
    rw [hword] at hmodels
    have hclaim : (Op.done res).claim = (s.threads t).op.claim := by
      rw [hth]
      rfl
    rw [update_view Op.claim hclaim]
    exact hmodels
  · show r.tail + amount + s.mem.pushed = r.tail + (s.mem.pushed + amount)
    omega
  · have := h.since_le t
    rw [hth] at this
    exact Nat.le_add_right_of_le this

/-- A consumer wins a claim: its words were current, and so was what it knew. -/
theorem claimStep {c : CursorData} {amount since : Nat} {k : Taking α} (h : Modelled s r)
    (hth : s.threads t = ⟨.claimCas amount k c, since⟩) (hwin : r.cap + (s.mem.pushed - since) < 2 ^ 32)
    (hcas : s.mem.ring.head = pack c.stolen c.blocked) :
    r.claim t = none ∧ c.blocked = UInt32.ofNat r.blocked ∧ 0 < amount ∧
      amount ≤ r.tail - r.blocked ∧
      Modelled
        ⟨{ s.mem with ring := { s.mem.ring with head := claimed c amount } },
          Function.update s.threads t ⟨.takeLoop amount 0 c.blocked k, since⟩⟩
        (r.claimFront t amount) := by
  have hknows := h.knows t
  rw [hth] at hknows
  obtain ⟨hpos, b, ⟨hb, hle, hfit⟩, hroom⟩ := hknows
  have hcap := h.models.cap_lt
  have hbt := h.inv.blocked_le
  have hword : UInt32.ofNat b = UInt32.ofNat r.blocked := by
    rw [← hb, ← h.blocked_eq, hcas, unpack_pack]
  simp only at hfit
  obtain rfl : b = r.blocked := ofNat_inj_of_lt hle (by omega) hword
  have hnone : r.claim t = none := by
    have := h.models.claim t
    rw [hth] at this
    simpa [Op.claim] using this.symm
  have hamount : amount ≤ r.tail - r.blocked := by omega
  refine ⟨hnone, hb, hpos, hamount,
    h.update (.claimFront amount) (h.inv.claimFront hnone hpos hamount) ?_ rfl ?_ ?_⟩
  · have hmodels := h.models.claimFront (t := t) amount
    have hstolen : s.mem.ring.cursors.stolen = c.stolen := by
      rw [SpmcRingBufferFifo.cursors, hcas, unpack_pack]
    have hview : (Op.takeLoop amount 0 c.blocked k).claim =
        some ⟨UInt32.ofNat r.blocked, amount, 0⟩ := by
      rw [Op.takeLoop, if_pos hpos, ← hb]
      rfl
    have hown : (Op.takeLoop amount 0 c.blocked k).own = (s.threads t).op.own := by
      rw [Op.takeLoop, if_pos hpos, hth]
      rfl
    rw [hstolen, ← h.tail_eq, ← hb] at hmodels
    rw [hview, update_view Op.own hown, ← hb]
    simpa [SpmcRingBufferFifo.cursors, claimed] using hmodels
  · have := h.since_le t
    rwa [hth] at this
  · rw [Op.takeLoop, if_pos hpos]
    exact hpos

/-- A consumer reads the next slot of its claim. -/
theorem takeStep {amount offset since : Nat} {start : UInt32} {k : Taking α} (h : Modelled s r)
    (k' : Taking α) (hth : s.threads t = ⟨.take amount offset start k, since⟩) :
    ∃ c, r.claim t = some c ∧ start = UInt32.ofNat c.start ∧ amount = c.len ∧ offset = c.taken ∧
      offset < amount ∧
      Modelled
        ⟨{ s.mem with ring :=
            { s.mem.ring with
              buffer := s.mem.ring.buffer.clearAt (start + UInt32.ofNat offset) } },
          Function.update s.threads t ⟨.takeLoop amount (offset + 1) start k', since⟩⟩
        (r.take t c) := by
  have hlt : offset < amount := by
    have := h.knows t
    rwa [hth] at this
  obtain ⟨c, hc, hstart, hlen, htaken⟩ := h.models.exists_claim (x := t)
    (show (s.threads t).op.claim = some ⟨start, amount, offset⟩ by
      rw [hth]
      rfl)
  simp only at hstart hlen htaken
  refine ⟨c, hc, hstart, hlen, htaken, hlt,
    h.update (.take hc (by omega)) (h.inv.take hc (by omega)) ?_ rfl ?_ ?_⟩
  · have hmodels := h.models.take (t := t) c
    rw [UInt32.ofNat_add, ← hstart, ← hlen, ← htaken] at hmodels
    have hown : (Op.takeLoop amount (offset + 1) start k').own = (s.threads t).op.own := by
      rw [Op.takeLoop, hth]
      split <;> rfl
    have hview : (Op.takeLoop amount (offset + 1) start k').claim =
        some ⟨start, amount, offset + 1⟩ := by
      rw [Op.takeLoop]
      split
      · rfl
      · rw [show offset + 1 = amount by omega]
        rfl
    rw [hview, update_view Op.own hown]
    exact hmodels
  · have := h.since_le t
    rwa [hth] at this
  · rw [Op.takeLoop]
    split
    · assumption
    · trivial

/-- A consumer publishes its claim, which is the first one. -/
theorem publishStep {amount since : Nat} {start : UInt32} {k : Taking α} {current : UInt64}
    (h : Modelled s r) (hth : s.threads t = ⟨.publishCas amount start k current, since⟩)
    (hcas : s.mem.ring.head = current) :
    ∃ c, r.claim t = some c ∧ start = UInt32.ofNat c.start ∧ c.start = r.stolen ∧ amount = c.len ∧
      c.taken = c.len ∧
      Modelled
        ⟨{ s.mem with ring := { s.mem.ring with head := published current amount } },
          Function.update s.threads t ⟨.done (k.result amount), since⟩⟩ (r.publish t amount) := by
  have hfirst : (unpack current).1 = start := by
    have := h.knows t
    rwa [hth] at this
  obtain ⟨c, hc, hstart, hlen, htaken⟩ := h.models.exists_claim (x := t)
    (show (s.threads t).op.claim = some ⟨start, amount, amount⟩ by
      rw [hth]
      rfl)
  simp only at hstart hlen htaken
  have hrange := h.inv.claim_range t c hc
  have hbt := h.inv.blocked_le
  have htl := h.inv.tail_le
  have hcap := h.models.cap_lt
  have hword : UInt32.ofNat r.stolen = UInt32.ofNat c.start := by
    rw [← h.stolen_eq, hcas, hfirst, hstart]
  have hfirst' : r.stolen = c.start := ofNat_inj_of_lt hrange.1 (by omega) hword
  subst hlen
  refine ⟨c, hc, hstart, hfirst'.symm, rfl, htaken.symm,
    h.update (.publish c.len) (h.inv.publish hc htaken.symm hfirst'.symm) ?_ rfl ?_ trivial⟩
  · have hmodels := h.models.publish (t := t) c.len
    have hown : (Op.done (k.result c.len)).own = (s.threads t).op.own := by
      rw [hth]
      rfl
    rw [← h.stolen_eq, hcas] at hmodels
    rw [update_view Op.own hown]
    simpa [SpmcRingBufferFifo.cursors, published, hcas, Op.claim] using hmodels
  · have := h.since_le t
    rwa [hth] at this

/-! ## The steps that only read -/

omit [DecidableEq τ] in
/-- A thread on the owner side that has written nothing is alone there. -/
theorem busy_alone (h : Modelled s r) (hown : (s.threads t).op.own = some .busy) :
    r.own t = some .busy ∧ ∀ y, y ≠ t → r.own y = none := by
  have hg := h.models.hold_busy (x := t) hown
  exact ⟨hg, fun y hy => h.inv.own_eq_none_of_ne (by simp [hg]) hy⟩

/-- The producer ends its call, having written nothing. -/
theorem endStep (h : Modelled s r) {res : Res α} {since : Nat}
    (hown : (s.threads t).op.own = some .busy) (hclaim : (s.threads t).op.claim = none)
    (hsince : since ≤ s.mem.pushed) :
    Modelled ⟨s.mem, Function.update s.threads t ⟨.done res, since⟩⟩ (r.setOwn t none) := by
  obtain ⟨hg, hother⟩ := h.busy_alone hown
  refine h.setOwn none hclaim.symm rfl hother ?_ nofun hsince trivial
  intro g₀ k hg₀
  rw [hg] at hg₀
  cases hg₀
  exact id

/-- The producer starts to write what there is room for. -/
theorem reserveStep (h : Modelled s r) {c : CursorData} {todo : List α} {res : Res α}
    {since sc : Nat} (hown : (s.threads t).op.own = some .busy)
    (hclaim : (s.threads t).op.claim = none) (hsince : since ≤ s.mem.pushed)
    (hcap : c.capacity = UInt32.ofNat r.cap) (htail : c.tail = s.mem.ring.tail)
    (hstolen : c.stolen = UInt32.ofNat sc) (hle : sc ≤ r.stolen) (hfit : r.tail ≤ sc + r.cap)
    (htodo : todo.length ≤ c.emptySlots) :
    Modelled ⟨s.mem, Function.update s.threads t ⟨.pushLoop c 0 res todo, since⟩⟩
      (r.setOwn t (some (.staged todo.length 0))) := by
  obtain ⟨hg, hother⟩ := h.busy_alone hown
  have hroom := h.emptySlots_eq hcap htail hstolen hle hfit
  have hview : (Op.pushLoop c 0 res todo).own = some (.staged c.tail todo.length 0) := by
    cases todo <;> simp [Op.pushLoop, Op.own]
  refine h.setOwn _ ?_ ?_ hother ?_ ?_ hsince ?_
  · rw [hclaim]
    cases todo <;> rfl
  · rw [hview, htail, h.tail_eq]
    rfl
  · intro g₀ k hg₀
    rw [hg] at hg₀
    cases hg₀
    exact id
  · rintro g ⟨⟩
    exact ⟨Nat.zero_le _, by simp only [Hold.extent]; omega, fun k => Nat.not_lt_zero k⟩
  · cases todo <;> trivial

/-- Loading the tail continues a call with what it knows. -/
theorem tailLoadStep (h : Modelled s r) {k : Next α} {stolen blocked : UInt32} {since : Nat}
    (hth : s.threads t = ⟨.tailLoad k stolen blocked, since⟩)
    (hwin : (s.threads t).op.seeking = true → r.cap + (s.mem.pushed - since) < 2 ^ 32) :
    ∃ g, Modelled
      ⟨s.mem, Function.update s.threads t
        ⟨.afterCursorData ⟨stolen, blocked, s.mem.ring.tail, s.mem.ring.buffer.mask + 1,
          s.mem.ring.buffer.mask⟩ k, since⟩⟩ (r.setOwn t g) := by
  have hsince := h.since_le t
  have hknows := h.knows t
  rw [hth] at hsince hknows hwin
  have hcap := h.capacity_eq
  have hkeep : ∀ th : Thread α, Modelled ⟨s.mem, Function.update s.threads t th⟩ r →
      ∃ g, Modelled ⟨s.mem, Function.update s.threads t th⟩ (r.setOwn t g) := by
    intro th hth'
    exact ⟨r.own t, by rwa [Ring.setOwn, Function.update_eq_self]⟩
  cases k with
  | push val =>
      obtain ⟨sc, hsc, hle, hfit⟩ := hknows
      simp only [Op.afterCursorData]
      split
      · exact ⟨none, h.endStep (by rw [hth]; rfl) (by rw [hth]; rfl) hsince⟩
      · rename_i hroom
        exact ⟨_, h.reserveStep (by rw [hth]; rfl) (by rw [hth]; rfl) hsince hcap rfl hsc hle hfit
          (Nat.le_of_not_lt hroom)⟩
  | pushBatch max vals =>
      obtain ⟨sc, hsc, hle, hfit⟩ := hknows
      simp only [Op.afterCursorData]
      split
      · exact ⟨none, h.endStep (by rw [hth]; rfl) (by rw [hth]; rfl) hsince⟩
      · refine ⟨_, h.reserveStep (by rw [hth]; rfl) (by rw [hth]; rfl) hsince hcap rfl hsc hle hfit ?_⟩
        rw [List.length_take]
        omega
  | claim amount k =>
      obtain ⟨hpos, b, hb⟩ := hknows
      refine hkeep _ (h.still ?_ ?_ hsince ?_)
      · rw [hth]
        simp only [Op.afterCursorData, Op.claimLoop]
        split <;> rfl
      · rw [hth]
        simp only [Op.afterCursorData, Op.claimLoop]
        split <;> rfl
      · simp only [Op.afterCursorData]
        exact h.claimLoop_knows hpos hb (hwin rfl) rfl
  | len => exact hkeep _ (h.still (by rw [hth]; rfl) (by rw [hth]; rfl) hsince trivial)

/-- A step that only reads, and shows the ring what its thread showed it before. -/
theorem moveStep (h : Modelled s r) {o o' : Op α} {since : Nat} (hth : s.threads t = ⟨o, since⟩)
    (hclaim : o'.claim = o.claim) (hown : o'.own = o.own)
    (hknows : o'.Knows r (s.mem.pushed - since)) :
    Modelled ⟨s.mem, Function.update s.threads t ⟨o', since⟩⟩ r := by
  refine h.still (by rw [hth]; exact hclaim) (by rw [hth]; exact hown) ?_ hknows
  have := h.since_le t
  rwa [hth] at this

/-- Loading the head. -/
theorem headLoadStep (h : Modelled s r) {k : Next α} {since : Nat}
    (hth : s.threads t = ⟨.headLoad k, since⟩) :
    Modelled
      ⟨s.mem, Function.update s.threads t
        ⟨.tailLoad k (unpack s.mem.ring.head).1 (unpack s.mem.ring.head).2, since⟩⟩ r := by
  refine h.moveStep hth rfl rfl ?_
  have hknows := h.knows t
  rw [hth] at hknows
  cases k with
  | push val => exact ⟨r.stolen, h.stolen_eq, le_rfl, h.inv.tail_le⟩
  | pushBatch max vals => exact ⟨r.stolen, h.stolen_eq, le_rfl, h.inv.tail_le⟩
  | claim amount k => exact ⟨hknows, r.blocked, h.blockedRead _⟩
  | len => trivial

/-- Failing the CAS of a claim. -/
theorem claimFailStep (h : Modelled s r) {c : CursorData} {amount since : Nat} {k : Taking α}
    (hth : s.threads t = ⟨.claimCas amount k c, since⟩) :
    Modelled
      ⟨s.mem, Function.update s.threads t ⟨.claimTail amount k c s.mem.ring.head, since⟩⟩ r := by
  have hknows := h.knows t
  rw [hth] at hknows
  exact h.moveStep hth rfl rfl ⟨hknows.1, r.blocked, h.blockedRead _⟩

/-- Loading the tail after a failed CAS. -/
theorem claimTailStep (h : Modelled s r) {c : CursorData} {amount since : Nat} {k : Taking α}
    {found : UInt64} (hth : s.threads t = ⟨.claimTail amount k c found, since⟩)
    (hwin : r.cap + (s.mem.pushed - since) < 2 ^ 32) :
    Modelled
      ⟨s.mem, Function.update s.threads t
        ⟨.claimLoop amount k
          { c with stolen := (unpack found).1, blocked := (unpack found).2
                   tail := s.mem.ring.tail }, since⟩⟩ r := by
  have hknows := h.knows t
  rw [hth] at hknows
  obtain ⟨hpos, b, hb⟩ := hknows
  refine h.moveStep hth ?_ ?_ (h.claimLoop_knows hpos hb hwin rfl)
  · unfold Op.claimLoop
    split <;> rfl
  · unfold Op.claimLoop
    split <;> rfl

/-- Loading the head before a publication. -/
theorem publishLoadStep (h : Modelled s r) {amount since : Nat} {start : UInt32} {k : Taking α}
    (hth : s.threads t = ⟨.publishLoad amount start k, since⟩) :
    Modelled
      ⟨s.mem, Function.update s.threads t
        ⟨if (unpack s.mem.ring.head).1 ≠ start then .publishLoad amount start k
          else .publishCas amount start k s.mem.ring.head, since⟩⟩ r := by
  split
  · exact h.moveStep hth rfl rfl trivial
  · rename_i heq
    exact h.moveStep hth rfl rfl (not_not.mp heq)

/-- Failing the CAS of a publication. -/
theorem publishFailStep (h : Modelled s r) {amount since : Nat} {start : UInt32} {k : Taking α}
    {current : UInt64} (hth : s.threads t = ⟨.publishCas amount start k current, since⟩) :
    Modelled
      ⟨s.mem, Function.update s.threads t ⟨.publishLoad amount start k, since⟩⟩ r :=
  h.moveStep hth rfl rfl trivial

/-- Returning. -/
theorem retStep (h : Modelled s r) {res : Res α} {since : Nat}
    (hth : s.threads t = ⟨.done res, since⟩) :
    Modelled ⟨s.mem, Function.update s.threads t ⟨.idle, since⟩⟩ r :=
  h.moveStep hth rfl rfl trivial

/-- A call starts; a producer call, when nobody else is on the owner side. -/
theorem callStep (h : Modelled s r) {c : Call α} {since : Nat} {producer : τ}
    (hth : s.threads t = ⟨.idle, since⟩) (hallowed : c.Allowed producer t)
    (hproducer : ∀ x, (s.threads x).op.own ≠ none → x = producer) :
    ∃ g, Modelled ⟨s.mem, Function.update s.threads t ⟨.headLoad c.next, s.mem.pushed⟩⟩ (r.setOwn t g) := by
  have hstill : (Op.headLoad c.next).claim = none → (Op.headLoad c.next).own = none →
      (Op.headLoad c.next).Knows r (s.mem.pushed - s.mem.pushed) →
      ∃ g, Modelled ⟨s.mem, Function.update s.threads t ⟨.headLoad c.next, s.mem.pushed⟩⟩
        (r.setOwn t g) := by
    intro hclaim hown hknows
    refine ⟨r.own t, ?_⟩
    rw [Ring.setOwn, Function.update_eq_self]
    exact h.still (by rw [hth]; exact hclaim) (by rw [hth]; exact hown) le_rfl hknows
  have hpush : t = producer → (Op.headLoad c.next).claim = none → (Op.headLoad c.next).own = some .busy →
      (Op.headLoad c.next).Knows r (s.mem.pushed - s.mem.pushed) →
      ∃ g, Modelled ⟨s.mem, Function.update s.threads t ⟨.headLoad c.next, s.mem.pushed⟩⟩
        (r.setOwn t g) := by
    intro ht hclaim hown hknows
    have hnone : ∀ y, r.own y = none := by
      intro y
      have hview := h.models.own y
      have hidle : (s.threads y).op.own = none := by
        by_contra hne
        obtain rfl : y = t := (hproducer y hne).trans ht.symm
        rw [hth] at hne
        exact hne rfl
      simpa [hidle] using hview.symm
    have htl := h.inv.tail_le
    refine ⟨some .busy, h.setOwn (some .busy) (by rw [hth]; exact hclaim) hown
      (fun y _ => hnone y) ?_ ?_ le_rfl hknows⟩
    · intro g₀ k hg₀
      rw [hnone] at hg₀
      cases hg₀
    · rintro g ⟨⟩
      exact ⟨trivial, by simpa [Hold.extent] using htl, fun k => id⟩
  cases c with
  | push val => exact hpush hallowed rfl rfl trivial
  | pushBatch max vals => exact hpush hallowed rfl rfl trivial
  | pop => exact hstill rfl rfl Nat.one_pos
  | popBatch max dst => exact hstill rfl rfl hallowed
  | popBatchTo max cursor => exact hstill rfl rfl hallowed
  | len => exact hstill rfl rfl trivial

/-- Every tick of every operation keeps the ring in order. -/
theorem tickStep (h : Modelled s r) {spurious : Bool} {q : SpmcRingBufferFifo α} {o o' : Op α}
    {since : Nat} (hth : s.threads t = ⟨o, since⟩)
    (hwin : o.seeking = true → r.cap + (s.mem.pushed - since) < 2 ^ 32)
    (hx : tick spurious s.mem.ring o = some (q, o')) :
    ∃ r', Modelled ⟨{ s.mem with ring := q }, Function.update s.threads t ⟨o', since⟩⟩ r' := by
  cases o with
  | headLoad k =>
      cases hx
      exact ⟨_, h.headLoadStep hth⟩
  | tailLoad k stolen blocked =>
      cases hx
      obtain ⟨g, hg⟩ := h.tailLoadStep hth (by rw [hth]; exact hwin)
      exact ⟨_, hg⟩
  | pushWrite c offset val todo res =>
      cases hx
      exact ⟨_, (h.fillStep hth).2⟩
  | claimCas amount k c =>
      simp only [tick] at hx
      split at hx <;> cases hx
      exact ⟨_, h.claimFailStep hth⟩
  | claimTail amount k c found =>
      cases hx
      exact ⟨_, h.claimTailStep hth (hwin rfl)⟩
  | take amount offset start k =>
      simp only [tick] at hx
      split at hx <;> cases hx
      obtain ⟨c, -, -, -, -, -, hmodelled⟩ := h.takeStep _ hth
      exact ⟨_, hmodelled⟩
  | publishLoad amount start k =>
      cases hx
      exact ⟨_, h.publishLoadStep hth⟩
  | publishCas amount start k current =>
      simp only [tick] at hx
      split at hx <;> cases hx
      exact ⟨_, h.publishFailStep hth⟩
  | idle => cases hx
  | tailStore c amount res => cases hx
  | done res => cases hx

omit [DecidableEq τ] in
/-- The intended use leaves every consumer less than a wrap behind. -/
theorem window (h : Modelled s r) {c : Choice α} {producer : τ}
    (hok : Disciplined producer s (t, c)) (hseeking : (s.threads t).op.seeking = true) :
    r.cap + (s.mem.pushed - (s.threads t).since) < 2 ^ 32 := by
  have hcap := h.models.cap_lt
  have hwin := hok.1 (Op.consuming_of_seeking hseeking)
  dsimp only at hwin
  omega

/-- Every step of every thread keeps the ring in order. -/
theorem step [DecidableEq α] (h : Modelled s r) {c : Choice α} {producer : τ}
    (hwin : (s.threads t).op.seeking = true →
      r.cap + (s.mem.pushed - (s.threads t).since) < 2 ^ 32)
    (hallowed : c.Allowed producer t)
    (hproducer : ∀ x, (s.threads x).op.own ≠ none → x = producer)
    (hx : Spmc.step t c s.mem (s.threads t) = some (m, th)) :
    ∃ r', Modelled ⟨m, Function.update s.threads t th⟩ r' := by
  rcases hth : s.threads t with ⟨o, since⟩
  rw [hth] at hx
  simp only [hth] at hwin
  cases c with
  | call c =>
      cases o <;> cases hx
      obtain ⟨g, hg⟩ := h.callStep hth hallowed hproducer
      exact ⟨_, hg⟩
  | tick spurious =>
      simp only [Spmc.step] at hx
      split at hx <;> cases hx
      exact h.tickStep hth hwin ‹_›
  | claim =>
      cases o <;> simp only [Spmc.step, reduceCtorEq] at hx
      split at hx <;> cases hx
      obtain ⟨-, -, -, -, hmodelled⟩ := h.claimStep hth (hwin rfl) ‹_›
      exact ⟨_, hmodelled⟩
  | publish =>
      cases o <;> simp only [Spmc.step, reduceCtorEq] at hx
      split at hx <;> cases hx
      obtain ⟨c, -, -, -, -, -, hmodelled⟩ := h.publishStep hth ‹_›
      exact ⟨_, hmodelled⟩
  | commit =>
      cases o <;> cases hx
      exact ⟨_, (h.commitStep hth).2⟩
  | ret res =>
      cases o <;> simp only [Spmc.step, reduceCtorEq] at hx
      split at hx <;> cases hx
      exact ⟨_, h.retStep hth⟩

end Modelled

/-! ## The ownership protocol in the words of the code -/

/-- The slot a program point writes next. -/
def Op.writes : Op α → Option UInt32
  | .pushWrite c offset _ _ _ => some (c.tail + UInt32.ofNat offset)
  | _ => none

/-- The slot a program point reads out next. -/
def Op.reads : Op α → Option UInt32
  | .take _ offset start _ => some (start + UInt32.ofNat offset)
  | _ => none

/-- The ownership protocol: every distance is the wrapping one the code computes. -/
structure SlotOwnership (q : SpmcRingBufferFifo α) (ops : τ → Op α) : Prop where
  blocked_le : ((unpack q.head).2 - (unpack q.head).1).toNat ≤ (q.tail - (unpack q.head).1).toNat
  tail_le : (q.tail - (unpack q.head).1).toNat ≤ q.buffer.capacity
  /-- A claim that was won and not yet published is a piece of the stolen range. -/
  claim_range : ∀ x v, (ops x).claim = some v →
    0 < v.amount ∧ (v.start - (unpack q.head).1).toNat + v.amount ≤
      ((unpack q.head).2 - (unpack q.head).1).toNat
  /-- Every position of the stolen range lies in exactly one claim. -/
  claim_tile : ∀ k, k < ((unpack q.head).2 - (unpack q.head).1).toNat →
    ∃! x, ∃ v, (ops x).claim = some v ∧ (v.start - (unpack q.head).1).toNat ≤ k ∧
      k < (v.start - (unpack q.head).1).toNat + v.amount
  /-- One claim comes first. -/
  claim_first : (unpack q.head).1 ≠ (unpack q.head).2 →
    ∃! x, ∃ v, (ops x).claim = some v ∧ v.start = (unpack q.head).1
  live : ∀ k, k < (q.tail - (unpack q.head).2).toNat →
    (q.buffer.cellAt ((unpack q.head).2 + UInt32.ofNat k)).isSome
  /-- A step that writes a slot stays behind the tail, finds the slot empty, and meets no
  claim. -/
  write : ∀ x cursor, (ops x).writes = some cursor →
    (q.tail - (unpack q.head).1).toNat ≤ (cursor - (unpack q.head).1).toNat ∧
      (cursor - (unpack q.head).1).toNat < q.buffer.capacity ∧
      q.buffer.cellAt cursor = none ∧
      ∀ y v k, (ops y).claim = some v → k < v.amount →
        q.buffer.maskSlot (v.start + UInt32.ofNat k) ≠ q.buffer.maskSlot cursor
  /-- A step that reads a slot out finds an element there. -/
  read : ∀ x cursor, (ops x).reads = some cursor → (q.buffer.cellAt cursor).isSome

omit [DecidableEq τ] in
/-- A ring in order follows the ownership protocol. -/
theorem Modelled.slotOwnership {s : Machine.Shared τ (Mem α) (Thread α)} {r : Ring τ α}
    (h : Modelled s r) : SlotOwnership s.mem.ring fun x => (s.threads x).op := by
  have hm := h.models
  have hr := h.inv
  have hsb := hr.stolen_le
  have hbt := hr.blocked_le
  have htl := hr.tail_le
  have hcap := hm.cap_lt
  have hdist : ∀ i, r.stolen ≤ i → i ≤ r.stolen + r.cap →
      (UInt32.ofNat i - (unpack s.mem.ring.head).1).toNat = i - r.stolen :=
    fun i hi hi' => hm.distance hi hi'
  have hcell : ∀ i, s.mem.ring.buffer.cellAt (UInt32.ofNat i) = r.slot i := hm.cellAt_ofNat
  have hcapacity : s.mem.ring.buffer.capacity = r.cap := hm.cap
  have hblocked : ((unpack s.mem.ring.head).2 - (unpack s.mem.ring.head).1).toNat =
      r.blocked - r.stolen := by
    rw [h.blocked_eq]
    exact hdist _ hsb (by omega)
  have htail : (s.mem.ring.tail - (unpack s.mem.ring.head).1).toNat = r.tail - r.stolen := by
    rw [h.tail_eq]
    exact hdist _ (by omega) htl
  have hstart : ∀ x v, (s.threads x).op.claim = some v → ∃ c, r.claim x = some c ∧
      v.start = UInt32.ofNat c.start ∧ v.amount = c.len ∧
      (v.start - (unpack s.mem.ring.head).1).toNat = c.start - r.stolen := by
    intro x v hv
    obtain ⟨c, hc, hs, hlen, -⟩ := hm.exists_claim (x := x) hv
    have hrange := hr.claim_range x c hc
    refine ⟨c, hc, hs, hlen, ?_⟩
    rw [hs]
    exact hdist _ hrange.1 (by omega)
  have htile : ∀ k, k < r.blocked - r.stolen → ∃! x, ∃ v, (s.threads x).op.claim = some v ∧
      (v.start - (unpack s.mem.ring.head).1).toNat ≤ k ∧
      k < (v.start - (unpack s.mem.ring.head).1).toNat + v.amount := by
    intro k hk
    obtain ⟨x, c, hc, hle, hlt⟩ := hr.claim_cover (r.stolen + k) (by omega) (by omega)
    have hview : (s.threads x).op.claim = some (.ofClaim c) := by
      have := hm.claim x
      rwa [hc] at this
    refine ⟨x, ⟨.ofClaim c, hview, ?_⟩, ?_⟩
    · obtain ⟨c', hc', -, hlen, hdist⟩ := hstart x _ hview
      have hrange := hr.claim_range x c' hc'
      obtain rfl : c = c' := by simpa [hc] using hc'
      omega
    · rintro y ⟨v, hv, hle', hlt'⟩
      obtain ⟨c', hc', -, hlen, hdist⟩ := hstart y v hv
      have hrange := hr.claim_range y c' hc'
      by_contra hne
      rcases hr.claim_disjoint y x c' c hne hc' hc with hdisj | hdisj <;> omega
  refine ⟨by omega, by omega, ?_, ?_, ?_, ?_, ?_, ?_⟩
  · intro x v hv
    obtain ⟨c, hc, -, hlen, hdist⟩ := hstart x v hv
    have hrange := hr.claim_range x c hc
    omega
  · rw [hblocked]
    exact htile
  · intro hne
    have hlt : 0 < r.blocked - r.stolen := by
      by_contra hzero
      apply hne
      rw [h.stolen_eq, h.blocked_eq, show r.stolen = r.blocked by omega]
    obtain ⟨x, ⟨v, hv, hle, -⟩, huniq⟩ := htile 0 hlt
    refine ⟨x, ⟨v, hv, ?_⟩, ?_⟩
    · obtain ⟨c, hc, hs, -, hdist⟩ := hstart x v hv
      have hrange := hr.claim_range x c hc
      rw [hs, h.stolen_eq, show c.start = r.stolen by omega]
    · rintro y ⟨v', hv', hfirst⟩
      obtain ⟨c', hc', -, hlen, -⟩ := hstart y v' hv'
      have hrange := hr.claim_range y c' hc'
      refine huniq y ⟨v', hv', ?_⟩
      rw [hfirst, UInt32.sub_self]
      exact ⟨le_rfl, by show 0 < 0 + v'.amount; omega⟩
  · intro k hk
    rw [h.tail_eq, h.blocked_eq, toNat_ofNat_sub hbt (by omega)] at hk
    rw [h.blocked_eq, ← UInt32.ofNat_add, hcell]
    exact hr.live _ (by omega) (by omega)
  · intro x cursor hw
    obtain ⟨c, offset, val, todo, res, hop, rfl⟩ : ∃ c offset val todo res,
        (s.threads x).op = .pushWrite c offset val todo res ∧
          cursor = c.tail + UInt32.ofNat offset := by
      cases hop : (s.threads x).op <;> simp only [hop, Op.writes, reduceCtorEq] at hw
      cases hw
      exact ⟨_, _, _, _, _, rfl, rfl⟩
    obtain ⟨hg, hctail⟩ := hm.hold_staged (x := x)
      (show (s.threads x).op.own = some (.staged c.tail (offset + (todo.length + 1)) offset) by
        rw [hop]
        rfl)
    obtain ⟨-, hroom⟩ := hr.own_room x _ hg
    simp only [Hold.extent] at hroom
    rw [hctail, ← UInt32.ofNat_add, hdist _ (by omega) (by omega), hcell, hcapacity]
    refine ⟨by omega, by omega, ?_, ?_⟩
    · refine hr.free _ (by omega) (by omega) ?_
      intro y g hy hcov
      obtain rfl : y = x := hr.own_unique y x (by simp [hy]) (by simp [hg])
      rw [hg] at hy
      cases hy
      simp only [Hold.covers] at hcov
      omega
    · intro y v k hv hk
      obtain ⟨c', hc', hs, hlen, -⟩ := hstart y v hv
      have hrange := hr.claim_range y c' hc'
      rw [hs, ← UInt32.ofNat_add, FixedRingBuffer.maskSlot_ofNat, FixedRingBuffer.maskSlot_ofNat,
        hcapacity]
      intro hsame
      have := window_mod_inj (s := r.stolen) (by omega) (by omega) (by omega) (by omega) hsame
      omega
  · intro x cursor hread
    obtain ⟨amount, offset, start, k, hop, rfl⟩ : ∃ amount offset start k,
        (s.threads x).op = .take amount offset start k ∧ cursor = start + UInt32.ofNat offset := by
      cases hop : (s.threads x).op <;> simp only [hop, Op.reads, reduceCtorEq] at hread
      cases hread
      exact ⟨_, _, _, _, rfl, rfl⟩
    have hlt : offset < amount := by
      have := h.knows x
      rwa [hop] at this
    obtain ⟨c, hc, hs, hlen, htaken⟩ := hm.exists_claim (x := x)
      (show (s.threads x).op.claim = some ⟨start, amount, offset⟩ by
        rw [hop]
        rfl)
    simp only at hs hlen htaken
    rw [hs, ← UInt32.ofNat_add, hcell]
    exact hr.claim_live x c _ hc (by omega) (by omega)

/-! ## Runs of the machine -/

variable [DecidableEq α] {s s' : Machine.Shared τ (Mem α) (Thread α)} {t : τ} {c : Choice α}
  {m : Mem α} {th : Thread α}

omit [DecidableEq τ] in
/-- No step changes the size of the ring. -/
theorem step_capacity {th₀ : Thread α} {m₀ : Mem α} (hx : step t c m₀ th₀ = some (m, th)) :
    m.ring.buffer.capacity = m₀.ring.buffer.capacity := by
  cases c with
  | tick spurious =>
      simp only [step] at hx
      split at hx <;> cases hx
      rename_i q o htick
      show q.buffer.capacity = _
      cases hop : th₀.op <;> rw [hop] at htick <;> simp only [tick] at htick <;>
        (try split at htick) <;> cases htick <;> rfl
  | _ =>
      cases hop : th₀.op <;> simp only [step, hop, reduceCtorEq] at hx
      all_goals first
        | (cases hx; rfl)
        | (split at hx <;> cases hx; rfl)

omit [DecidableEq τ] in
/-- Only a call brings a thread to the owner side. -/
theorem step_own {th₀ : Thread α} {m₀ : Mem α} (hx : step t c m₀ th₀ = some (m, th))
    (hown : th.op.own ≠ none) (hnew : th₀.op.own = none) :
    ∃ call : Call α, c = .call call ∧ th.op = .headLoad call.next := by
  rcases th₀ with ⟨o, since⟩
  cases c with
  | call c =>
      cases o <;> cases hx
      exact ⟨c, rfl, rfl⟩
  | tick spurious =>
      exfalso
      simp only [step] at hx
      split at hx <;> cases hx
      rename_i q o' htick
      apply hown
      cases o with
      | headLoad k =>
          cases htick
          exact hnew
      | tailLoad k stolen blocked =>
          cases htick
          cases k with
          | claim amount k =>
              simp only [Op.afterCursorData, Op.claimLoop]
              split <;> rfl
          | len => rfl
          | _ => cases hnew
      | claimCas amount k c =>
          simp only [tick] at htick
          split at htick <;> cases htick
          rfl
      | claimTail amount k c found =>
          cases htick
          simp only [Op.claimLoop]
          split <;> rfl
      | take amount offset start k =>
          simp only [tick] at htick
          split at htick <;> cases htick
          simp only [Op.takeLoop]
          split <;> rfl
      | publishLoad amount start k =>
          cases htick
          dsimp only
          split <;> rfl
      | publishCas amount start k current =>
          simp only [tick] at htick
          split at htick <;> cases htick
          rfl
      | pushWrite c offset val todo res => cases hnew
      | _ => cases htick
  | claim =>
      exfalso
      cases o <;> simp only [step, reduceCtorEq] at hx
      split at hx <;> cases hx
      apply hown
      simp only [Op.takeLoop]
      split <;> rfl
  | publish =>
      exfalso
      cases o <;> simp only [step, reduceCtorEq] at hx
      split at hx <;> cases hx
      exact hown rfl
  | commit =>
      cases o <;> cases hx
      cases hnew
  | ret res =>
      exfalso
      cases o <;> simp only [step, reduceCtorEq] at hx
      split at hx <;> cases hx
      exact hown rfl

omit [DecidableEq τ] [DecidableEq α] in
/-- An empty ring and idle threads. -/
theorem Modelled.initial {capacity : Nat} (hcap : acceptsCapacity capacity) (cursor : UInt32) :
    Modelled ⟨⟨.startingAt cursor capacity hcap, 0⟩, fun _ : τ => (⟨.idle, 0⟩ : Thread α)⟩
      (.empty capacity cursor.toNat) := by
  refine ⟨Ring.empty_inv hcap.1 _, ?_, fun _ => le_rfl, fun _ => trivial⟩
  constructor
  · exact FixedRingBuffer.capacity_new hcap
  · rfl
  · simp [SpmcRingBufferFifo.cursors, SpmcRingBufferFifo.startingAt, Ring.empty]
  · simp [SpmcRingBufferFifo.cursors, SpmcRingBufferFifo.startingAt, Ring.empty]
  · exact fun _ => rfl
  · exact fun _ => rfl

/-- Every state of every run is modelled, and only the producer is on the owner side. -/
theorem spmcMachine_modelled {producer : τ} {capacity : Nat} {hcap : acceptsCapacity capacity}
    (hs : (spmcMachine producer capacity hcap).Reachable s) :
    (∃ r, Modelled s r) ∧ s.mem.ring.buffer.capacity = capacity ∧
      ∀ x, (s.threads x).op.own ≠ none → x = producer := by
  refine Machine.Reachable.invariant
    (I := fun s => (∃ r, Modelled s r) ∧ s.mem.ring.buffer.capacity = capacity ∧
      ∀ x, (s.threads x).op.own ≠ none → x = producer) ?_ ?_ hs
  · rintro s ⟨cursor, rfl⟩
    exact ⟨⟨_, Modelled.initial hcap cursor⟩, FixedRingBuffer.capacity_new hcap,
      fun x hx => (hx rfl).elim⟩
  · rintro s ⟨t, c⟩ s' - ⟨⟨r, h⟩, hcapacity, hproducer⟩ hstep
    obtain ⟨hok, hstep⟩ := Machine.restrict_step.mp hstep
    obtain ⟨m, th, hx, rfl⟩ := Machine.ofThreads_step hstep
    refine ⟨h.step (h.window hok) hok.2 hproducer hx, (step_capacity hx).trans hcapacity, fun x hown => ?_⟩
    by_cases hxt : x = t
    · subst hxt
      simp only [Function.update_self] at hown
      by_cases hnew : (s.threads x).op.own = none
      · obtain ⟨call, rfl, hstart⟩ := step_own hx hown hnew
        have hallowed : call.Allowed producer x := hok.2
        rw [hstart] at hown
        cases call <;> first | exact hallowed | exact (hown rfl).elim
      · exact hproducer x hnew
    · exact hproducer x (by simpa [hxt] using hown)

omit [DecidableEq τ] in
/-- A step that moves stolen is taken by the holder of the first claim. -/
theorem step_stolen {r : Ring τ α} (h : Modelled s r)
    (hx : step t c s.mem (s.threads t) = some (m, th))
    (hmove : (unpack m.ring.head).1 ≠ (unpack s.mem.ring.head).1) :
    ∃ v, (s.threads t).op.claim = some v ∧ v.start = (unpack s.mem.ring.head).1 := by
  have hknows := h.knows t
  rcases hth : s.threads t with ⟨o, since⟩
  rw [hth] at hx hknows
  cases c with
  | tick spurious =>
      simp only [step] at hx
      split at hx <;> cases hx
      rename_i q o' htick
      cases o with
      | publishCas amount start k current =>
          simp only [tick] at htick
          split at htick <;> cases htick
          exact (hmove rfl).elim
      | claimCas amount k c =>
          simp only [tick] at htick
          split at htick <;> cases htick
          exact (hmove rfl).elim
      | take amount offset start k =>
          simp only [tick] at htick
          split at htick <;> cases htick
          exact (hmove rfl).elim
      | _ => cases htick <;> exact (hmove rfl).elim
  | claim =>
      cases o <;> simp only [step, reduceCtorEq] at hx
      split at hx <;> cases hx
      rename_i hcas
      simp [claimed, hcas] at hmove
  | publish =>
      cases o <;> simp only [step, reduceCtorEq] at hx
      split at hx <;> cases hx
      rename_i hcas
      exact ⟨_, rfl, hcas ▸ hknows.symm⟩
  | ret res =>
      cases o <;> simp only [step, reduceCtorEq] at hx
      split at hx <;> cases hx
      exact (hmove rfl).elim
  | _ =>
      cases o <;> cases hx
      exact (hmove rfl).elim

/-- Every reachable state follows the ownership protocol, and only the holder of the
first claim moves stolen on. -/
theorem spmc_slot_ownership (producer : τ) (capacity : Nat) (hcap : acceptsCapacity capacity)
    (s : Machine.Shared τ (Mem α) (Thread α))
    (hs : (spmcMachine producer capacity hcap).Reachable s) :
    s.mem.ring.buffer.capacity = capacity ∧
      SlotOwnership s.mem.ring (fun x => (s.threads x).op) ∧
      ∀ t c s', (spmcMachine producer capacity hcap).step s (t, c) = some s' →
        (unpack s'.mem.ring.head).1 ≠ (unpack s.mem.ring.head).1 →
        ∃ v, (s.threads t).op.claim = some v ∧ v.start = (unpack s.mem.ring.head).1 := by
  obtain ⟨⟨r, h⟩, hcapacity, -⟩ := spmcMachine_modelled hs
  refine ⟨hcapacity, h.slotOwnership, fun t c s' hstep hmove => ?_⟩
  obtain ⟨-, hstep⟩ := Machine.restrict_step.mp hstep
  obtain ⟨m, th, hx, rfl⟩ := Machine.ofThreads_step hstep
  exact step_stolen h hx hmove

/-! ## A concrete run -/

theorem acceptsRingOfTwo : acceptsCapacity 2 :=
  ⟨by decide, by decide, 1, rfl⟩

/-- A ring of two slots, whose cursors are about to wrap. -/
def ringOfTwo : Machine.Shared Nat (Mem Nat) (Thread Nat) :=
  ⟨⟨.startingAt 0xFFFFFFFF 2 acceptsRingOfTwo, 0⟩, fun _ => ⟨.idle, 0⟩⟩

/-- Two elements are pushed; two consumers claim one each, and the second has read its
element while the first has not. -/
def twoClaims : List (Nat × Choice Nat) :=
  [(0, .call (.pushBatch 2 [5, 6])), (0, .tick false), (0, .tick false), (0, .tick false),
    (0, .tick false), (0, .commit), (0, .ret (.moved 2 [])), (1, .call .pop), (1, .tick false),
    (1, .tick false), (1, .claim), (2, .call (.popBatch 3 [])), (2, .tick false), (2, .tick false),
    (2, .claim), (2, .tick false), (2, .tick false)]

/-- The protocol holds while two claims across the wrap are pending. -/
theorem spmc_slot_ownership_of_two_claims :
    ∃ s, (spmcMachine 0 2 acceptsRingOfTwo).run ringOfTwo twoClaims = some s ∧
      SlotOwnership s.mem.ring fun x => (s.threads x).op := by
  have hsome : ((spmcMachine 0 2 acceptsRingOfTwo).run ringOfTwo twoClaims).isSome := by
    decide +kernel
  obtain ⟨s, hs⟩ := Option.isSome_iff_exists.mp hsome
  exact ⟨s, hs, (spmc_slot_ownership 0 2 acceptsRingOfTwo s
    (Machine.Reachable.run (.init ⟨0xFFFFFFFF, rfl⟩) hs)).2.1⟩

end Spmc

end XynokConcurrency
