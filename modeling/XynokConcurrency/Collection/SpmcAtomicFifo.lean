import XynokConcurrency.Collection.SpmcSlotOwnership

/-!
# The single-producer multiple-consumer ring as an atomic queue

The specification is one bounded list.  A claim takes elements from its front at the CAS
that wins it, a push appends at the store of the tail, and the room of a claim comes back
at the CAS that publishes it; these three are observed, together with calls and returns.
A call that finds nothing, or no room, has seen the list empty, or full, at some instant.

Main definitions:

- Definition {lit}`atomicFifo`: the specification.
- Structure {lit}`Refines`: the simulation relation.

Main results:

- Theorem {lit}`Refines.step`: every step is one step of the specification with the same
  observation, or none at all.
- Theorem {lit}`spmc_refines_atomic_fifo`: the refinement over whole runs.
-/

namespace XynokConcurrency

namespace Spmc

open ClaimRing

variable {τ α : Type}

/-! ## The specification -/

/-- How many elements a consumer call may take, and what it makes of them. -/
def Call.claiming : Call α → Option (Nat × Taking α)
  | .pop => some (1, .one none)
  | .popBatch max dst => some (max, .batch (.vec dst))
  | .popBatchTo max cursor => some (max, .batch (.buffer cursor []))
  | _ => none

/-- How many of which elements a producer call may append, and what it returns then. -/
def Call.offering : Call α → Option (Nat × List α × (Nat → Res α))
  | .push val => some (1, [val], fun _ => .pushed)
  | .pushBatch max vals => some (max, vals, fun n => .moved n (vals.drop n))
  | _ => none

/-- Elements are taken out from an offset on. -/
def Taking.putAll : Nat → List α → Taking α → Taking α
  | _, [], k => k
  | offset, val :: vals, k => (k.put offset val).putAll (offset + 1) vals

/-- Where a thread stands, seen from outside. -/
inductive Status (α : Type)
  | idle
  /-- A call is under way; it may have seen the list empty, or full. -/
  | pending (c : Call α) (seen : Bool)
  /-- A consumer has claimed {lit}`n` elements, and will return {lit}`r`. -/
  | holding (n : Nat) (r : Res α)
  | done (r : Res α)

/-- The list nobody has claimed, the number of claimed elements whose room is not yet
given back, all elements accepted and all batches claimed so far, and the threads. -/
structure Fifo (τ α : Type) where
  list : List α
  inFlight : Nat
  accepted : List α
  batches : List (List α)
  status : τ → Status α

/-- Move one thread. -/
def Fifo.setStatus [DecidableEq τ] (b : Fifo τ α) (t : τ) (st : Status α) : Fifo τ α :=
  { b with status := Function.update b.status t st }

/-- A call that takes or appends nothing would have found nothing, or no room. -/
def Call.Blocked (capacity : Nat) (b : Fifo τ α) (c : Call α) : Prop :=
  c.claiming.isSome = true ∧ b.list = [] ∨
    c.offering.isSome = true ∧ b.list.length + b.inFlight = capacity

/-- The results of a call that takes or appends nothing. -/
def Call.Answers (c : Call α) (seen : Bool) (r : Res α) : Prop :=
  match c with
  | .push val => seen = true ∧ r = .full val
  | .pushBatch max vals => (seen = true ∨ max = 0 ∨ vals = []) ∧ r = .moved 0 vals
  | .len => ∃ n, r = .length n
  | c => ∃ max k, c.claiming = some (max, k) ∧ seen = true ∧ r = k.result 0

/-- The specification. -/
def atomicFifo [DecidableEq τ] (capacity : Nat) : Machine.Spec (Fifo τ α) (τ × Choice α) where
  init b := b = ⟨[], 0, [], [], fun _ => .idle⟩
  step b e b' :=
    match e with
    | some (t, .call c) => b.status t = .idle ∧ b' = b.setStatus t (.pending c false)
    | some (t, .claim) =>
        ∃ c seen max k n, b.status t = .pending c seen ∧ c.claiming = some (max, k) ∧
          0 < n ∧ n ≤ max ∧ n ≤ b.list.length ∧
          b' = ⟨b.list.drop n, b.inFlight + n, b.accepted, b.batches ++ [b.list.take n],
            Function.update b.status t
              (.holding n ((k.putAll 0 (b.list.take n)).result n))⟩
    | some (t, .publish) =>
        ∃ n r, b.status t = .holding n r ∧
          b' = { b with inFlight := b.inFlight - n
                        status := Function.update b.status t (.done r) }
    | some (t, .commit) =>
        ∃ c seen max vals res n, b.status t = .pending c seen ∧
          c.offering = some (max, vals, res) ∧ 0 < n ∧ n ≤ max ∧ n ≤ vals.length ∧
          b.list.length + b.inFlight + n ≤ capacity ∧
          b' = { b with list := b.list ++ vals.take n
                        accepted := b.accepted ++ vals.take n
                        status := Function.update b.status t (.done (res n)) }
    | some (t, .ret r) => b.status t = .done r ∧ b' = b.setStatus t .idle
    | some (_, .tick _) => False
    | none =>
        ∃ t c seen, b.status t = .pending c seen ∧
          (c.Blocked capacity b ∧ b' = b.setStatus t (.pending c true) ∨
            ∃ r, c.Answers seen r ∧ b' = b.setStatus t (.done r))

/-- What is observed of a step. -/
def event : τ × Choice α → Option (τ × Choice α)
  | (_, .tick _) => none
  | e => some e

/-! ## The simulation relation -/

/-- Where a program point stands in the specification, {lit}`window` pushes after the
start of its call. -/
def Op.At (t : τ) (r : Ring τ α) (window : Nat) : Op α → Status α → Prop
  | .idle, st => st = .idle
  | .headLoad k, st => ∃ c, k = c.next ∧ st = .pending c false
  | .tailLoad k stolen blocked, st =>
      ∃ c seen, k = c.next ∧ st = .pending c seen ∧
        (c.claiming.isSome = true → seen = true ∨ ∃ b, BlockedRead r window blocked b ∧ b < r.tail) ∧
        (c.offering.isSome = true → seen = true ∨
          ∃ s, stolen = UInt32.ofNat s ∧ s ≤ r.stolen ∧ r.tail < s + r.cap)
  | .pushWrite _ offset val todo res, st =>
      ∃ c seen max vals f, st = .pending c seen ∧ c.offering = some (max, vals, f) ∧
        offset + (todo.length + 1) ≤ max ∧ res = f (offset + (todo.length + 1)) ∧
        ∃ rest, vals = r.values r.tail offset ++ val :: todo ++ rest
  | .tailStore _ amount res, st =>
      ∃ c seen max vals f, st = .pending c seen ∧ c.offering = some (max, vals, f) ∧
        0 < amount ∧ amount ≤ max ∧ res = f amount ∧ ∃ rest, vals = r.values r.tail amount ++ rest
  | .claimCas amount k _, st =>
      ∃ c seen max, st = .pending c seen ∧ c.claiming = some (max, k) ∧ amount ≤ max
  | .claimTail amount k _ found, st =>
      ∃ c seen max, st = .pending c seen ∧ c.claiming = some (max, k) ∧ amount ≤ max ∧
        (seen = true ∨ ∃ b, BlockedRead r window (unpack found).2 b ∧ b < r.tail)
  | .take amount offset _ k, st =>
      ∃ c, r.claim t = some c ∧
        st = .holding amount
          ((k.putAll offset (r.values (c.start + offset) (amount - offset))).result amount)
  | .publishLoad amount _ k, st | .publishCas amount _ k _, st =>
      st = .holding amount (k.result amount)
  | .done res, st => st = .done res

/-- The simulation relation. -/
structure Refines (capacity : Nat) (s : Machine.Shared τ (Mem α) (Thread α)) (r : Ring τ α)
    (b : Fifo τ α) : Prop where
  modelled : Modelled s r
  cap : r.cap = capacity
  list : b.list = r.unclaimed
  inFlight : b.inFlight = r.blocked - r.stolen
  accepted : b.accepted = b.batches.flatten ++ b.list
  at_ : ∀ t, (s.threads t).op.At t r (s.mem.pushed - (s.threads t).since) (b.status t)

/-! ## Steps of other threads -/

/-- A producer call is on the owner side from its start. -/
theorem Call.own_next {c : Call α} (h : c.offering.isSome = true) : c.next.own = some .busy := by
  cases c <;> first | rfl | cases h

/-- Where a thread stands is not changed by the steps of the others. -/
theorem Op.At.later {o : Op α} {t u : τ} {r r' : Ring τ α} {window window' : Nat} {st : Status α}
    (h : o.At u r window st) (hr : r.Inv) (hstep : Ring.StepBy t r r') (hu : u ≠ t)
    (hview : o.own = (r.own u).map (OwnView.ofHold r.tail))
    (hclaim : o.claim = (r.claim u).map ClaimView.ofClaim)
    (htail : r'.tail + window ≤ r.tail + window') : o.At u r' window' st := by
  have hgrow := hstep.tail
  have hcap := hstep.cap
  have hstolen := hstep.stolen
  have hread : ∀ {blocked : UInt32}, (∃ b, BlockedRead r window blocked b ∧ b < r.tail) →
      ∃ b, BlockedRead r' window' blocked b ∧ b < r'.tail := by
    rintro blocked ⟨b, hb, hlt⟩
    exact ⟨b, hb.later hcap hstep.blocked htail, by omega⟩
  -- two threads are never on the owner side together
  have hstay : o.own ≠ none → r'.tail = r.tail := by
    intro hown
    rcases hstep.tail_owner with heq | howner
    · exact heq
    · refine (hu (hr.own_unique u t ?_ howner)).elim
      rw [hview] at hown
      exact Option.isSome_iff_ne_none.mpr fun hnone => hown (by rw [hnone]; rfl)
  have hstaged : ∀ {tail : UInt32} {room filled : Nat}, o.own = some (.staged tail room filled) →
      filled ≤ room → r'.values r'.tail filled = r.values r.tail filled := by
    intro tail room filled hown hle
    rw [hstay (by simp [hown])]
    rw [hown] at hview
    obtain ⟨g, hg, heq⟩ := Option.map_eq_some_iff.mp hview.symm
    refine hstep.values_held hr hu fun k hk => .inr ⟨g, hg, by omega, ?_⟩
    cases g <;> cases heq
    simp only [Hold.extent]
    omega
  cases o with
  | tailLoad k stolen blocked =>
      obtain ⟨c, seen, rfl, rfl, hconsumer, hproducer⟩ := h
      refine ⟨c, seen, rfl, rfl, fun hc => (hconsumer hc).imp_right hread, fun hc => ?_⟩
      have htl : r'.tail = r.tail := hstay (by simp [Op.own, Call.own_next hc])
      rcases hproducer hc with hseen | ⟨sc, hsc, hle, hlt⟩
      · exact .inl hseen
      · exact .inr ⟨sc, hsc, by omega, by omega⟩
  | pushWrite c offset val todo res =>
      obtain ⟨call, seen, max, vals, f, hst, hoffer, hle, hres, rest, hvals⟩ := h
      refine ⟨call, seen, max, vals, f, hst, hoffer, hle, hres, rest, ?_⟩
      rw [hvals, hstaged rfl (by omega)]
  | tailStore c amount res =>
      obtain ⟨call, seen, max, vals, f, hst, hoffer, hpos, hle, hres, rest, hvals⟩ := h
      refine ⟨call, seen, max, vals, f, hst, hoffer, hpos, hle, hres, rest, ?_⟩
      rw [hvals, hstaged rfl le_rfl]
  | claimTail amount k c found =>
      obtain ⟨call, seen, max, hst, hcall, hle, hseen⟩ := h
      exact ⟨call, seen, max, hst, hcall, hle, hseen.imp_right hread⟩
  | take amount offset start k =>
      obtain ⟨c, hc, hst⟩ := h
      refine ⟨c, by rw [hstep.claim u hu, hc], ?_⟩
      rw [hst, hstep.values_held hr hu]
      intro j hj
      rw [hc] at hclaim
      cases hclaim
      exact .inl ⟨c, hc, by omega, by omega⟩
  | _ => exact h

variable [DecidableEq τ]

section Steps

variable {capacity : Nat} {s : Machine.Shared τ (Mem α) (Thread α)} {r r' : Ring τ α}
  {b : Fifo τ α} {t : τ} {m : Mem α} {th : Thread α} {st : Status α}

/-- One thread makes a transition of the ring, with its effect on the list. -/
theorem Refines.update {list : List α} {inFlight : Nat} {accepted : List α}
    {batches : List (List α)} (h : Refines capacity s r b)
    (hm : Modelled ⟨m, Function.update s.threads t th⟩ r') (hstep : Ring.StepBy t r r')
    (hpushed : r'.tail + s.mem.pushed = r.tail + m.pushed) (hlist : list = r'.unclaimed)
    (hflight : inFlight = r'.blocked - r'.stolen) (haccepted : accepted = batches.flatten ++ list)
    (hat : th.op.At t r' (m.pushed - th.since) st) :
    Refines capacity ⟨m, Function.update s.threads t th⟩ r'
      ⟨list, inFlight, accepted, batches, Function.update b.status t st⟩ := by
  refine ⟨hm, hstep.cap.trans h.cap, hlist, hflight, haccepted, fun u => ?_⟩
  by_cases hu : u = t
  · subst hu
    simpa using hat
  · have hsince := h.modelled.since_le u
    have hgrow := hstep.tail
    simp only [Function.update_of_ne hu]
    exact (h.at_ u).later h.modelled.inv hstep hu (h.modelled.models.own u)
      (h.modelled.models.claim u) (by omega)

/-- A step that only reads. -/
theorem Refines.quiet {g : Option Hold} (h : Refines capacity s r b)
    (hm : Modelled ⟨s.mem, Function.update s.threads t th⟩ (r.setOwn t g))
    (hat : th.op.At t (r.setOwn t g) (s.mem.pushed - th.since) st) :
    Refines capacity ⟨s.mem, Function.update s.threads t th⟩ (r.setOwn t g)
      (b.setStatus t st) :=
  h.update hm (.setOwn g) rfl h.list h.inFlight h.accepted hat

/-- A step that only reads, and leaves the ring as it is. -/
theorem Refines.stay (h : Refines capacity s r b)
    (hm : Modelled ⟨s.mem, Function.update s.threads t th⟩ r)
    (hat : th.op.At t r (s.mem.pushed - th.since) st) :
    Refines capacity ⟨s.mem, Function.update s.threads t th⟩ r (b.setStatus t st) :=
  h.update hm (.refl t r) rfl h.list h.inFlight h.accepted hat

/-! ## What a snapshot says -/

omit [DecidableEq τ] in
/-- A call that is not blocked now finds an element, or room, in the snapshot it takes. -/
theorem Refines.not_blocked (h : Refines capacity s r b) {c : Call α} (hc : ¬ c.Blocked capacity b) :
    (c.claiming.isSome = true → r.blocked < r.tail) ∧
      (c.offering.isSome = true → r.tail < r.stolen + r.cap) := by
  have hr := h.modelled.inv
  have hsb := hr.stolen_le
  have hbt := hr.blocked_le
  have htl := hr.tail_le
  have hlen := hr.unclaimed_length
  rw [← h.list] at hlen
  refine ⟨fun hclaim => ?_, fun hoffer => ?_⟩
  · by_contra hle
    exact hc (.inl ⟨hclaim, List.eq_nil_of_length_eq_zero (by omega)⟩)
  · by_contra hle
    refine hc (.inr ⟨hoffer, ?_⟩)
    rw [hlen, h.inFlight, ← h.cap]
    omega

/-- The claim loop goes on with a positive amount, or ends a call that has seen the list
empty. -/
theorem Refines.claimLoop (h : Refines capacity s r b) {c : Call α} {seen : Bool}
    {max amount since : Nat} {k : Taking α} {d : CursorData} {g : Option Hold}
    (hst : b.status t = .pending c seen) (hcall : c.claiming = some (max, k)) (hle : amount ≤ max)
    (hwin : r.cap + (s.mem.pushed - since) < 2 ^ 32) (htail : d.tail = s.mem.ring.tail)
    (hseen : seen = true ∨
      ∃ b, BlockedRead r (s.mem.pushed - since) d.blocked b ∧ b < r.tail)
    (hm : Modelled ⟨s.mem, Function.update s.threads t ⟨.claimLoop amount k d, since⟩⟩
      (r.setOwn t g)) :
    ∃ b', (b' = b ∨ (atomicFifo capacity).step b none b') ∧
      Refines capacity ⟨s.mem, Function.update s.threads t ⟨.claimLoop amount k d, since⟩⟩
        (r.setOwn t g) b' := by
  by_cases hfilled : d.filledSlots < 1
  · have hop : Op.claimLoop amount k d = .done (k.result 0) := if_pos hfilled
    rw [hop] at hm ⊢
    have htrue : seen = true := by
      rcases hseen with hseen | ⟨bk, hbk, hlt⟩
      · exact hseen
      · have := (h.modelled.filledSlots_eq hbk hwin htail).1
        omega
    refine ⟨b.setStatus t (.done (k.result 0)), .inr ⟨t, c, seen, hst, .inr ⟨_, ?_, rfl⟩⟩,
      h.quiet hm rfl⟩
    cases c <;> first | exact ⟨max, k, hcall, htrue, rfl⟩ | cases hcall
  · have hop : Op.claimLoop amount k d = .claimCas (min amount d.filledSlots) k d := if_neg hfilled
    rw [hop] at hm ⊢
    refine ⟨b.setStatus t (.pending c seen), .inl ?_,
      h.quiet hm ⟨c, seen, max, rfl, hcall, (Nat.min_le_left ..).trans hle⟩⟩
    rw [Fifo.setStatus, ← hst, Function.update_eq_self]

/-- Continue with a snapshot. -/
theorem Refines.tailLoad (h : Refines capacity s r b) {k : Next α} {stolen blocked : UInt32}
    {since : Nat} (hth : s.threads t = ⟨.tailLoad k stolen blocked, since⟩)
    (hwin : (s.threads t).op.seeking = true → r.cap + (s.mem.pushed - since) < 2 ^ 32) :
    ∃ r' b', (b' = b ∨ (atomicFifo capacity).step b none b') ∧
      Refines capacity
        ⟨s.mem, Function.update s.threads t
          ⟨.afterCursorData ⟨stolen, blocked, s.mem.ring.tail, s.mem.ring.buffer.mask + 1,
            s.mem.ring.buffer.mask⟩ k, since⟩⟩ r' b' := by
  obtain ⟨g, hm⟩ := h.modelled.tailLoadStep hth hwin
  have hat := h.at_ t
  rw [hth] at hat hwin
  obtain ⟨c, seen, rfl, hst, hconsumer, hproducer⟩ := hat
  generalize hd : CursorData.mk stolen blocked s.mem.ring.tail (s.mem.ring.buffer.mask + 1)
    s.mem.ring.buffer.mask = d at hm ⊢
  have htail : d.tail = s.mem.ring.tail := by rw [← hd]
  have hanswer : ∀ res, Op.afterCursorData d c.next = .done res → c.Answers seen res →
      ∃ r' b', (b' = b ∨ (atomicFifo capacity).step b none b') ∧
        Refines capacity
          ⟨s.mem, Function.update s.threads t ⟨.afterCursorData d c.next, since⟩⟩ r' b' := by
    intro res hop hres
    rw [hop] at hm ⊢
    exact ⟨_, _, .inr ⟨t, c, seen, hst, .inr ⟨res, hres, rfl⟩⟩, h.quiet hm rfl⟩
  have hwrite : ∀ n val todo max vals f, c.offering = some (max, vals, f) →
      Op.afterCursorData d c.next = .pushWrite d 0 val todo (f n) → n = todo.length + 1 → n ≤ max →
      (∃ rest, vals = val :: todo ++ rest) →
      ∃ r' b', (b' = b ∨ (atomicFifo capacity).step b none b') ∧
        Refines capacity
          ⟨s.mem, Function.update s.threads t ⟨.afterCursorData d c.next, since⟩⟩ r' b' := by
    intro n val todo max vals f hoffer hop hn hmax hvals
    rw [hop] at hm ⊢
    subst hn
    refine ⟨_, b.setStatus t (.pending c seen), .inl ?_,
      h.quiet hm ⟨c, seen, max, vals, f, rfl, hoffer, by omega, by rw [Nat.zero_add], hvals⟩⟩
    rw [Fifo.setStatus, ← hst, Function.update_eq_self]
  have hroom : c.offering.isSome = true → seen = true ∨ 0 < d.emptySlots := by
    intro hc
    refine (hproducer hc).imp_right fun ⟨sc, hsc, hle, hlt⟩ => ?_
    have hst := h.modelled.inv.stolen_le
    have hbt := h.modelled.inv.blocked_le
    rw [h.modelled.emptySlots_eq (by rw [← hd]; exact h.modelled.capacity_eq) htail
      (by rw [← hd]; exact hsc) hle (by omega)]
    omega
  have hclaimer : ∀ max k, c.next = .claim max k → c.claiming = some (max, k) →
      ∃ r' b', (b' = b ∨ (atomicFifo capacity).step b none b') ∧
        Refines capacity
          ⟨s.mem, Function.update s.threads t ⟨.afterCursorData d c.next, since⟩⟩ r' b' := by
    intro max k hnext hcall
    rw [hnext] at hm hwin hth ⊢
    refine ⟨_, h.claimLoop hst hcall le_rfl (hwin rfl) htail ?_ hm⟩
    rw [← hd]
    exact hconsumer (by rw [hcall]; rfl)
  cases c with
  | push val =>
      by_cases hempty : d.emptySlots < 1
      · refine hanswer (.full val) (if_pos hempty) ⟨?_, rfl⟩
        exact (hroom rfl).resolve_right (by omega)
      · exact hwrite 1 val [] 1 [val] _ rfl (if_neg hempty) rfl le_rfl ⟨[], rfl⟩
  | pushBatch max vals =>
      by_cases htake : min (min d.emptySlots max) vals.length < 1
      · refine hanswer (.moved 0 vals) (if_pos htake) ⟨?_, rfl⟩
        rcases hroom rfl with hseen | hpos
        · exact .inl hseen
        · refine .inr ?_
          by_cases hmax : max = 0
          · exact .inl hmax
          · exact .inr (List.eq_nil_of_length_eq_zero (by omega))
      · have hop : Op.afterCursorData d (Call.pushBatch max vals).next = .pushLoop d 0 _ _ :=
          if_neg htake
        generalize hn : min (min d.emptySlots max) vals.length = n at htake hop
        cases htodo : vals.take n with
        | nil =>
            have hlen := congrArg List.length htodo
            rw [List.length_take, List.length_nil] at hlen
            omega
        | cons val todo =>
            have hlen := congrArg List.length htodo
            rw [List.length_take, List.length_cons] at hlen
            refine hwrite n val todo max vals (fun n => .moved n (vals.drop n)) rfl ?_ (by omega)
              (by omega) ⟨vals.drop n, ?_⟩
            · rw [hop, htodo]
              rfl
            · rw [← htodo, List.take_append_drop]
  | pop => exact hclaimer _ _ rfl rfl
  | popBatch max dst => exact hclaimer _ _ rfl rfl
  | popBatchTo max cursor => exact hclaimer _ _ rfl rfl
  | len => exact hanswer _ rfl ⟨_, rfl⟩

/-! ## One step of one thread -/

/-- A thread that is still in its call has been overlooked by the specification, or has
just seen the list empty or full. -/
theorem Refines.note (h : Refines capacity s r b) {c : Call α} {seen : Bool} {o : Op α} {since : Nat}
    (hst : b.status t = .pending c seen)
    (hm : Modelled ⟨s.mem, Function.update s.threads t ⟨o, since⟩⟩ r)
    (hat : ∀ seen', (¬ c.Blocked capacity b ∨ seen' = true) →
      o.At t r (s.mem.pushed - since) (.pending c seen')) :
    ∃ b', (b' = b ∨ (atomicFifo capacity).step b none b') ∧
      Refines capacity ⟨s.mem, Function.update s.threads t ⟨o, since⟩⟩ r b' := by
  by_cases hblocked : c.Blocked capacity b
  · exact ⟨_, .inr ⟨t, c, seen, hst, .inl ⟨hblocked, rfl⟩⟩, h.stay hm (hat true (.inr rfl))⟩
  · refine ⟨b.setStatus t (.pending c seen), .inl ?_, h.stay hm (hat seen (.inl hblocked))⟩
    rw [Fifo.setStatus, ← hst, Function.update_eq_self]

/-- Every tick is nothing to the specification, a look at the list, an answer that leaves
the list alone, or the end of a consumer call that has claimed. -/
theorem Refines.tick (h : Refines capacity s r b) {spurious : Bool} {q : SpmcRingBufferFifo α}
    {o o' : Op α} {since : Nat} (hth : s.threads t = ⟨o, since⟩)
    (hwin : o.seeking = true → r.cap + (s.mem.pushed - since) < 2 ^ 32)
    (hx : Spmc.tick spurious s.mem.ring o = some (q, o')) :
    ∃ r' b', (b' = b ∨ (atomicFifo capacity).step b none b') ∧
      Refines capacity ⟨{ s.mem with ring := q }, Function.update s.threads t ⟨o', since⟩⟩ r' b' := by
  have hat := h.at_ t
  rw [hth] at hat
  have hsame : ∀ {st}, b.status t = st → b.setStatus t st = b := by
    rintro st rfl
    exact congrArg (fun f => { b with status := f }) (Function.update_eq_self t b.status)
  cases o with
  | headLoad k =>
      cases hx
      obtain ⟨c, rfl, hst⟩ := hat
      refine ⟨r, h.note hst (h.modelled.headLoadStep hth) fun seen' hseen =>
        ⟨c, seen', rfl, rfl, fun hc => ?_, fun hc => ?_⟩⟩
      · rcases hseen with hfree | hseen
        · exact .inr ⟨r.blocked, h.modelled.blockedRead _, (h.not_blocked hfree).1 hc⟩
        · exact .inl hseen
      · rcases hseen with hfree | hseen
        · exact .inr ⟨r.stolen, h.modelled.stolen_eq, le_rfl, (h.not_blocked hfree).2 hc⟩
        · exact .inl hseen
  | tailLoad k stolen blocked =>
      cases hx
      exact h.tailLoad hth (by rw [hth]; exact hwin)
  | pushWrite c offset val todo res =>
      cases hx
      obtain ⟨call, seen, max, vals, f, hst, hoffer, hmax, rfl, rest, hvals⟩ := hat
      obtain ⟨hown, hm⟩ := h.modelled.fillStep hth
      have hlt : offset < offset + (todo.length + 1) := by omega
      have hstep : Ring.StepBy t r (r.fill t (offset + (todo.length + 1)) offset val) :=
        .fill val hown hlt
      have hvalues := Ring.values_fill h.modelled.inv val hown hlt
      refine ⟨r.fill t (offset + (todo.length + 1)) offset val, _, .inl (hsame hst), ?_⟩
      refine h.update hm hstep rfl ?_ h.inFlight h.accepted ?_
      · rw [h.list, hstep.unclaimed_eq h.modelled.inv rfl rfl]
      · cases todo with
        | nil =>
            refine ⟨call, seen, max, vals, f, rfl, hoffer, by omega, hmax, rfl, rest, ?_⟩
            rw [hvals]
            exact congrArg (· ++ rest) hvalues.symm
        | cons v todo =>
            refine ⟨call, seen, max, vals, f, rfl, hoffer, ?_, ?_, rest, ?_⟩
            · rw [List.length_cons] at hmax
              omega
            · rw [List.length_cons, show offset + (todo.length + 1 + 1) =
                offset + 1 + (todo.length + 1) by omega]
            · have happend : r.values r.tail offset ++ val :: v :: todo ++ rest =
                  r.values r.tail offset ++ [val] ++ v :: todo ++ rest := by simp
              rw [hvals, happend]
              exact congrArg (· ++ v :: todo ++ rest) hvalues.symm
  | claimCas amount k c =>
      simp only [Spmc.tick] at hx
      split at hx <;> cases hx
      obtain ⟨call, seen, max, hst, hcall, hle⟩ := hat
      refine ⟨r, h.note hst (h.modelled.claimFailStep hth) fun seen' hseen =>
        ⟨call, seen', max, rfl, hcall, hle, ?_⟩⟩
      rcases hseen with hfree | hseen
      · exact .inr ⟨r.blocked, h.modelled.blockedRead _,
          (h.not_blocked hfree).1 (by rw [hcall]; rfl)⟩
      · exact .inl hseen
  | claimTail amount k c found =>
      cases hx
      obtain ⟨call, seen, max, hst, hcall, hle, hseen⟩ := hat
      have hm := h.modelled.claimTailStep hth (hwin rfl)
      have hself : r.setOwn t (r.own t) = r := by rw [Ring.setOwn, Function.update_eq_self]
      rw [← hself] at hm
      exact ⟨_, h.claimLoop hst hcall hle (hwin rfl) rfl hseen hm⟩
  | take amount offset start k =>
      simp only [Spmc.tick] at hx
      split at hx <;> cases hx
      rename_i val hval
      obtain ⟨c, hc, hstart, hlen, htaken, hlt, hm⟩ := h.modelled.takeStep (k.put offset val) hth
      obtain ⟨c', hc', hst⟩ := hat
      obtain rfl : c = c' := by simpa [hc] using hc'
      subst hlen htaken
      have hstep : Ring.StepBy t r (r.take t c) := .take hc hlt
      have hslot : r.slot (c.start + c.taken) = some val := by
        rw [← h.modelled.models.cellAt_ofNat, UInt32.ofNat_add, ← hstart]
        exact hval
      rw [Ring.values_take h.modelled.inv hc hlt hslot] at hst
      refine ⟨r.take t c, _, .inl (hsame hst), ?_⟩
      refine h.update hm hstep rfl ?_ h.inFlight h.accepted ?_
      · rw [h.list, hstep.unclaimed_eq h.modelled.inv rfl rfl]
      · unfold Op.takeLoop
        split
        · exact ⟨{ c with taken := c.taken + 1 }, by simp [Ring.take, Ring.setClaim], rfl⟩
        · rename_i hend
          have hzero : c.len - (c.taken + 1) = 0 := by omega
          rw [hzero]
          rfl
  | publishLoad amount start k =>
      cases hx
      refine ⟨r, _, .inl (hsame hat), h.stay (h.modelled.publishLoadStep hth) ?_⟩
      dsimp only
      split <;> rfl
  | publishCas amount start k current =>
      simp only [Spmc.tick] at hx
      split at hx <;> cases hx
      exact ⟨r, _, .inl (hsame hat), h.stay (h.modelled.publishFailStep hth) rfl⟩
  | idle => cases hx
  | tailStore c amount res => cases hx
  | done res => cases hx

/-- A claim takes the elements it will return from the front. -/
theorem Refines.claim (h : Refines capacity s r b) {c : CursorData} {amount since : Nat}
    {k : Taking α} (hth : s.threads t = ⟨.claimCas amount k c, since⟩)
    (hwin : r.cap + (s.mem.pushed - since) < 2 ^ 32) (hcas : s.mem.ring.head = pack c.stolen c.blocked) :
    ∃ r' b', (atomicFifo capacity).step b (some (t, .claim)) b' ∧
      Refines capacity
        ⟨{ s.mem with ring := { s.mem.ring with head := claimed c amount } },
          Function.update s.threads t ⟨.takeLoop amount 0 c.blocked k, since⟩⟩ r' b' := by
  have hat := h.at_ t
  rw [hth] at hat
  obtain ⟨call, seen, max, hst, hcall, hmax⟩ := hat
  obtain ⟨-, -, hpos, hle, hm⟩ := h.modelled.claimStep hth hwin hcas
  have hr := h.modelled.inv
  have hsb := hr.stolen_le
  have hvlen := Ring.values_claimFront_length hr hle
  have hsplit : b.list = r.values r.blocked amount ++ (r.claimFront t amount).unclaimed := by
    rw [h.list]
    exact Ring.unclaimed_claimFront hle
  have htake : b.list.take amount = r.values r.blocked amount := by
    rw [hsplit, List.take_left' hvlen]
  have hdrop : b.list.drop amount = (r.claimFront t amount).unclaimed := by
    rw [hsplit, List.drop_left' hvlen]
  have hlen : amount ≤ b.list.length := by
    rw [hsplit, List.length_append, hvlen]
    exact Nat.le_add_right ..
  refine ⟨r.claimFront t amount, _, ⟨call, seen, max, k, amount, hst, hcall, hpos, hmax, hlen, rfl⟩,
    h.update hm (.claimFront amount) rfl hdrop ?_ ?_ ?_⟩
  · rw [h.inFlight]
    show r.blocked - r.stolen + amount = r.blocked + amount - r.stolen
    omega
  · rw [h.accepted]
    simp
  · show (Op.takeLoop amount 0 c.blocked k).At ..
    rw [Op.takeLoop, if_pos hpos, htake]
    exact ⟨⟨r.blocked, amount, 0⟩, by simp [Ring.claimFront, Ring.setClaim], rfl⟩

/-- A publication gives the room of a claim back. -/
theorem Refines.publish (h : Refines capacity s r b) {amount since : Nat} {start : UInt32}
    {k : Taking α} {current : UInt64} (hth : s.threads t = ⟨.publishCas amount start k current, since⟩)
    (hcas : s.mem.ring.head = current) :
    ∃ r' b', (atomicFifo capacity).step b (some (t, .publish)) b' ∧
      Refines capacity
        ⟨{ s.mem with ring := { s.mem.ring with head := published current amount } },
          Function.update s.threads t ⟨.done (k.result amount), since⟩⟩ r' b' := by
  have hat := h.at_ t
  rw [hth] at hat
  obtain ⟨c, -, -, -, -, -, hm⟩ := h.modelled.publishStep hth hcas
  refine ⟨r.publish t amount, _, ⟨amount, _, hat, rfl⟩,
    h.update hm (.publish amount) rfl h.list ?_ h.accepted rfl⟩
  rw [h.inFlight]
  exact Nat.sub_sub ..

/-- A store of the tail appends what the producer has written, for which there is room. -/
theorem Refines.commit (h : Refines capacity s r b) {c : CursorData} {amount since : Nat}
    {res : Res α} (hth : s.threads t = ⟨.tailStore c amount res, since⟩) :
    ∃ r' b', (atomicFifo capacity).step b (some (t, .commit)) b' ∧
      Refines capacity
        ⟨⟨{ s.mem.ring with tail := c.tail + UInt32.ofNat amount }, s.mem.pushed + amount⟩,
          Function.update s.threads t ⟨.done res, since⟩⟩ r' b' := by
  have hat := h.at_ t
  rw [hth] at hat
  obtain ⟨call, seen, max, vals, f, hst, hoffer, hpos, hmax, rfl, rest, hvals⟩ := hat
  obtain ⟨hown, hm⟩ := h.modelled.commitStep hth
  have hr := h.modelled.inv
  have hsb := hr.stolen_le
  have hbt := hr.blocked_le
  obtain ⟨-, hroom⟩ := hr.own_room t _ hown
  simp only [Hold.extent] at hroom
  have hvlen := Ring.values_staged_length hr hown
  have htake : vals.take amount = r.values r.tail amount := by rw [hvals, List.take_left' hvlen]
  have hlen : amount ≤ vals.length := by
    rw [hvals, List.length_append, hvlen]
    exact Nat.le_add_right ..
  have hlist : b.list ++ vals.take amount = (r.commit t amount).unclaimed := by
    rw [htake, h.list]
    exact (Ring.unclaimed_commit hr).symm
  refine ⟨r.commit t amount, _, ⟨call, seen, max, vals, f, amount, hst, hoffer, hpos, hmax, hlen, ?_,
    rfl⟩, h.update hm (.commit amount (by simp [hown])) ?_ hlist h.inFlight ?_ rfl⟩
  · rw [h.list, hr.unclaimed_length, h.inFlight, ← h.cap]
    omega
  · show r.tail + amount + s.mem.pushed = r.tail + (s.mem.pushed + amount)
    omega
  · rw [h.accepted, List.append_assoc]

/-- Every step of a thread is one step of the specification with the same observation, or
none at all. -/
theorem Refines.step [DecidableEq α] (h : Refines capacity s r b) {c : Choice α} {producer : τ}
    (hwin : (s.threads t).op.seeking = true →
      r.cap + (s.mem.pushed - (s.threads t).since) < 2 ^ 32)
    (hallowed : c.Allowed producer t)
    (hproducer : ∀ x, (s.threads x).op.own ≠ none → x = producer)
    (hx : Spmc.step t c s.mem (s.threads t) = some (m, th)) :
    ∃ b', (b' = b ∧ event (t, c) = none ∨ (atomicFifo capacity).step b (event (t, c)) b') ∧
      ∃ r', Refines capacity ⟨m, Function.update s.threads t th⟩ r' b' := by
  have hat := h.at_ t
  rcases hth : s.threads t with ⟨o, since⟩
  rw [hth] at hx hat
  simp only [hth] at hwin
  cases c with
  | call c =>
      cases o <;> cases hx
      obtain ⟨g, hg⟩ := h.modelled.callStep hth hallowed hproducer
      exact ⟨_, .inr ⟨hat, rfl⟩, _, h.quiet hg ⟨c, rfl, rfl⟩⟩
  | tick spurious =>
      simp only [Spmc.step] at hx
      split at hx <;> cases hx
      obtain ⟨r', b', hb', href⟩ := h.tick hth hwin ‹_›
      refine ⟨b', ?_, r', href⟩
      rcases hb' with rfl | hb'
      · exact .inl ⟨rfl, rfl⟩
      · exact .inr hb'
  | claim =>
      cases o <;> simp only [Spmc.step, reduceCtorEq] at hx
      split at hx <;> cases hx
      obtain ⟨r', b', hb', href⟩ := h.claim hth (hwin rfl) ‹_›
      exact ⟨b', .inr hb', r', href⟩
  | publish =>
      cases o <;> simp only [Spmc.step, reduceCtorEq] at hx
      split at hx <;> cases hx
      obtain ⟨r', b', hb', href⟩ := h.publish hth ‹_›
      exact ⟨b', .inr hb', r', href⟩
  | commit =>
      cases o <;> cases hx
      obtain ⟨r', b', hb', href⟩ := h.commit hth
      exact ⟨b', .inr hb', r', href⟩
  | ret res =>
      cases o <;> simp only [Spmc.step, reduceCtorEq] at hx
      split at hx <;> cases hx
      rename_i hres
      subst hres
      exact ⟨_, .inr ⟨hat, rfl⟩, r, h.stay (h.modelled.retStep hth) rfl⟩

end Steps

/-! ## Whole runs -/

section Runs

variable [DecidableEq α]

/-- The simulation of the specification. -/
def spmcSimulation (producer : τ) (capacity : Nat) (hcap : acceptsCapacity capacity) :
    Machine.Simulation (spmcMachine (α := α) producer capacity hcap) (atomicFifo capacity) event where
  rel s b := ∃ r, Refines capacity s r b
  init := by
    rintro s ⟨cursor, rfl⟩
    refine ⟨_, rfl, .empty capacity cursor.toNat, Modelled.initial hcap cursor, rfl, ?_, ?_, rfl,
      fun _ => rfl⟩
    · simp [Ring.unclaimed, Ring.values, Ring.empty]
    · simp [Ring.empty]
  step := by
    rintro s b ⟨t, c⟩ s' hs ⟨r, h⟩ hstep
    obtain ⟨hok, hstep⟩ := Machine.restrict_step.mp hstep
    obtain ⟨m, th, hx, rfl⟩ := Machine.ofThreads_step hstep
    exact h.step (h.modelled.window hok) hok.2 (spmcMachine_modelled hs).2.2 hx

omit [DecidableEq τ] [DecidableEq α] in
/-- What {lit}`Drop` visits is the list nobody has claimed. -/
theorem Modelled.dropCells_eq {s : Machine.Shared τ (Mem α) (Thread α)} {r : Ring τ α}
    (h : Modelled s r) : s.mem.ring.dropCells = r.unclaimed.map some := by
  have hcap := h.models.cap_lt
  have hsb := h.inv.stolen_le
  have htl := h.inv.tail_le
  have hlen : (s.mem.ring.tail - (unpack s.mem.ring.head).2).toNat = r.tail - r.blocked := by
    rw [h.tail_eq, h.blocked_eq]
    exact toNat_ofNat_sub h.inv.blocked_le (by omega)
  have hcells : s.mem.ring.dropCells =
      (List.range (r.tail - r.blocked)).map fun k => r.slot (r.blocked + k) := by
    show (List.range (s.mem.ring.tail - (unpack s.mem.ring.head).2).toNat).map (fun offset =>
      s.mem.ring.buffer.cellAt ((unpack s.mem.ring.head).2 + UInt32.ofNat offset)) = _
    rw [hlen]
    refine List.map_congr_left fun k _ => ?_
    rw [h.blocked_eq, ← UInt32.ofNat_add]
    exact h.models.cellAt_ofNat _
  have hlive : ∀ k, k < r.tail - r.blocked → (r.slot (r.blocked + k)).isSome :=
    fun k hk => h.inv.live _ (by omega) (by omega)
  rw [hcells, Ring.unclaimed, Ring.values, List.map_filterMap]
  refine (List.filterMap_eq_map_iff_forall_eq_some.mpr fun k hk => ?_).symm
  obtain ⟨v, hv⟩ := Option.isSome_iff_exists.mp (hlive k (List.mem_range.mp hk))
  simp [hv]

/-- The ring refines an atomic bounded queue.  Every run of the machine has a run of the
specification with the same calls, claims, publications, stores of the tail and returns.
There the batches claimed, in the order of the claims, are a prefix of the elements
accepted, and what is left is what {lit}`Drop` visits. -/
theorem spmc_refines_atomic_fifo (producer : τ) (capacity : Nat) (hcap : acceptsCapacity capacity)
    {s₀ s : Machine.Shared τ (Mem α) (Thread α)} {ls : List (τ × Choice α)}
    (hinit : (spmcMachine producer capacity hcap).init s₀)
    (hrun : (spmcMachine producer capacity hcap).run s₀ ls = some s) :
    ∃ b, (atomicFifo capacity).Trace b (Machine.observations event ls) ∧
      b.accepted = b.batches.flatten ++ b.list ∧ s.mem.ring.dropCells = b.list.map some := by
  obtain ⟨b, htrace, r, href⟩ := (spmcSimulation producer capacity hcap).trace hinit hrun
  refine ⟨b, htrace, href.accepted, ?_⟩
  rw [href.modelled.dropCells_eq, href.list]

/-- After two claims are begun across the wrap nothing is left to drop. -/
theorem spmc_refines_on_two_claims :
    ∃ b, (atomicFifo 2).Trace b (Machine.observations event twoClaims) ∧ b.list = [] := by
  have hrun : ((spmcMachine 0 2 acceptsRingOfTwo).run ringOfTwo twoClaims).isSome := by
    decide +kernel
  have hempty : ((spmcMachine 0 2 acceptsRingOfTwo).after ringOfTwo twoClaims).mem.ring.dropCells =
      [] := by
    decide +kernel
  obtain ⟨b, htrace, -, hdrop⟩ := spmc_refines_atomic_fifo 0 2 acceptsRingOfTwo ⟨0xFFFFFFFF, rfl⟩
    (Machine.run_after hrun)
  exact ⟨b, htrace, List.map_eq_nil_iff.mp (hdrop.symm.trans hempty)⟩

end Runs

end Spmc

end XynokConcurrency
