import XynokConcurrency.Collection.SpmcHandles

/-!
# Waiting to publish

A consumer that has taken its elements out waits until stolen has come to the start of its
claim.  A claim of nothing, which {lit}`pop_batch(0)` wins when debug assertions are
compiled out, has the start of the claim that is won after it; if that one publishes
first, stolen jumps over the start and the consumer waits for the cursor to wrap.

Main results:

- Theorem {lit}`empty_claim_left_behind`: stolen moves past a waiting consumer.
- Theorem {lit}`none_left_behind`: unless a claim is published ahead of an empty one with
  the same start, no consumer is left behind.
-/

namespace XynokConcurrency

namespace Spmc

open ClaimRing

variable {τ α : Type}

/-! ## The positions of the consumers -/

/-- Start of the claim that a program point waits to publish. -/
def Op.waitsAt : Op α → Option UInt32
  | .publishLoad _ start _ | .publishCas _ start _ _ => some start
  | _ => none

/-- The stolen cursor of a state. -/
def stolenOf (s : Machine.Shared τ (Mem α) (Thread α)) : UInt32 :=
  (unpack s.mem.ring.head).1

/-- Distance of a cursor from stolen. -/
def ahead (s : Machine.Shared τ (Mem α) (Thread α)) (cursor : UInt32) : Nat :=
  (cursor - stolenOf s).toNat

/-- Only stolen itself has no distance from stolen. -/
theorem ahead_eq_zero {s : Machine.Shared τ (Mem α) (Thread α)} {cursor : UInt32} :
    ahead s cursor = 0 ↔ cursor = stolenOf s := by
  have hc := cursor.toNat_lt
  have hs := (stolenOf s).toNat_lt
  refine ⟨fun h => UInt32.toNat_inj.mp ?_, fun h => ?_⟩
  · simp only [ahead, UInt32.toNat_sub] at h
    omega
  · rw [h, ahead, UInt32.sub_self]
    rfl

/-- Distances after stolen has moved on. -/
theorem ahead_of_stolen_add {s s' : Machine.Shared τ (Mem α) (Thread α)} {n : Nat}
    (hn : n < 2 ^ 32) (h : stolenOf s' = stolenOf s + UInt32.ofNat n) (cursor : UInt32) :
    ahead s' cursor = if n ≤ ahead s cursor then ahead s cursor - n
      else 2 ^ 32 + ahead s cursor - n := by
  have hc := cursor.toNat_lt
  have hs := (stolenOf s).toNat_lt
  simp only [ahead, h, UInt32.toNat_sub, UInt32.toNat_add, UInt32.toNat_ofNat']
  split <;> omega

/-- Number of slots claimed and not yet given back. -/
def claimedLen (s : Machine.Shared τ (Mem α) (Thread α)) : Nat :=
  ahead s (unpack s.mem.ring.head).2

/-- Every waiting consumer has its start between stolen and blocked, and waits for another
claim that starts at stolen, or for nobody. -/
def NoneLeftBehind (s : Machine.Shared τ (Mem α) (Thread α)) : Prop :=
  ∀ x start, (s.threads x).op.waitsAt = some start → ahead s start ≤ claimedLen s ∧
    (start ≠ stolenOf s →
      ∃ y v, y ≠ x ∧ (s.threads y).op.claim = some v ∧ v.start = stolenOf s)

/-- One thread produces, and fewer than {lit}`2 ^ 31` elements are pushed during a consumer
call. -/
def Paced (producer : τ) (s : Machine.Shared τ (Mem α) (Thread α)) (l : τ × Choice α) : Prop :=
  ByProducer producer l ∧
    ((s.threads l.1).op.consuming = true → s.mem.pushed - (s.threads l.1).since < 2 ^ 31)

instance [DecidableEq τ] (producer : τ) (s : Machine.Shared τ (Mem α) (Thread α))
    (l : τ × Choice α) : Decidable (Paced producer s l) :=
  inferInstanceAs (Decidable (_ ∧ _))

/-- The step publishes no claim ahead of an empty one with the same start. -/
def LeavesNobody (s : Machine.Shared τ (Mem α) (Thread α)) (l : τ × Choice α) : Prop :=
  l.2 = .publish → ∀ v, (s.threads l.1).op.claim = some v → 0 < v.amount →
    ∀ x w, (s.threads x).op.claim = some w → w.amount = 0 → w.start ≠ v.start

/-- With finitely many threads it can be computed whether a step leaves somebody behind. -/
instance [Fintype τ] (s : Machine.Shared τ (Mem α) (Thread α)) (l : τ × Choice α) :
    Decidable (LeavesNobody s l) :=
  match l with
  | (t, .publish) =>
      decidable_of_iff
        (∀ v ∈ (s.threads t).op.claim, 0 < v.amount →
          ∀ x, ∀ w ∈ (s.threads x).op.claim, w.amount = 0 → w.start ≠ v.start)
        ⟨fun h _ => h, fun h => h rfl⟩
  | (_, .call _) | (_, .tick _) | (_, .claim) | (_, .commit) | (_, .ret _) => isTrue nofun

/-! ## A claim of nothing -/

/-- Thread 1 wins a claim of nothing at the start of the ring; thread 2 wins the first
element there and publishes. -/
def emptyClaim : List (Nat × Choice Nat) :=
  [(0, .call (.push 5)), (0, .tick false), (0, .tick false), (0, .tick false), (0, .commit),
    (0, .ret .pushed), (1, .call (.popBatch 0 [])), (1, .tick false), (1, .tick false),
    (1, .claim), (2, .call .pop), (2, .tick false), (2, .tick false), (2, .claim),
    (2, .tick false), (2, .tick false), (2, .publish)]

/-- Thread 1 waits at a start that stolen has gone past. -/
theorem empty_claim_left_behind :
    ¬ ∀ s, (ringMachine (τ := Nat) (α := Nat) 2 acceptsRingOfTwo).ReachableVia (Paced 0) s →
      NoneLeftBehind s := by
  intro h
  have hsome : (((ringMachine 2 acceptsRingOfTwo).restrict (Paced 0)).run ringOfTwo
      emptyClaim).isSome := by
    decide +kernel
  have hwaits : ((((ringMachine 2 acceptsRingOfTwo).restrict (Paced 0)).after ringOfTwo
      emptyClaim).threads 1).op.waitsAt = some 0xFFFFFFFF := by
    decide +kernel
  have hstart : (ringMachine 2 acceptsRingOfTwo).ReachableVia (Paced 0) ringOfTwo :=
    .init ⟨0xFFFFFFFF, rfl⟩
  have hreach := hstart.run (Machine.run_after hsome)
  exact absurd (h _ hreach 1 0xFFFFFFFF hwaits).1 (by decide +kernel)

/-! ## The words of a ring in order -/

/-- What the words of a ring in order say about stolen, blocked and the claims that are for
something. -/
structure Words (s : Machine.Shared τ (Mem α) (Thread α)) : Prop where
  claimed_lt : claimedLen s < 2 ^ 31
  claim_range : ∀ x v, (s.threads x).op.claim = some v → 0 < v.amount →
    ahead s v.start + v.amount ≤ claimedLen s
  claim_first : (unpack s.mem.ring.head).2 ≠ stolenOf s →
    ∃ x v, (s.threads x).op.claim = some v ∧ 0 < v.amount ∧ v.start = stolenOf s
  publish_first : ∀ x amount start k current, (s.threads x).op = .publishCas amount start k current →
    0 < amount → (unpack current).1 = start

/-- Claims that are for something are those of the modelled threads. -/
theorem Shows.words {capacity : Nat} {s e : Machine.Shared τ (Mem α) (Thread α)} {r : Ring τ α}
    {b₀ b : Fifo τ α} (hshow : Shows s e b₀ b) (href : Refines capacity e r b₀) : Words s := by
  have hm := href.modelled
  have hown := hm.slotOwnership
  have hcap : e.mem.ring.buffer.capacity < 2 ^ 31 := by
    rw [show e.mem.ring.buffer.capacity = r.cap from hm.models.cap]
    exact hm.models.cap_lt
  have hmem := hshow.mem
  have hattached : ∀ x v, (s.threads x).op.claim = some v → 0 < v.amount →
      e.threads x = s.threads x := by
    intro x v hv hpos
    refine (hshow.attached x fun hd => ?_).1
    cases hop : (s.threads x).op with
    | publishLoad amount start k =>
        rw [hop] at hv hd
        cases hv
        exact hpos.ne' hd
    | publishCas amount start k current =>
        rw [hop] at hv hd
        cases hv
        exact hpos.ne' hd
    | take amount offset start k =>
        rw [hop] at hd
        exact hd
    | _ =>
        rw [hop] at hv
        cases hv
  have hattached' : ∀ x v, (e.threads x).op.claim = some v → e.threads x = s.threads x := by
    intro x v hv
    refine (hshow.attached x fun hd => ?_).1
    rw [(hshow.detached x hd).1] at hv
    cases hv
  refine ⟨?_, fun x v hv hpos => ?_, fun hne => ?_, fun x amount start k current hop hpos => ?_⟩
  · have h₁ := hown.blocked_le
    have h₂ := hown.tail_le
    rw [hmem] at h₁ h₂ hcap
    simp only [claimedLen, ahead, stolenOf]
    omega
  · have h := (hown.claim_range x v (by rw [hattached x v hv hpos]; exact hv)).2
    rw [hmem] at h
    exact h
  · obtain ⟨x, ⟨v, hv, hstart⟩, -⟩ := hown.claim_first (by rw [hmem]; exact hne.symm)
    have hpos := (hown.claim_range x v hv).1
    rw [hattached' x v hv] at hv
    rw [hmem] at hstart
    exact ⟨x, v, hv, hpos, hstart⟩
  · have hknows := hm.knows x
    rw [hattached x ⟨start, amount, amount⟩ (by rw [hop]; rfl) hpos, hop] at hknows
    exact hknows

/-! ## Empty claims -/

/-- Every empty claim starts between stolen and blocked, and inside no other claim. -/
def EmptyClaims (s : Machine.Shared τ (Mem α) (Thread α)) : Prop :=
  ∀ x w, (s.threads x).op.claim = some w → w.amount = 0 → ahead s w.start ≤ claimedLen s ∧
    ∀ y v, (s.threads y).op.claim = some v → 0 < v.amount →
      ahead s w.start ≤ ahead s v.start ∨ ahead s v.start + v.amount ≤ ahead s w.start

/-- Nobody is left behind where the empty claims are in place. -/
theorem Words.noneLeftBehind {s : Machine.Shared τ (Mem α) (Thread α)} (h : Words s)
    (hempty : EmptyClaims s) : NoneLeftBehind s := by
  intro x start hwaits
  obtain ⟨v, hv, rfl⟩ : ∃ v, (s.threads x).op.claim = some v ∧ v.start = start := by
    cases hop : (s.threads x).op <;> rw [hop] at hwaits <;> cases hwaits <;> exact ⟨_, rfl, rfl⟩
  have hle : ahead s v.start ≤ claimedLen s := by
    by_cases hzero : v.amount = 0
    · exact (hempty x v hv hzero).1
    · have := h.claim_range x v hv (Nat.pos_of_ne_zero hzero)
      omega
  refine ⟨hle, fun hne => ?_⟩
  have hpos : 0 < ahead s v.start := Nat.pos_of_ne_zero fun hzero => hne (ahead_eq_zero.mp hzero)
  have hblocked : (unpack s.mem.ring.head).2 ≠ stolenOf s := by
    intro heq
    have hzero : claimedLen s = 0 := ahead_eq_zero.mpr heq
    omega
  obtain ⟨y, u, hu, -, hfirst⟩ := h.claim_first hblocked
  refine ⟨y, u, ?_, hu, hfirst⟩
  rintro rfl
  rw [hv] at hu
  cases hu
  exact hne hfirst

/-! ## One step -/

variable [DecidableEq α]

/-- What a step does to the claims: it leaves them where they are, wins one at blocked, or
publishes one. -/
inductive ClaimMove (m m' : Mem α) (o o' : Op α) : Choice α → Prop
  | keep (c : Choice α) (hhead : m'.ring.head = m.ring.head)
      (hclaim : ∀ v, o'.claim = some v →
        ∃ v₀, o.claim = some v₀ ∧ v.start = v₀.start ∧ v.amount = v₀.amount) :
      ClaimMove m m' o o' c
  | win (amount : Nat) (hstolen : (unpack m'.ring.head).1 = (unpack m.ring.head).1)
      (hblocked : (unpack m'.ring.head).2 = (unpack m.ring.head).2 + UInt32.ofNat amount)
      (hclaim : ∃ taken, o'.claim = some ⟨(unpack m.ring.head).2, amount, taken⟩) :
      ClaimMove m m' o o' .claim
  | publish (amount : Nat) (start : UInt32) (k : Taking α) (ho : o = .publishCas amount start k m.ring.head)
      (hstolen : (unpack m'.ring.head).1 = (unpack m.ring.head).1 + UInt32.ofNat amount)
      (hblocked : (unpack m'.ring.head).2 = (unpack m.ring.head).2) (hclaim : o'.claim = none) :
      ClaimMove m m' o o' .publish

omit [DecidableEq α] in
/-- A call that has only looked at the cursors has claimed nothing. -/
theorem afterCursorData_claim (d : CursorData) (k : Next α) : (Op.afterCursorData d k).claim = none := by
  have hpush : ∀ res (vals : List α), (Op.pushLoop d 0 res vals).claim = none := by
    intro res vals
    cases vals <;> rfl
  cases k with
  | len => rfl
  | push val =>
      simp only [Op.afterCursorData]
      split
      · rfl
      · exact hpush _ _
  | pushBatch max vals =>
      simp only [Op.afterCursorData]
      split
      · rfl
      · exact hpush _ _
  | claim amount k =>
      simp only [Op.afterCursorData, Op.claimLoop]
      split <;> rfl

/-- Every step is one of the moves. -/
theorem step_claims {t : τ} {c : Choice α} {m m' : Mem α} {th th' : Thread α}
    (hx : Spmc.step t c m th = some (m', th')) : ClaimMove m m' th.op th'.op c := by
  rcases th with ⟨o, since⟩
  cases c with
  | call c =>
      cases o <;> cases hx
      exact .keep _ rfl (by rintro _ ⟨⟩)
  | commit =>
      cases o <;> cases hx
      exact .keep _ rfl (by rintro _ ⟨⟩)
  | ret r =>
      cases o <;> simp only [Spmc.step, reduceCtorEq] at hx
      split at hx <;> cases hx
      exact .keep _ rfl (by rintro _ ⟨⟩)
  | claim =>
      cases o <;> simp only [Spmc.step, reduceCtorEq] at hx
      split at hx <;> cases hx
      rename_i amount k d hcas
      refine .win amount ?_ ?_ ?_
      · simp [claimed, hcas]
      · simp [claimed, hcas]
      · simp only [hcas, unpack_pack, Op.takeLoop]
        split
        · exact ⟨0, rfl⟩
        · exact ⟨amount, rfl⟩
  | publish =>
      cases o <;> simp only [Spmc.step, reduceCtorEq] at hx
      split at hx <;> cases hx
      rename_i amount start k current hcas
      exact .publish amount start k (by rw [hcas]) (by simp [published, hcas])
        (by simp [published, hcas]) rfl
  | tick spurious =>
      simp only [Spmc.step] at hx
      split at hx <;> cases hx
      rename_i q o' htick
      cases o with
      | headLoad k =>
          cases htick
          exact .keep _ rfl (by rintro _ ⟨⟩)
      | tailLoad k stolen blocked =>
          cases htick
          refine .keep _ rfl fun v hv => ?_
          rw [afterCursorData_claim] at hv
          cases hv
      | pushWrite d offset val todo res =>
          cases htick
          refine .keep _ rfl fun v hv => ?_
          cases todo <;> cases hv
      | claimCas amount k d =>
          simp only [tick] at htick
          split at htick <;> cases htick
          exact .keep _ rfl (by rintro _ ⟨⟩)
      | claimTail amount k d found =>
          cases htick
          refine .keep _ rfl fun v hv => ?_
          simp only [Op.claimLoop] at hv
          split at hv <;> cases hv
      | take amount offset start k =>
          simp only [tick] at htick
          split at htick <;> cases htick
          refine .keep _ rfl fun v hv => ⟨⟨start, amount, offset⟩, rfl, ?_⟩
          simp only [Op.takeLoop] at hv
          split at hv <;> cases hv <;> exact ⟨rfl, rfl⟩
      | publishLoad amount start k =>
          cases htick
          refine .keep _ rfl fun v hv => ⟨⟨start, amount, amount⟩, rfl, ?_⟩
          dsimp only at hv
          split at hv <;> cases hv <;> exact ⟨rfl, rfl⟩
      | publishCas amount start k current =>
          simp only [tick] at htick
          split at htick <;> cases htick
          refine .keep _ rfl fun v hv => ⟨⟨start, amount, amount⟩, rfl, ?_⟩
          cases hv
          exact ⟨rfl, rfl⟩
      | _ => cases htick

section Step

variable [DecidableEq τ] {capacity : Nat} {hcap : acceptsCapacity capacity}
  {s s' : Machine.Shared τ (Mem α) (Thread α)} {l : τ × Choice α}

omit [DecidableEq τ] [DecidableEq α] in
/-- Where stolen and blocked stay and no claim is new, the empty claims stay in place. -/
theorem EmptyClaims.of_claims (h : EmptyClaims s) (hstolen : stolenOf s' = stolenOf s)
    (hblocked : (unpack s'.mem.ring.head).2 = (unpack s.mem.ring.head).2)
    (hclaims : ∀ x v, (s'.threads x).op.claim = some v →
      ∃ v₀, (s.threads x).op.claim = some v₀ ∧ v.start = v₀.start ∧ v.amount = v₀.amount) :
    EmptyClaims s' := by
  have hahead : ∀ cursor, ahead s' cursor = ahead s cursor := fun cursor => by
    rw [ahead, hstolen, ahead]
  have hlen : claimedLen s' = claimedLen s := by
    rw [claimedLen, hblocked, hahead, claimedLen]
  intro x w hw hzero
  obtain ⟨w₀, hw₀, hstart, hamount⟩ := hclaims x w hw
  obtain ⟨hle, hothers⟩ := h x w₀ hw₀ (hamount ▸ hzero)
  rw [hahead, hlen, hstart]
  refine ⟨hle, fun y v hv hpos => ?_⟩
  obtain ⟨v₀, hv₀, hstart', hamount'⟩ := hclaims y v hv
  rw [hahead, hstart', hamount']
  exact hothers y v₀ hv₀ (hamount' ▸ hpos)

omit [DecidableEq α] in
/-- A claim is won at blocked, where no empty claim lies inside of it. -/
theorem EmptyClaims.win (h : EmptyClaims s) (hw : Words s) {m : Mem α} {th : Thread α} {t : τ}
    {amount taken : Nat} (hw' : Words ⟨m, Function.update s.threads t th⟩)
    (hstolen : (unpack m.ring.head).1 = stolenOf s)
    (hblocked : (unpack m.ring.head).2 = (unpack s.mem.ring.head).2 + UInt32.ofNat amount)
    (hclaim : th.op.claim = some ⟨(unpack s.mem.ring.head).2, amount, taken⟩) :
    EmptyClaims ⟨m, Function.update s.threads t th⟩ := by
  generalize hs' : (⟨m, Function.update s.threads t th⟩ :
    Machine.Shared τ (Mem α) (Thread α)) = s' at *
  have hahead : ∀ cursor, ahead s' cursor = ahead s cursor := fun cursor => by
    rw [ahead, ← hs', stolenOf, hstolen, ahead]
  have hself : (s'.threads t).op.claim = some ⟨(unpack s.mem.ring.head).2, amount, taken⟩ := by
    rw [← hs', ← hclaim]
    simp
  have hother : ∀ x, x ≠ t → s'.threads x = s.threads x := fun x hx => by
    rw [← hs']
    exact Function.update_of_ne hx ..
  have hlen : claimedLen s ≤ claimedLen s' := by
    by_cases hzero : amount = 0
    · refine le_of_eq ?_
      rw [claimedLen, claimedLen, hahead, ← hs', hblocked, hzero]
      simp
    · have h := hw'.claim_range t _ hself (Nat.pos_of_ne_zero hzero)
      rw [hahead] at h
      exact le_trans (Nat.le_add_right ..) h
  intro x w hwx hzero
  by_cases hxt : x = t
  · -- the new claim is empty: it starts at blocked, where all others have ended
    subst hxt
    obtain rfl := Option.some.inj (hself.symm.trans hwx)
    rw [hahead]
    refine ⟨hlen, fun y v hv hpos => .inr ?_⟩
    by_cases hyt : y = x
    · subst hyt
      obtain rfl := Option.some.inj (hself.symm.trans hv)
      exact absurd hzero hpos.ne'
    · rw [hother y hyt] at hv
      rw [hahead]
      exact hw.claim_range y v hv hpos
  · rw [hother x hxt] at hwx
    obtain ⟨hle, hothers⟩ := h x w hwx hzero
    rw [hahead]
    refine ⟨hle.trans hlen, fun y v hv hpos => ?_⟩
    rw [hahead]
    by_cases hyt : y = t
    · subst hyt
      obtain rfl := Option.some.inj (hself.symm.trans hv)
      exact .inl hle
    · rw [hother y hyt] at hv
      exact hothers y v hv hpos

omit [DecidableEq α] in
/-- A claim that is for something is published: the empty claims all lie behind it. -/
theorem EmptyClaims.publish (h : EmptyClaims s) (hw : Words s) {m : Mem α} {th : Thread α} {t : τ}
    {amount : Nat} {start : UInt32} {k : Taking α} (hpos : 0 < amount)
    (hw' : Words ⟨m, Function.update s.threads t th⟩)
    (hop : (s.threads t).op = .publishCas amount start k s.mem.ring.head)
    (hothers : ∀ x w, (s.threads x).op.claim = some w → w.amount = 0 → w.start ≠ start)
    (hstolen : (unpack m.ring.head).1 = stolenOf s + UInt32.ofNat amount)
    (hblocked : (unpack m.ring.head).2 = (unpack s.mem.ring.head).2)
    (hclaim : th.op.claim = none) : EmptyClaims ⟨m, Function.update s.threads t th⟩ := by
  generalize hs' : (⟨m, Function.update s.threads t th⟩ :
    Machine.Shared τ (Mem α) (Thread α)) = s' at *
  have hold : ∀ x v, (s'.threads x).op.claim = some v → (s.threads x).op.claim = some v := by
    intro x v hv
    rw [← hs'] at hv
    by_cases hxt : x = t
    · subst hxt
      simp [hclaim] at hv
    · simpa [hxt] using hv
  have hfirst : start = stolenOf s := (hw.publish_first t amount start k _ hop hpos).symm
  have hself : (s.threads t).op.claim = some ⟨start, amount, amount⟩ := by
    rw [hop]
    rfl
  have hzero : ahead s start = 0 := ahead_eq_zero.mpr hfirst
  have hle := hw.claim_range t _ hself hpos
  have hlt := hw.claimed_lt
  have hnew : stolenOf s' = stolenOf s + UInt32.ofNat amount := by rw [← hs', stolenOf, hstolen]
  have hmoved := ahead_of_stolen_add (by dsimp only at hle; omega) hnew
  have hlen : claimedLen s' = claimedLen s - amount := by
    rw [claimedLen, hmoved, ← hs', hblocked, ← claimedLen, if_pos (by dsimp only at hle; omega)]
  intro x w hwx hwzero
  have hwx := hold x w hwx
  obtain ⟨hwle, hwothers⟩ := h x w hwx hwzero
  have hbehind : amount ≤ ahead s w.start := by
    rcases hwothers t _ hself hpos with hahead | hbehind
    · dsimp only at hahead
      refine absurd ((ahead_eq_zero.mp ?_).trans hfirst.symm) (hothers x w hwx hwzero)
      omega
    · dsimp only at hbehind
      omega
  rw [hmoved, if_pos hbehind]
  refine ⟨by omega, fun y v hv hvpos => ?_⟩
  have hrange := hw'.claim_range y v hv hvpos
  have hvothers := hwothers y v (hold y v hv) hvpos
  rw [hmoved] at hrange ⊢
  split at hrange
  · rename_i hvbehind
    rw [if_pos hvbehind]
    omega
  · omega

/-- A step that leaves nobody keeps the empty claims in place. -/
theorem EmptyClaims.step (h : EmptyClaims s) (hw : Words s) (hw' : Words s')
    (hleave : LeavesNobody s l) (hstep : (ringMachine capacity hcap).step s l = some s') :
    EmptyClaims s' := by
  obtain ⟨m, th, hx, rfl⟩ := Machine.ofThreads_step hstep
  obtain ⟨t, c⟩ := l
  have hclaims : (∀ v, th.op.claim = some v → ∃ v₀, (s.threads t).op.claim = some v₀ ∧
      v.start = v₀.start ∧ v.amount = v₀.amount) →
      ∀ x v, (Function.update s.threads t th x).op.claim = some v →
        ∃ v₀, (s.threads x).op.claim = some v₀ ∧ v.start = v₀.start ∧ v.amount = v₀.amount := by
    intro hself x v hv
    by_cases hxt : x = t
    · subst hxt
      exact hself v (by simpa using hv)
    · exact ⟨v, by simpa [hxt] using hv, rfl, rfl⟩
  cases step_claims hx with
  | keep _ hhead hclaim =>
      exact h.of_claims (by simp only [stolenOf, hhead]) (by simp only [hhead]) (hclaims hclaim)
  | win amount hstolen hblocked hclaim =>
      obtain ⟨taken, hclaim⟩ := hclaim
      exact h.win hw hw' hstolen hblocked hclaim
  | publish amount start k hop hstolen hblocked hclaim =>
      by_cases hzero : amount = 0
      · refine h.of_claims ?_ hblocked (hclaims (by rw [hclaim]; exact nofun))
        simp [stolenOf, hstolen, hzero]
      · have hpos := Nat.pos_of_ne_zero hzero
        have hself : (s.threads t).op.claim = some ⟨start, amount, amount⟩ := by
          rw [hop]
          rfl
        exact h.publish hw hpos hw' hop (hleave rfl _ hself hpos) hstolen hblocked hclaim

end Step

/-! ## Whole runs -/

section Runs

variable [DecidableEq τ] {capacity : Nat} {hcap : acceptsCapacity capacity} {producer : τ}
  {s s' : Machine.Shared τ (Mem α) (Thread α)} {l : τ × Choice α}

/-- The steps of the runs in which nobody is left behind. -/
def PacedLeavingNobody (producer : τ) (s : Machine.Shared τ (Mem α) (Thread α))
    (l : τ × Choice α) : Prop :=
  Paced producer s l ∧ LeavesNobody s l

instance [Fintype τ] (producer : τ) (s : Machine.Shared τ (Mem α) (Thread α))
    (l : τ × Choice α) : Decidable (PacedLeavingNobody producer s l) :=
  inferInstanceAs (Decidable (_ ∧ _))

omit [DecidableEq α] [DecidableEq τ] in
/-- A consumer that is not overtaken by half a wrap of pushes is not overtaken by a wrap. -/
theorem Paced.not_overtaken (h : Paced producer s l)
    (hcapacity : s.mem.ring.buffer.capacity < 2 ^ 31) : ¬ Overtaken s l.1 := by
  rintro ⟨hlag, amount, k, d, hop, -⟩
  have hpushed := h.2 (by rw [hop]; rfl)
  simp only [lag] at hlag
  omega

/-- What holds in the states of such runs. -/
structure WaitingInOrder (capacity : Nat) (producer : τ)
    (s : Machine.Shared τ (Mem α) (Thread α)) : Prop where
  capacity_eq : s.mem.ring.buffer.capacity = capacity
  shows : ∃ e b₀ b r, Shows s e b₀ b ∧ Refines capacity e r b₀
  producer_only : ∀ x, (s.threads x).op.own ≠ none → x = producer
  empty_claims : EmptyClaims s

/-- A paced step that leaves nobody keeps all of it. -/
theorem WaitingInOrder.step (h : WaitingInOrder capacity producer s)
    (hok : PacedLeavingNobody producer s l)
    (hstep : (ringMachine capacity hcap).step s l = some s') :
    WaitingInOrder capacity producer s' := by
  obtain ⟨e, b₀, b, r, hshow, href⟩ := h.shows
  have hlt : s.mem.ring.buffer.capacity < 2 ^ 31 := by
    rw [h.capacity_eq]
    exact hcap.2.1
  have horderly := hok.1.1.orderly h.producer_only (fun _ => hok.1.not_overtaken hlt) hstep
  have hproducer := hok.1.1.own_step h.producer_only hstep
  obtain ⟨m, th, hx, hs'⟩ := Machine.ofThreads_step hstep
  obtain ⟨b', -, e', b₁, r', hshow', href'⟩ := hshow.step (c := l.2) href horderly hx
  rw [← hs'] at hshow'
  refine ⟨?_, ⟨e', b₁, b', r', hshow', href'⟩, hproducer,
    h.empty_claims.step (hshow.words href) (hshow'.words href') hok.2 hstep⟩
  rw [hs']
  exact (step_capacity hx).trans h.capacity_eq

/-- All of it holds along the runs. -/
theorem waitingInOrder
    (hs : (ringMachine capacity hcap).ReachableVia (PacedLeavingNobody producer) s) :
    WaitingInOrder capacity producer s := by
  classical
  refine Machine.ReachableVia.invariant (I := WaitingInOrder capacity producer) ?_
    (fun s l s' _ hI hok hstep => hI.step hok hstep) hs
  intro s hinit
  obtain ⟨b, -, hcapacity, e, b₀, r, hshow, href⟩ := (handleSimulation capacity hcap).init s hinit
  obtain ⟨cursor, rfl⟩ := hinit
  exact ⟨hcapacity, ⟨e, b₀, b, r, hshow, href⟩, fun x hx => (hx rfl).elim, nofun⟩

/-- A step takes stolen no further than the start of any other consumer that waits. -/
theorem WaitingInOrder.stolen_le (h : WaitingInOrder capacity producer s)
    (hok : PacedLeavingNobody producer s l)
    (hstep : (ringMachine capacity hcap).step s l = some s') {x : τ} {start : UInt32}
    (hx : x ≠ l.1) (hwaits : (s.threads x).op.waitsAt = some start) :
    (stolenOf s' - stolenOf s).toNat ≤ ahead s start := by
  have h' := h.step hok hstep
  obtain ⟨e, b₀, b, r, hshow, href⟩ := h.shows
  obtain ⟨e', b₀', b', r', hshow', href'⟩ := h'.shows
  have hw := hshow.words href
  have hw' := hshow'.words href'
  have hafter : ahead s' start ≤ claimedLen s' := by
    refine (hw'.noneLeftBehind h'.empty_claims x start ?_).1
    obtain ⟨m, th, -, rfl⟩ := Machine.ofThreads_step hstep
    simpa [hx] using hwaits
  have hlt := hw'.claimed_lt
  obtain ⟨m, th, hx, hs'⟩ := Machine.ofThreads_step hstep
  have hstays : stolenOf s' = stolenOf s → (stolenOf s' - stolenOf s).toNat ≤ ahead s start := by
    intro heq
    rw [heq, UInt32.sub_self]
    exact Nat.zero_le _
  have hhead : s'.mem = m := by rw [hs']
  obtain ⟨t, c⟩ := l
  cases step_claims hx with
  | keep _ hkept hclaim => exact hstays (by simp only [stolenOf, hhead, hkept])
  | win amount hstolen hblocked hclaim => exact hstays (by simp only [stolenOf, hhead, hstolen])
  | publish amount first k hop hstolen hblocked hclaim =>
      by_cases hzero : amount = 0
      · exact hstays (by simp [stolenOf, hhead, hstolen, hzero])
      · have hle := hw.claim_range t ⟨first, amount, amount⟩ (by rw [hop]; rfl)
          (Nat.pos_of_ne_zero hzero)
        have hbound := hw.claimed_lt
        dsimp only at hle
        have hmoved : stolenOf s' = stolenOf s + UInt32.ofNat amount := by
          simp only [stolenOf, hhead, hstolen]
        have hdist := ahead_of_stolen_add (by omega) hmoved start
        have hdiff : (stolenOf s' - stolenOf s).toNat = amount := by
          have hlt := (stolenOf s).toNat_lt
          simp only [hmoved, UInt32.toNat_sub, UInt32.toNat_add, UInt32.toNat_ofNat']
          omega
        rw [hdiff]
        split at hdist
        · assumption
        · omega

/-- No consumer is left behind, and stolen moves past no consumer that waits, while no
claim is published ahead of an empty one with the same start. -/
theorem none_left_behind (hcap : acceptsCapacity capacity) (producer : τ)
    (hs : (ringMachine capacity hcap).ReachableVia (PacedLeavingNobody producer) s) :
    NoneLeftBehind s ∧ ∀ l s', PacedLeavingNobody producer s l →
      (ringMachine capacity hcap).step s l = some s' →
        ∀ x start, x ≠ l.1 → (s.threads x).op.waitsAt = some start →
          (stolenOf s' - stolenOf s).toNat ≤ ahead s start := by
  have h := waitingInOrder hs
  obtain ⟨e, b₀, b, r, hshow, href⟩ := h.shows
  exact ⟨(hshow.words href).noneLeftBehind h.empty_claims,
    fun l s' hok hstep x start hx hwaits => h.stolen_le hok hstep hx hwaits⟩

/-- The ring of two slots with two threads. -/
def ringOfPair : Machine.Shared Bool (Mem Nat) (Thread Nat) :=
  ⟨⟨.startingAt 0xFFFFFFFF 2 acceptsRingOfTwo, 0⟩, fun _ => ⟨.idle, 0⟩⟩

/-- The first thread pushes two elements and claims one, the second one claims nothing behind it,
and both publish in turn.  A third element is pushed, and both threads claim one more and come
to where they wait. -/
def twoPending : List (Bool × Choice Nat) :=
  [(false, .call (.push 5)), (false, .tick false), (false, .tick false), (false, .tick false),
    (false, .commit), (false, .ret .pushed), (false, .call (.push 6)), (false, .tick false),
    (false, .tick false), (false, .tick false), (false, .commit), (false, .ret .pushed),
    (false, .call .pop), (false, .tick false), (false, .tick false), (false, .claim),
    (true, .call (.popBatch 0 [])), (true, .tick false), (true, .tick false), (true, .claim),
    (true, .tick false), (false, .tick false), (false, .tick false), (false, .publish),
    (false, .ret (.popped (some 5))), (true, .tick false), (true, .publish),
    (true, .ret (.taken 0 (.vec []))), (false, .call (.push 7)), (false, .tick false),
    (false, .tick false), (false, .tick false), (false, .commit), (false, .ret .pushed),
    (false, .call .pop), (false, .tick false), (false, .tick false), (false, .claim),
    (true, .call .pop), (true, .tick false), (true, .tick false), (true, .claim),
    (true, .tick false), (false, .tick false), (false, .tick false)]

/-- The second of two waiting consumers has the first one before it, whose publishing takes
stolen no further than to it. -/
theorem none_left_behind_two_pending :
    let s := (ringMachine 2 acceptsRingOfTwo).after ringOfPair twoPending
    ((s.threads true).op.waitsAt = some 1 ∧ stolenOf s = 0 ∧ NoneLeftBehind s) ∧
      ∀ s', (ringMachine 2 acceptsRingOfTwo).step s (false, .publish) = some s' →
        (stolenOf s' - stolenOf s).toNat ≤ ahead s 1 := by
  have hrun : (((ringMachine 2 acceptsRingOfTwo).restrict (PacedLeavingNobody false)).run ringOfPair
      twoPending).isSome := by
    decide +kernel
  have hwaits : (((ringMachine 2 acceptsRingOfTwo).after ringOfPair twoPending).threads
      true).op.waitsAt = some 1 := by
    decide +kernel
  have hok : PacedLeavingNobody false ((ringMachine 2 acceptsRingOfTwo).after ringOfPair twoPending)
      (false, .publish) := by
    decide +kernel
  have hstart : (ringMachine 2 acceptsRingOfTwo).ReachableVia (PacedLeavingNobody false) ringOfPair :=
    .init ⟨0xFFFFFFFF, rfl⟩
  have hreach := hstart.run (Machine.run_after hrun)
  rw [Machine.restrict_after hrun] at hreach
  obtain ⟨hnone, hstolen⟩ := none_left_behind acceptsRingOfTwo false hreach
  exact ⟨⟨hwaits, by decide +kernel, hnone⟩, fun s' hstep =>
    hstolen (false, .publish) s' hok hstep true 1 (by decide) hwaits⟩

end Runs

end Spmc

end XynokConcurrency
