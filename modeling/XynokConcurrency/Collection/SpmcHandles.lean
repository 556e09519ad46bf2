import Mathlib.Data.Fintype.Basic
import XynokConcurrency.Collection.SpmcAtomicFifo

/-!
# The single-producer multiple-consumer ring behind its handles

The handles of a ring can be created any number of times and moved to any thread, so
every thread may push and every thread may take.  The ring stays in order as long as the
pushes do not overlap, and as long as no claim is won by a word that was loaded a whole
wrap of the cursors ago.

Consumers that ask for nothing, and consumers that are a wrap behind and will win nothing,
never change the ring; they are looked upon as idle.

Main results:

- Definition {lit}`Orderly`: the steps that keep the ring in order.
- Definition {lit}`looseFifo`: a bounded list whose calls may always find nothing.
- Theorem {lit}`Shows.step`: an orderly step is a step of that list, or none.
- Definition {lit}`handleSimulation`: the simulation over whole runs.
-/

namespace XynokConcurrency

namespace Spmc

open ClaimRing

variable {τ α : Type}

/-! ## Orderly steps -/

/-- Elements pushed since the current call of a thread began, on top of a full ring. -/
def lag (s : Machine.Shared τ (Mem α) (Thread α)) (t : τ) : Nat :=
  s.mem.ring.buffer.capacity + (s.mem.pushed - (s.threads t).since)

/-- The claim under way is for something, and so many elements were pushed since its call
began that the cursors may have wrapped. -/
def Overtaken (s : Machine.Shared τ (Mem α) (Thread α)) (t : τ) : Prop :=
  2 ^ 32 ≤ lag s t ∧ ∃ amount k c, (s.threads t).op = .claimCas amount k c ∧ 0 < amount

/-- The number of elements a program point is about to claim. -/
def Op.claims : Op α → Nat
  | .claimCas amount _ _ => amount
  | _ => 0

theorem Op.claims_pos {o : Op α} :
    0 < o.claims ↔ ∃ amount k c, o = .claimCas amount k c ∧ 0 < amount := by
  constructor
  · intro h
    cases o with
    | claimCas amount k c => exact ⟨amount, k, c, rfl, h⟩
    | _ => exact absurd h (Nat.lt_irrefl 0)
  · rintro ⟨amount, k, c, rfl, h⟩
    exact h

instance (s : Machine.Shared τ (Mem α) (Thread α)) (t : τ) : Decidable (Overtaken s t) :=
  decidable_of_iff (2 ^ 32 ≤ lag s t ∧ 0 < (s.threads t).op.claims)
    (and_congr_right fun _ => Op.claims_pos)

/-- The step begins no push while another one is before its store, and wins no claim by a
word that was loaded a wrap ago. -/
def Orderly (s : Machine.Shared τ (Mem α) (Thread α)) (l : τ × Choice α) : Prop :=
  (∀ c, l.2 = .call c → c.offering.isSome = true → ∀ x, (s.threads x).op.own = none) ∧
    (l.2 = .claim → ¬ Overtaken s l.1)

/-- With finitely many threads it can be computed whether a step is orderly. -/
instance [Fintype τ] (s : Machine.Shared τ (Mem α) (Thread α)) (l : τ × Choice α) :
    Decidable (Orderly s l) :=
  match l with
  | (_, .call c) =>
      decidable_of_iff (c.offering.isSome = true → ∀ x, (s.threads x).op.own = none)
        ⟨fun h => ⟨fun _ hc => by cases hc; exact h, nofun⟩, fun h => h.1 c rfl⟩
  | (t, .claim) =>
      decidable_of_iff (¬ Overtaken s t) ⟨fun h => ⟨nofun, fun _ => h⟩, fun h => h.2 rfl⟩
  | (_, .tick _) | (_, .publish) | (_, .commit) | (_, .ret _) => isTrue ⟨nofun, nofun⟩

/-! ## Consumers that do not matter -/

/-- A consumer that asks for nothing, or whose cursors are a wrap behind. -/
def Op.Detached (lag : Nat) : Op α → Prop
  | .headLoad (.claim amount _) => amount = 0
  | .tailLoad (.claim amount _) _ _ | .claimCas amount _ _ | .claimTail amount _ _ _ =>
      amount = 0 ∨ 2 ^ 32 ≤ lag
  | .publishLoad amount _ _ | .publishCas amount _ _ _ => amount = 0
  | _ => False

/-- A detached consumer has no part of the ring. -/
theorem Op.Detached.own {lag : Nat} {o : Op α} (h : o.Detached lag) : o.own = none := by
  cases o with
  | headLoad k => cases k <;> first | rfl | cases h
  | tailLoad k stolen blocked => cases k <;> first | rfl | cases h
  | pushWrite => cases h
  | tailStore => cases h
  | _ => rfl

/-- A consumer that falls further behind stays detached. -/
theorem Op.Detached.mono {lag lag' : Nat} {o : Op α} (h : o.Detached lag) (hle : lag ≤ lag') :
    o.Detached lag' := by
  cases o with
  | headLoad k => cases k <;> exact h
  | tailLoad k stolen blocked =>
      cases k with
      | claim amount k => exact h.imp_right hle.trans'
      | _ => exact h
  | claimCas amount k c => exact h.imp_right hle.trans'
  | claimTail amount k c found => exact h.imp_right hle.trans'
  | _ => exact h

/-- A detached consumer moves without touching the ring, and stays detached until it has
its result: what it claims and publishes is empty. -/
theorem Op.Detached.step [DecidableEq α] {lag : Nat} {t : τ} {c : Choice α} {m m' : Mem α}
    {th th' : Thread α} (h : th.op.Detached lag)
    (hfresh : c = .claim → ¬ (2 ^ 32 ≤ lag ∧
      ∃ amount k c, th.op = .claimCas amount k c ∧ 0 < amount))
    (hx : Spmc.step t c m th = some (m', th')) :
    m' = m ∧ th'.since = th.since ∧ (th'.op.Detached lag ∨ ∃ res, th'.op = .done res) := by
  have hloop : ∀ {amount : Nat} {k : Taking α} {d : CursorData}, (amount = 0 ∨ 2 ^ 32 ≤ lag) →
      (Op.claimLoop amount k d).Detached lag ∨ ∃ res, Op.claimLoop amount k d = .done res := by
    intro amount k d hdetached
    unfold Op.claimLoop
    split
    · exact .inr ⟨_, rfl⟩
    · exact .inl (hdetached.imp_left fun hzero => by omega)
  rcases th with ⟨o, since⟩
  cases o with
  | headLoad k =>
      cases c <;> cases hx
      cases k with
      | claim amount k => exact ⟨rfl, rfl, .inl (.inl h)⟩
      | _ => cases h
  | tailLoad k stolen blocked =>
      cases c <;> cases hx
      cases k with
      | claim amount k => exact ⟨rfl, rfl, hloop h⟩
      | _ => cases h
  | claimCas amount k d =>
      cases c with
      | tick spurious =>
          simp only [Spmc.step, tick] at hx
          split at hx
          · rename_i htick
            split at htick <;> cases htick
            cases hx
            exact ⟨rfl, rfl, .inl h⟩
          · cases hx
      | claim =>
          simp only [Spmc.step] at hx
          split at hx <;> cases hx
          rename_i hcas
          obtain rfl : amount = 0 := by
            by_contra hne
            exact hfresh rfl ⟨h.resolve_left hne, amount, k, d, rfl, by omega⟩
          refine ⟨?_, rfl, .inl rfl⟩
          have hword : claimed d 0 = m.ring.head := by
            rw [hcas, claimed]
            simp
          rw [hword]
      | _ => cases hx
  | claimTail amount k d found =>
      cases c <;> cases hx
      exact ⟨rfl, rfl, hloop h⟩
  | publishLoad amount start k =>
      cases c <;> cases hx
      refine ⟨rfl, rfl, .inl ?_⟩
      dsimp only
      split <;> exact h
  | publishCas amount start k current =>
      obtain rfl : amount = 0 := h
      cases c with
      | tick spurious =>
          simp only [Spmc.step, tick] at hx
          split at hx
          · rename_i htick
            split at htick <;> cases htick
            cases hx
            exact ⟨rfl, rfl, .inl rfl⟩
          · cases hx
      | publish =>
          simp only [Spmc.step] at hx
          split at hx <;> cases hx
          rename_i hcas
          refine ⟨?_, rfl, .inr ⟨_, rfl⟩⟩
          have hword : published current 0 = m.ring.head := by
            rw [hcas, published]
            simp
          rw [hword]
      | _ => cases hx
  | _ => cases h

/-! ## A queue without verdicts -/

/-- A bounded list like {name}`atomicFifo`, where a call may also take nothing, and may
answer at any time that it has found nothing, or no room. -/
def looseFifo [DecidableEq τ] (capacity : Nat) : Machine.Spec (Fifo τ α) (τ × Choice α) where
  init b := b = ⟨[], 0, [], [], fun _ => .idle⟩
  step b e b' :=
    match e with
    | some (t, .call c) => b.status t = .idle ∧ b' = b.setStatus t (.pending c false)
    | some (t, .claim) =>
        ∃ c max k n, b.status t = .pending c false ∧ c.claiming = some (max, k) ∧ n ≤ max ∧
          n ≤ b.list.length ∧
          b' = ⟨b.list.drop n, b.inFlight + n, b.accepted, b.batches ++ [b.list.take n],
            Function.update b.status t
              (.holding n ((k.putAll 0 (b.list.take n)).result n))⟩
    | some (t, .publish) =>
        ∃ n r, b.status t = .holding n r ∧
          b' = { b with inFlight := b.inFlight - n
                        status := Function.update b.status t (.done r) }
    | some (t, .commit) =>
        ∃ c max vals res n, b.status t = .pending c false ∧
          c.offering = some (max, vals, res) ∧ 0 < n ∧ n ≤ max ∧ n ≤ vals.length ∧
          b.list.length + b.inFlight + n ≤ capacity ∧
          b' = { b with list := b.list ++ vals.take n
                        accepted := b.accepted ++ vals.take n
                        status := Function.update b.status t (.done (res n)) }
    | some (t, .ret r) => b.status t = .done r ∧ b' = b.setStatus t .idle
    | some (_, .tick _) => False
    | none =>
        ∃ t c r, b.status t = .pending c false ∧ c.Answers true r ∧ b' = b.setStatus t (.done r)

/-- A status without what the call has seen. -/
def Status.blind : Status α → Status α
  | .pending c _ => .pending c false
  | st => st

/-- Where a detached consumer stands. -/
def Op.Aside : Op α → Status α → Prop
  | .headLoad k, st | .tailLoad k _ _, st => ∃ c, k = c.next ∧ st = .pending c false
  | .claimCas _ k _, st | .claimTail _ k _ _, st =>
      ∃ c max, st = .pending c false ∧ c.claiming = some (max, k)
  | .publishLoad _ _ k, st | .publishCas _ _ k _, st => st = .holding 0 (k.result 0)
  | _, _ => False

/-- What a call sees only lets it answer more. -/
theorem Call.Answers.blind {c : Call α} {seen : Bool} {r : Res α} (h : c.Answers seen r) :
    c.Answers true r := by
  cases c with
  | push val => exact ⟨rfl, h.2⟩
  | pushBatch max vals => exact ⟨.inl rfl, h.2⟩
  | len => exact h
  | _ =>
      obtain ⟨max, k, hk, -, hr⟩ := h
      exact ⟨max, k, hk, rfl, hr⟩

/-! ## Detached consumers count as idle -/

/-- Two lists hold the same, up to empty batches. -/
structure SameBooks (b₀ b : Fifo τ α) : Prop where
  list : b.list = b₀.list
  inFlight : b.inFlight = b₀.inFlight
  accepted : b.accepted = b₀.accepted
  batches : b.batches.flatten = b₀.batches.flatten

/-- The state {lit}`e` is {lit}`s` with its detached consumers idle, and the list {lit}`b`
is the list {lit}`b₀` of {lit}`e` with what the threads of {lit}`s` have in hand. -/
structure Shows (s e : Machine.Shared τ (Mem α) (Thread α)) (b₀ b : Fifo τ α) : Prop where
  mem : e.mem = s.mem
  since_le : ∀ x, (s.threads x).since ≤ s.mem.pushed
  books : SameBooks b₀ b
  attached : ∀ x, ¬ (s.threads x).op.Detached (lag s x) →
    e.threads x = s.threads x ∧ b.status x = (b₀.status x).blind
  detached : ∀ x, (s.threads x).op.Detached (lag s x) →
    (e.threads x).op = .idle ∧ (s.threads x).op.Aside (b.status x)

/-- Threads without a part of the ring may count as idle. -/
theorem Refines.setIdle {capacity : Nat} {e : Machine.Shared τ (Mem α) (Thread α)}
    {r : Ring τ α} {b : Fifo τ α} (h : Refines capacity e r b)
    (e' : Machine.Shared τ (Mem α) (Thread α)) (hmem : e'.mem = e.mem)
    (hthreads : ∀ x, e'.threads x = e.threads x ∨
      (e'.threads x).op = .idle ∧ (e'.threads x).since ≤ e.mem.pushed ∧
        (e.threads x).op.claim = none ∧ (e.threads x).op.own = none) :
    ∃ st : τ → Status α, Refines capacity e' r { b with status := st } ∧
      ∀ x, e'.threads x = e.threads x → st x = b.status x := by
  classical
  have hview : ∀ {ρ : Type} (f : Op α → Option ρ), f .idle = none →
      (∀ x, (e.threads x).op.claim = none → (e.threads x).op.own = none →
        f (e.threads x).op = none) →
      (fun x => f (e'.threads x).op) = fun x => f (e.threads x).op := by
    intro ρ f hidle hnone
    funext x
    rcases hthreads x with heq | ⟨hop, -, hclaim, hown⟩
    · rw [heq]
    · rw [hop, hidle, hnone x hclaim hown]
  refine ⟨fun x => if e'.threads x = e.threads x then b.status x else .idle,
    ⟨⟨h.modelled.inv, ?_, fun x => ?_, fun x => ?_⟩, h.cap, h.list, h.inFlight, h.accepted,
      fun x => ?_⟩, fun x heq => if_pos heq⟩
  · rw [hmem, hview Op.claim rfl fun x hclaim _ => hclaim, hview Op.own rfl fun x _ hown => hown]
    exact h.modelled.models
  · rw [hmem]
    rcases hthreads x with heq | ⟨-, hsince, -⟩
    · rw [heq]
      exact h.modelled.since_le x
    · exact hsince
  · rw [hmem]
    rcases hthreads x with heq | ⟨hop, -⟩
    · rw [heq]
      exact h.modelled.knows x
    · rw [hop]
      trivial
  · dsimp only
    rw [hmem]
    by_cases heq : e'.threads x = e.threads x
    · rw [if_pos heq, heq]
      exact h.at_ x
    · rw [if_neg heq, ((hthreads x).resolve_left heq).1]
      rfl

/-- A consumer that becomes detached has claimed nothing yet, so it stands aside. -/
theorem Op.At.aside {o : Op α} {t : τ} {r : Ring τ α} {window lag : Nat} {st : Status α}
    (h : o.At t r window st) (hdetached : o.Detached lag) (hclaim : o.claim = none) :
    o.Aside st.blind := by
  cases o with
  | headLoad k =>
      obtain ⟨c, hk, rfl⟩ := h
      exact ⟨c, hk, rfl⟩
  | tailLoad k stolen blocked =>
      obtain ⟨c, seen, hk, rfl, -⟩ := h
      exact ⟨c, hk, rfl⟩
  | claimCas amount k d =>
      obtain ⟨c, seen, max, rfl, hcall, -⟩ := h
      exact ⟨c, max, rfl, hcall⟩
  | claimTail amount k d found =>
      obtain ⟨c, seen, max, rfl, hcall, -⟩ := h
      exact ⟨c, max, rfl, hcall⟩
  | publishLoad amount start k => cases hclaim
  | publishCas amount start k current => cases hclaim
  | _ => cases hdetached

/-- A claim that the ring knows of is for something. -/
theorem Modelled.claim_none {e : Machine.Shared τ (Mem α) (Thread α)} {r : Ring τ α} {x : τ}
    {lag : Nat} (h : Modelled e r) (hdetached : (e.threads x).op.Detached lag) :
    (e.threads x).op.claim = none := by
  have hpos : ∀ v, (e.threads x).op.claim = some v → 0 < v.amount := by
    intro v hv
    obtain ⟨c, hc, -, hlen, -⟩ := h.models.exists_claim (x := x) hv
    rw [hlen]
    exact (h.inv.claim_range x c hc).2.2.1
  cases hop : (e.threads x).op with
  | publishLoad amount start k =>
      rw [hop] at hpos hdetached
      exact absurd hdetached (hpos _ rfl).ne'
  | publishCas amount start k current =>
      rw [hop] at hpos hdetached
      exact absurd hdetached (hpos _ rfl).ne'
  | take amount offset start k =>
      rw [hop] at hdetached
      cases hdetached
  | _ => rfl

/-- A state whose threads are modelled, or detached and idle in the model, shows the list. -/
theorem Refines.shows {capacity : Nat} {s e : Machine.Shared τ (Mem α) (Thread α)}
    {r : Ring τ α} {b₀ b : Fifo τ α} (h : Refines capacity e r b₀) (hmem : e.mem = s.mem)
    (hsince : ∀ x, (s.threads x).since ≤ s.mem.pushed) (hbooks : SameBooks b₀ b)
    (hthreads : ∀ x, e.threads x = s.threads x ∧ b.status x = (b₀.status x).blind ∨
      (s.threads x).op.Detached (lag s x) ∧ (e.threads x).op = .idle ∧
        (s.threads x).op.Aside (b.status x)) :
    ∃ e' b₁, Shows s e' b₁ b ∧ Refines capacity e' r b₁ := by
  classical
  let e' : Machine.Shared τ (Mem α) (Thread α) :=
    ⟨e.mem, fun x => if (s.threads x).op.Detached (lag s x) then ⟨.idle, (s.threads x).since⟩
      else e.threads x⟩
  have hin : ∀ x, (s.threads x).op.Detached (lag s x) →
      e'.threads x = ⟨.idle, (s.threads x).since⟩ := fun x hx => if_pos hx
  have hout : ∀ x, ¬ (s.threads x).op.Detached (lag s x) → e'.threads x = e.threads x :=
    fun x hx => if_neg hx
  obtain ⟨st, href, hst⟩ := h.setIdle e' rfl fun x => by
    by_cases hx : (s.threads x).op.Detached (lag s x)
    · refine .inr ?_
      rw [hin x hx, hmem]
      refine ⟨rfl, hsince x, ?_⟩
      rcases hthreads x with ⟨heq, -⟩ | ⟨-, hidle, -⟩
      · rw [← heq] at hx
        exact ⟨h.modelled.claim_none hx, hx.own⟩
      · rw [hidle]
        exact ⟨rfl, rfl⟩
    · exact .inl (hout x hx)
  refine ⟨e', { b₀ with status := st }, ⟨hmem, hsince, ⟨hbooks.list, hbooks.inFlight, hbooks.accepted, hbooks.batches⟩,
    fun x hx => ?_, fun x hx => ?_⟩, href⟩
  · obtain ⟨heq, hstatus⟩ := (hthreads x).resolve_right fun h => hx h.1
    refine ⟨(hout x hx).trans heq, ?_⟩
    rw [hstatus]
    exact congrArg Status.blind (hst x (hout x hx)).symm
  · refine ⟨by rw [hin x hx], ?_⟩
    rcases hthreads x with ⟨heq, hstatus⟩ | ⟨-, -, haside⟩
    · rw [hstatus, ← heq]
      rw [← heq] at hx
      exact (h.at_ x).aside hx (h.modelled.claim_none hx)
    · exact haside

/-! ## One step -/

variable [DecidableEq τ]

/-- A step of the atomic queue is one of the loose queue with the same books, or none. -/
theorem SameBooks.step {capacity : Nat} {b₀ b b₁ : Fifo τ α} {ev : Option (τ × Choice α)}
    {A : τ → Prop} (h : SameBooks b₀ b) (hin : ∀ x, A x → b.status x = (b₀.status x).blind)
    (hout : ∀ x, ¬ A x → b₀.status x = .idle) (hev : ∀ t c, ev = some (t, c) → A t)
    (hstep : (atomicFifo capacity).step b₀ ev b₁) :
    ∃ b', (b' = b ∧ ev = none ∨ (looseFifo capacity).step b ev b') ∧ SameBooks b₁ b' ∧
      (∀ x, A x → b'.status x = (b₁.status x).blind) ∧ ∀ x, ¬ A x → b'.status x = b.status x := by
  have hset : ∀ {t : τ} {st st' : Status α}, A t → st' = st.blind →
      (∀ x, A x → Function.update b.status t st' x = (Function.update b₀.status t st x).blind) ∧
        ∀ x, ¬ A x → Function.update b.status t st' x = b.status x := by
    rintro t st _ ht rfl
    refine ⟨fun x hx => ?_, fun x hx => ?_⟩
    · by_cases hxt : x = t
      · subst hxt
        simp
      · simpa [Function.update_of_ne hxt] using hin x hx
    · exact Function.update_of_ne (by rintro rfl; exact hx ht) ..
  have hpending : ∀ {t : τ} {c : Call α} {seen : Bool}, b₀.status t = .pending c seen →
      A t ∧ b.status t = .pending c false := by
    intro t c seen hst
    have hA : A t := by
      by_contra hne
      rw [hout t hne] at hst
      cases hst
    exact ⟨hA, by rw [hin t hA, hst]; rfl⟩
  rcases ev with - | ⟨t, ch⟩
  · obtain ⟨t, c, seen, hst, ⟨-, rfl⟩ | ⟨res, hres, rfl⟩⟩ := hstep
    · obtain ⟨hA, hpend⟩ := hpending hst
      refine ⟨b, .inl ⟨rfl, rfl⟩, ⟨h.list, h.inFlight, h.accepted, h.batches⟩, fun x hx => ?_,
        fun _ _ => rfl⟩
      by_cases hxt : x = t
      · subst hxt
        simpa [Fifo.setStatus, Status.blind] using hpend
      · simpa [Fifo.setStatus, Function.update_of_ne hxt] using hin x hx
    · obtain ⟨hA, hpend⟩ := hpending hst
      exact ⟨b.setStatus t (.done res), .inr ⟨t, c, res, hpend, hres.blind, rfl⟩,
        ⟨h.list, h.inFlight, h.accepted, h.batches⟩, hset hA rfl⟩
  · have hA := hev t ch rfl
    cases ch with
    | call c =>
        obtain ⟨hst, rfl⟩ := hstep
        refine ⟨b.setStatus t (.pending c false), .inr ⟨?_, rfl⟩,
          ⟨h.list, h.inFlight, h.accepted, h.batches⟩, hset hA rfl⟩
        rw [hin t hA, hst]
        rfl
    | tick spurious => cases hstep
    | claim =>
        obtain ⟨c, seen, max, k, n, hst, hcall, hpos, hmax, hlen, rfl⟩ := hstep
        refine ⟨_, .inr ⟨c, max, k, n, (hpending hst).2, hcall, hmax, by rwa [h.list], rfl⟩,
          ⟨?_, ?_, h.accepted, ?_⟩, ?_⟩
        · rw [h.list]
        · rw [h.inFlight]
        · simp [h.batches, h.list]
        · rw [h.list]
          exact hset hA rfl
    | publish =>
        obtain ⟨n, res, hst, rfl⟩ := hstep
        refine ⟨_, .inr ⟨n, res, ?_, rfl⟩, ⟨h.list, ?_, h.accepted, h.batches⟩, hset hA rfl⟩
        · rw [hin t hA, hst]
          rfl
        · rw [h.inFlight]
    | commit =>
        obtain ⟨c, seen, max, vals, res, n, hst, hoffer, hpos, hmax, hlen, hfit, rfl⟩ := hstep
        refine ⟨_, .inr ⟨c, max, vals, res, n, (hpending hst).2, hoffer, hpos, hmax, hlen,
          by rwa [h.list, h.inFlight], rfl⟩, ⟨?_, h.inFlight, ?_, h.batches⟩, hset hA rfl⟩
        · rw [h.list]
        · rw [h.accepted]
    | ret res =>
        obtain ⟨hst, rfl⟩ := hstep
        refine ⟨_, .inr ⟨?_, rfl⟩, ⟨h.list, h.inFlight, h.accepted, h.batches⟩, hset hA rfl⟩
        rw [hin t hA, hst]
        rfl

omit [DecidableEq τ] in
/-- A consumer call is known by what it makes of its elements. -/
theorem Call.claiming_of_next {c : Call α} {amount : Nat} {k : Taking α}
    (h : c.next = .claim amount k) : c.claiming = some (amount, k) := by
  cases c <;> cases h <;> rfl

omit [DecidableEq τ] in
/-- A consumer that has found nothing may say so. -/
theorem Call.answers_of_claiming {c : Call α} {max : Nat} {k : Taking α}
    (h : c.claiming = some (max, k)) : c.Answers true (k.result 0) := by
  cases c <;> first | exact ⟨max, k, h, rfl, rfl⟩ | cases h

/-- A step of a detached consumer is one of the loose queue that moves nothing, or none. -/
theorem Op.Aside.step [DecidableEq α] (capacity : Nat) {lag : Nat} {t : τ} {c : Choice α} {m m' : Mem α}
    {th th' : Thread α} {b₀ b : Fifo τ α} (haside : th.op.Aside (b.status t))
    (h : th.op.Detached lag)
    (hfresh : c = .claim → ¬ (2 ^ 32 ≤ lag ∧
      ∃ amount k d, th.op = .claimCas amount k d ∧ 0 < amount))
    (hbooks : SameBooks b₀ b) (hx : Spmc.step t c m th = some (m', th')) :
    ∃ b', (b' = b ∧ event (t, c) = none ∨ (looseFifo capacity).step b (event (t, c)) b') ∧
      SameBooks b₀ b' ∧ (∀ x, x ≠ t → b'.status x = b.status x) ∧
        (th'.op.Aside (b'.status t) ∨ ∃ res, th'.op = .done res ∧ b'.status t = .done res) := by
  have hmove : ∀ st, SameBooks b₀ (b.setStatus t st) ∧
      (∀ x, x ≠ t → (b.setStatus t st).status x = b.status x) ∧ (b.setStatus t st).status t = st :=
    fun st => ⟨⟨hbooks.list, hbooks.inFlight, hbooks.accepted, hbooks.batches⟩,
      fun x hne => Function.update_of_ne hne .., Function.update_self ..⟩
  have hstay : ∀ {o' : Op α}, event (t, c) = none → o'.Aside (b.status t) →
      ∃ b', (b' = b ∧ event (t, c) = none ∨ (looseFifo capacity).step b (event (t, c)) b') ∧
        SameBooks b₀ b' ∧ (∀ x, x ≠ t → b'.status x = b.status x) ∧
          (o'.Aside (b'.status t) ∨ ∃ res, o' = .done res ∧ b'.status t = .done res) :=
    fun hevent haside' => ⟨b, .inl ⟨rfl, hevent⟩, hbooks, fun _ _ => rfl, .inl haside'⟩
  have hloop : ∀ {call : Call α} {amount max : Nat} {k : Taking α} {d : CursorData},
      event (t, c) = none → b.status t = .pending call false → call.claiming = some (max, k) →
      ∃ b', (b' = b ∧ event (t, c) = none ∨ (looseFifo capacity).step b (event (t, c)) b') ∧
        SameBooks b₀ b' ∧ (∀ x, x ≠ t → b'.status x = b.status x) ∧
          ((Op.claimLoop amount k d).Aside (b'.status t) ∨
            ∃ res, Op.claimLoop amount k d = .done res ∧ b'.status t = .done res) := by
    intro call amount max k d hevent hst hcall
    unfold Op.claimLoop
    split
    · obtain ⟨hsame, hother, hself⟩ := hmove (.done (k.result 0))
      refine ⟨_, .inr ?_, hsame, hother, .inr ⟨_, rfl, hself⟩⟩
      rw [hevent]
      exact ⟨t, call, _, hst, call.answers_of_claiming hcall, rfl⟩
    · exact hstay hevent ⟨call, max, hst, hcall⟩
  rcases th with ⟨o, since⟩
  cases o with
  | headLoad k =>
      cases c <;> cases hx
      exact hstay rfl haside
  | tailLoad k stolen blocked =>
      cases c <;> cases hx
      cases k with
      | claim amount k =>
          obtain ⟨call, hk, hst⟩ := haside
          exact hloop rfl hst (call.claiming_of_next hk.symm)
      | _ => cases h
  | claimCas amount k d =>
      cases c with
      | tick spurious =>
          simp only [Spmc.step, tick] at hx
          split at hx
          · rename_i htick
            split at htick <;> cases htick
            cases hx
            exact hstay rfl haside
          · cases hx
      | claim =>
          simp only [Spmc.step] at hx
          split at hx <;> cases hx
          obtain ⟨call, max, hst, hcall⟩ := haside
          obtain rfl : amount = 0 := by
            by_contra hne
            exact hfresh rfl ⟨h.resolve_left hne, amount, k, d, rfl, by omega⟩
          refine ⟨_, .inr ⟨call, max, k, 0, hst, hcall, Nat.zero_le _, Nat.zero_le _, rfl⟩,
            ⟨hbooks.list, hbooks.inFlight, hbooks.accepted, ?_⟩,
            fun x hne => Function.update_of_ne hne .., .inl ?_⟩
          · simpa using hbooks.batches
          · exact Function.update_self ..
      | _ => cases hx
  | claimTail amount k d found =>
      cases c <;> cases hx
      obtain ⟨call, max, hst, hcall⟩ := haside
      exact hloop rfl hst hcall
  | publishLoad amount start k =>
      cases c <;> cases hx
      refine hstay rfl ?_
      dsimp only
      split <;> exact haside
  | publishCas amount start k current =>
      cases c with
      | tick spurious =>
          simp only [Spmc.step, tick] at hx
          split at hx
          · rename_i htick
            split at htick <;> cases htick
            cases hx
            exact hstay rfl haside
          · cases hx
      | publish =>
          simp only [Spmc.step] at hx
          split at hx <;> cases hx
          obtain rfl : amount = 0 := h
          exact ⟨_, .inr ⟨0, _, haside, rfl⟩,
            ⟨hbooks.list, hbooks.inFlight, hbooks.accepted, hbooks.batches⟩,
            fun x hne => Function.update_of_ne hne .., .inr ⟨_, rfl, Function.update_self ..⟩⟩
      | _ => cases hx
  | _ => cases h

omit [DecidableEq τ] in
/-- The count of pushed elements never falls, and a call begins at the present count. -/
theorem step_since [DecidableEq α] {t : τ} {c : Choice α} {m m' : Mem α} {th th' : Thread α}
    (hle : th.since ≤ m.pushed) (hx : Spmc.step t c m th = some (m', th')) :
    m.pushed ≤ m'.pushed ∧ th'.since ≤ m'.pushed := by
  rcases th with ⟨o, since⟩
  cases c with
  | tick spurious =>
      simp only [Spmc.step] at hx
      split at hx <;> cases hx
      exact ⟨le_rfl, hle⟩
  | call c =>
      cases o <;> cases hx
      exact ⟨le_rfl, le_rfl⟩
  | commit =>
      cases o <;> cases hx
      exact ⟨Nat.le_add_right .., hle.trans (Nat.le_add_right ..)⟩
  | _ =>
      cases o <;> simp only [Spmc.step, reduceCtorEq] at hx
      split at hx <;> cases hx
      exact ⟨le_rfl, hle⟩

section Step

variable {capacity : Nat} {s e : Machine.Shared τ (Mem α) (Thread α)} {r : Ring τ α}
  {b₀ b : Fifo τ α} {t : τ} {c : Choice α} {m : Mem α} {th : Thread α}

omit [DecidableEq τ] in
/-- Orderly pushes have one producer at a time. -/
theorem Orderly.exists_producer (hshow : Shows s e b₀ b) (hmodelled : Modelled e r)
    (hok : Orderly s (t, c)) (hpos : ∀ call k, c = .call call → call.claiming ≠ some (0, k)) :
    ∃ producer, c.Allowed producer t ∧ ∀ x, (e.threads x).op.own ≠ none → x = producer := by
  by_cases hpush : ∃ call, c = .call call ∧ call.offering.isSome = true
  · obtain ⟨call, rfl, hoffer⟩ := hpush
    refine ⟨t, ?_, fun x hx => (hx ?_).elim⟩
    · cases call <;> first | rfl | cases hoffer
    · by_cases hd : (s.threads x).op.Detached (lag s x)
      · rw [(hshow.detached x hd).1]
        rfl
      · rw [(hshow.attached x hd).1]
        exact hok.1 call rfl hoffer x
  · have hallowed : ∀ producer, c.Allowed producer t := by
      intro producer
      cases c with
      | call call =>
          cases call with
          | push val => exact (hpush ⟨_, rfl, rfl⟩).elim
          | pushBatch max vals => exact (hpush ⟨_, rfl, rfl⟩).elim
          | popBatch max dst =>
              refine Nat.pos_of_ne_zero ?_
              rintro rfl
              exact hpos _ _ rfl rfl
          | popBatchTo max cursor =>
              refine Nat.pos_of_ne_zero ?_
              rintro rfl
              exact hpos _ _ rfl rfl
          | _ => trivial
      | _ => trivial
    have hsome : ∀ x, (e.threads x).op.own ≠ none → (r.own x).isSome := by
      intro x hx
      obtain ⟨v, hv⟩ := Option.ne_none_iff_exists'.mp hx
      obtain ⟨g, hg, -⟩ := hmodelled.models.exists_hold (x := x) hv
      simp [hg]
    by_cases hown : ∃ x, (e.threads x).op.own ≠ none
    · obtain ⟨x, hx⟩ := hown
      exact ⟨x, hallowed x, fun y hy => hmodelled.inv.own_unique y x (hsome y hy) (hsome x hx)⟩
    · exact ⟨t, hallowed t, fun x hx => (hown ⟨x, hx⟩).elim⟩

/-- After a step of one thread the list is still shown, if that thread is accounted for. -/
theorem Shows.after [DecidableEq α] {e₁ : Machine.Shared τ (Mem α) (Thread α)} {r₁ : Ring τ α}
    {b₁ b' : Fifo τ α} (hshow : Shows s e b₀ b)
    (hx : Spmc.step t c s.mem (s.threads t) = some (m, th)) (href : Refines capacity e₁ r₁ b₁)
    (hmem : e₁.mem = m) (hbooks : SameBooks b₁ b')
    (hthreads : ∀ x, x ≠ t → e₁.threads x = e.threads x)
    (hattached : ∀ x, x ≠ t → ¬ (s.threads x).op.Detached (lag s x) →
      b'.status x = (b₁.status x).blind)
    (hdetached : ∀ x, x ≠ t → (s.threads x).op.Detached (lag s x) → b'.status x = b.status x)
    (hself : e₁.threads t = th ∧ b'.status t = (b₁.status t).blind ∨
      th.op.Detached (m.ring.buffer.capacity + (m.pushed - th.since)) ∧
        (e₁.threads t).op = .idle ∧ th.op.Aside (b'.status t)) :
    ∃ e' b₂ r', Shows ⟨m, Function.update s.threads t th⟩ e' b₂ b' ∧ Refines capacity e' r' b₂ := by
  obtain ⟨hpushed, hsinceTh⟩ := step_since (hshow.since_le t) hx
  have hcapacity := step_capacity hx
  have hat : Function.update s.threads t th t = th := Function.update_self ..
  have hother : ∀ x, x ≠ t → Function.update s.threads t th x = s.threads x :=
    fun x hne => Function.update_of_ne hne ..
  have hsince : ∀ x, (Function.update s.threads t th x).since ≤ m.pushed := by
    intro x
    by_cases hxt : x = t
    · subst hxt
      simpa using hsinceTh
    · simpa [Function.update_of_ne hxt] using (hshow.since_le x).trans hpushed
  refine (href.shows hmem hsince hbooks fun x => ?_).imp fun e' h => h.imp fun b₂ h => ⟨r₁, h⟩
  by_cases hxt : x = t
  · subst hxt
    simpa only [lag, hat] using hself
  · simp only [lag, hother x hxt, hthreads x hxt]
    by_cases hd : (s.threads x).op.Detached (lag s x)
    · obtain ⟨hidle, haside⟩ := hshow.detached x hd
      refine .inr ⟨hd.mono ?_, hidle, ?_⟩
      · rw [lag, hcapacity]
        omega
      · rwa [hdetached x hxt hd]
    · exact .inl ⟨(hshow.attached x hd).1, hattached x hxt hd⟩

/-- A step of a detached consumer. -/
theorem Shows.stepDetached [DecidableEq α] (hshow : Shows s e b₀ b)
    (href : Refines capacity e r b₀) (hok : Orderly s (t, c))
    (hd : (s.threads t).op.Detached (lag s t))
    (hx : Spmc.step t c s.mem (s.threads t) = some (m, th)) :
    ∃ b', (b' = b ∧ event (t, c) = none ∨ (looseFifo capacity).step b (event (t, c)) b') ∧
      ∃ e' b₁ r', Shows ⟨m, Function.update s.threads t th⟩ e' b₁ b' ∧
        Refines capacity e' r' b₁ := by
  obtain ⟨hidle, haside⟩ := hshow.detached t hd
  obtain ⟨rfl, hsince, hnext⟩ := hd.step hok.2 hx
  obtain ⟨b', hb', hbooks, hsame, hstand⟩ :=
    haside.step capacity hd hok.2 hshow.books hx
  refine ⟨b', hb', ?_⟩
  have hattached : ∀ x, x ≠ t → ¬ (s.threads x).op.Detached (lag s x) →
      b'.status x = (b₀.status x).blind := by
    intro x hne hx
    rw [hsame x hne]
    exact (hshow.attached x hx).2
  rcases hstand with haside' | ⟨res, hdone, hst⟩
  · have hd' : th.op.Detached (lag s t) := by
      refine hnext.resolve_right ?_
      rintro ⟨res, hdone⟩
      rw [hdone] at haside'
      cases haside'
    refine hshow.after hx href hshow.mem hbooks (fun _ _ => rfl) hattached
      (fun x hne _ => hsame x hne) (.inr ⟨?_, hidle, haside'⟩)
    rw [hsince]
    exact hd'
  · -- it has its result, and counts as a thread again
    have hm : Modelled ⟨e.mem, Function.update e.threads t th⟩ r := by
      refine href.modelled.still ?_ ?_ ?_ ?_
      · rw [hdone, hidle]
        rfl
      · rw [hdone, hidle]
        rfl
      · rw [hsince, hshow.mem]
        exact hshow.since_le t
      · rw [hdone]
        trivial
    have href' : Refines capacity _ r (b₀.setStatus t (.done res)) :=
      href.stay hm (by rw [hdone]; rfl)
    refine hshow.after hx href' hshow.mem
      ⟨hbooks.list, hbooks.inFlight, hbooks.accepted, hbooks.batches⟩
      (fun x hne => Function.update_of_ne hne ..) (fun x hne hx => ?_)
      (fun x hne _ => hsame x hne) (.inl ⟨Function.update_self .., ?_⟩)
    · rw [hattached x hne hx]
      exact congrArg Status.blind (Function.update_of_ne hne ..).symm
    · rw [hst]
      simp [Fifo.setStatus, Status.blind]

/-- A consumer call that asks for nothing begins. -/
theorem Shows.stepNothing [DecidableEq α] {call : Call α} {k : Taking α} (hshow : Shows s e b₀ b)
    (href : Refines capacity e r b₀) (hd : ¬ (s.threads t).op.Detached (lag s t))
    (hcall : call.claiming = some (0, k))
    (hx : Spmc.step t (.call call) s.mem (s.threads t) = some (m, th)) :
    ∃ b', (looseFifo capacity).step b (some (t, .call call)) b' ∧
      ∃ e' b₁ r', Shows ⟨m, Function.update s.threads t th⟩ e' b₁ b' ∧
        Refines capacity e' r' b₁ := by
  obtain ⟨he, hst⟩ := hshow.attached t hd
  have hat := href.at_ t
  rw [he] at hat
  have hnext : call.next = .claim 0 k := by
    cases call <;> cases hcall <;> rfl
  rcases hth : s.threads t with ⟨o, since⟩
  rw [hth] at hx hat
  cases o <;> cases hx
  refine ⟨b.setStatus t (.pending call false), ⟨?_, rfl⟩, ?_⟩
  · rw [hst, show b₀.status t = .idle from hat]
    rfl
  · refine hshow.after (hth ▸ rfl : Spmc.step t (.call call) s.mem (s.threads t) = _) href hshow.mem
      ⟨hshow.books.list, hshow.books.inFlight, hshow.books.accepted, hshow.books.batches⟩
      (fun _ _ => rfl) (fun x hne hx => ?_) (fun x hne _ => Function.update_of_ne hne ..)
      (.inr ⟨?_, ?_, ⟨call, rfl, Function.update_self ..⟩⟩)
    · rw [← (hshow.attached x hx).2]
      exact Function.update_of_ne hne ..
    · rw [hnext]
      rfl
    · rw [he, hth]

/-- An orderly step is one step of the loose queue with the same observation, or none. -/
theorem Shows.step [DecidableEq α] (hshow : Shows s e b₀ b) (href : Refines capacity e r b₀)
    (hok : Orderly s (t, c)) (hx : Spmc.step t c s.mem (s.threads t) = some (m, th)) :
    ∃ b', (b' = b ∧ event (t, c) = none ∨ (looseFifo capacity).step b (event (t, c)) b') ∧
      ∃ e' b₁ r', Shows ⟨m, Function.update s.threads t th⟩ e' b₁ b' ∧
        Refines capacity e' r' b₁ := by
  by_cases hd : (s.threads t).op.Detached (lag s t)
  · exact hshow.stepDetached href hok hd hx
  by_cases hzero : ∃ call k, c = .call call ∧ call.claiming = some (0, k)
  · obtain ⟨call, k, rfl, hcall⟩ := hzero
    obtain ⟨b', hb', hrest⟩ := hshow.stepNothing href hd hcall hx
    exact ⟨b', .inr hb', hrest⟩
  · obtain ⟨he, hst⟩ := hshow.attached t hd
    obtain ⟨producer, hallowed, hproducer⟩ := hok.exists_producer hshow href.modelled
      fun call k hc hcall => hzero ⟨call, k, hc, hcall⟩
    have hwin : (e.threads t).op.seeking = true →
        r.cap + (e.mem.pushed - (e.threads t).since) < 2 ^ 32 := by
      intro hseeking
      have hcap : e.mem.ring.buffer.capacity = r.cap := href.modelled.models.cap
      rw [he] at hseeking ⊢
      rw [← hcap, hshow.mem]
      by_contra hle
      apply hd
      cases hop : (s.threads t).op with
      | tailLoad k stolen blocked =>
          rw [hop] at hseeking
          cases k with
          | claim amount k => exact .inr (Nat.le_of_not_lt hle)
          | _ => cases hseeking
      | claimCas amount k d => exact .inr (Nat.le_of_not_lt hle)
      | claimTail amount k d found => exact .inr (Nat.le_of_not_lt hle)
      | _ =>
          rw [hop] at hseeking
          cases hseeking
    obtain ⟨b₁, hb₁, r', href'⟩ := href.step hwin hallowed hproducer
      (by rw [he, hshow.mem]; exact hx)
    obtain ⟨b', hb', hbooks, hin, hout⟩ : ∃ b',
        (b' = b ∧ event (t, c) = none ∨ (looseFifo capacity).step b (event (t, c)) b') ∧
          SameBooks b₁ b' ∧
          (∀ x, ¬ (s.threads x).op.Detached (lag s x) → b'.status x = (b₁.status x).blind) ∧
          ∀ x, ¬ ¬ (s.threads x).op.Detached (lag s x) → b'.status x = b.status x := by
      rcases hb₁ with ⟨rfl, hnone⟩ | hstep
      · exact ⟨b, .inl ⟨rfl, hnone⟩, hshow.books, fun x hx => (hshow.attached x hx).2,
          fun _ _ => rfl⟩
      · refine hshow.books.step (fun x hx => (hshow.attached x hx).2) (fun x hx => ?_) ?_ hstep
        · have hat := href.at_ x
          rw [(hshow.detached x (not_not.mp hx)).1] at hat
          exact hat
        · intro t' c' hev
          have : t' = t := by
            cases c <;> cases hev <;> rfl
          rwa [this]
    refine ⟨b', hb', hshow.after hx href' rfl hbooks (fun x hne => Function.update_of_ne hne ..)
      (fun x _ hx => hin x hx) (fun x _ hx => hout x (not_not.mpr hx))
      (.inl ⟨Function.update_self .., hin t hd⟩)⟩

end Step

/-! ## Whole runs -/

section Runs

variable [DecidableEq α]

open Classical in
/-- The simulation of the loose queue by the orderly steps of the ring. -/
def handleSimulation (capacity : Nat) (hcap : acceptsCapacity capacity) :
    Machine.Simulation ((ringMachine (τ := τ) (α := α) capacity hcap).restrict Orderly)
      (looseFifo capacity) event where
  rel s b := s.mem.ring.buffer.capacity = capacity ∧
    ∃ e b₀ r, Shows s e b₀ b ∧ Refines capacity e r b₀
  init := by
    rintro s ⟨cursor, rfl⟩
    refine ⟨_, rfl, FixedRingBuffer.capacity_new hcap, _, _, .empty capacity cursor.toNat,
      ⟨rfl, fun _ => le_rfl, ⟨rfl, rfl, rfl, rfl⟩, fun x _ => ⟨rfl, rfl⟩, fun x hx => hx.elim⟩,
      ⟨Modelled.initial hcap cursor, rfl, ?_, ?_, rfl, fun _ => rfl⟩⟩
    · simp [Ring.unclaimed, Ring.values, Ring.empty]
    · simp [Ring.empty]
  step := by
    rintro s b ⟨t, c⟩ s' - ⟨hcapacity, e, b₀, r, hshow, href⟩ hstep
    obtain ⟨hok, hstep⟩ := Machine.restrict_step.mp hstep
    obtain ⟨m, th, hx, rfl⟩ := Machine.ofThreads_step hstep
    obtain ⟨b', hb', hrest⟩ := hshow.step href hok hx
    exact ⟨b', hb', (step_capacity hx).trans hcapacity, hrest⟩

/-! ## One producer -/

/-- If the step begins a push, the producer takes it. -/
def ByProducer (producer : τ) (l : τ × Choice α) : Prop :=
  ∀ c, l.2 = .call c → c.offering.isSome = true → l.1 = producer

instance (producer : τ) (l : τ × Choice α) : Decidable (ByProducer producer l) :=
  match l with
  | (t, .call c) =>
      decidable_of_iff (c.offering.isSome = true → t = producer)
        ⟨fun h _ hc => by cases hc; exact h, fun h => h c rfl⟩
  | (_, .tick _) | (_, .claim) | (_, .publish) | (_, .commit) | (_, .ret _) => isTrue nofun

namespace ByProducer

variable {capacity : Nat} {hcap : acceptsCapacity capacity} {producer : τ} {l : τ × Choice α}
  {s s' : Machine.Shared τ (Mem α) (Thread α)}

/-- Only the producer is on the owner side. -/
theorem own_step (h : ByProducer producer l)
    (hproducer : ∀ x, (s.threads x).op.own ≠ none → x = producer)
    (hstep : (ringMachine capacity hcap).step s l = some s') :
    ∀ x, (s'.threads x).op.own ≠ none → x = producer := by
  obtain ⟨m, th, hx, rfl⟩ := Machine.ofThreads_step hstep
  intro x hown
  by_cases hxt : x = l.1
  · subst hxt
    simp only [Function.update_self] at hown
    by_cases hnew : (s.threads l.1).op.own = none
    · obtain ⟨call, hcall, hstart⟩ := step_own hx hown hnew
      rw [hstart] at hown
      refine h call hcall ?_
      cases call <;> first | rfl | exact (hown rfl).elim
    · exact hproducer l.1 hnew
  · exact hproducer x (by simpa [hxt] using hown)

/-- A single producer never overlaps itself. -/
theorem orderly (h : ByProducer producer l)
    (hproducer : ∀ x, (s.threads x).op.own ≠ none → x = producer)
    (hfresh : l.2 = .claim → ¬ Overtaken s l.1)
    (hstep : (ringMachine capacity hcap).step s l = some s') : Orderly s l := by
  refine ⟨fun c hc hoffer x => ?_, hfresh⟩
  by_contra hown
  obtain rfl : x = l.1 := (hproducer x hown).trans (h c hc hoffer).symm
  obtain ⟨m, th, hx, -⟩ := Machine.ofThreads_step hstep
  rw [hc] at hx
  cases hop : s.threads l.1 with
  | mk o since =>
      rw [hop] at hx hown
      cases o <;> first | exact hown rfl | cases hx

end ByProducer

end Runs

end Spmc

end XynokConcurrency
