import XynokConcurrency.Collection.SpmcHandles

/-!
# The length of the single-producer multiple-consumer ring

{lit}`len` loads the head and then the tail, from two words.  Claims between the two loads
do no harm, and stores of the tail before the first claim do none either; a store of the
tail after a claim makes the difference count elements that were never there together.

Main results:

- Theorem {lit}`len_beyond_capacity`: a ring of one slot reports two elements.
- Theorem {lit}`len_is_real`: without such a store, the length is that of some instant of
  the call.
-/

namespace XynokConcurrency

/-- Number of elements nobody has claimed. -/
def SpmcRingBufferFifo.unclaimedLen {α : Type} (q : SpmcRingBufferFifo α) : Nat :=
  (q.tail - (unpack q.head).2).toNat

namespace Spmc

open ClaimRing

variable {τ α : Type} [DecidableEq τ] [DecidableEq α]

/-! ## A length that never was -/

/-- The result {lit}`n` of a call of {lit}`len`, during which the run took the steps
{lit}`body`, is at most the capacity and the number of unclaimed elements at some instant
of the call. -/
def LenIsReal (M : Machine (Machine.Shared τ (Mem α) (Thread α)) (τ × Choice α)) (capacity : Nat)
    (s₀ : Machine.Shared τ (Mem α) (Thread α)) (before body : List (τ × Choice α)) (t : τ)
    (n : Nat) : Prop :=
  n ≤ capacity ∧ ∃ first rest s, body = first ++ rest ∧
    M.run s₀ (before ++ (t, .call .len) :: first) = some s ∧ s.mem.ring.unclaimedLen = n

/-- The step neither begins nor ends a call, and is no store and no successful CAS. -/
def Choice.isTick : Choice α → Bool
  | .tick _ => true
  | _ => false

/-- All pushes of a run are made by one thread. -/
def OneProducer (producer : τ) (ls : List (τ × Choice α)) : Prop :=
  ∀ t c, (t, .call c) ∈ ls → c.offering.isSome = true → t = producer

theorem acceptsRingOfOne : acceptsCapacity 1 :=
  ⟨by decide, by decide, 0, rfl⟩

/-- One element is pushed into a ring of one slot. -/
def fillRing : List (Nat × Choice Nat) :=
  [(0, .call (.push 5)), (0, .tick false), (0, .tick false), (0, .tick false), (0, .commit),
    (0, .ret .pushed)]

/-- Between the two loads of {lit}`len` on thread 2, thread 1 pops the element and thread 0
pushes another one. -/
def popAndPush : List (Nat × Choice Nat) :=
  [(2, .tick false), (1, .call .pop), (1, .tick false), (1, .tick false), (1, .claim),
    (1, .tick false), (1, .tick false), (1, .publish), (1, .ret (.popped (some 5))),
    (0, .call (.push 6)), (0, .tick false), (0, .tick false), (0, .tick false), (0, .commit),
    (0, .ret .pushed), (2, .tick false)]

/-- The length of a ring of one slot is reported as two. -/
theorem len_beyond_capacity :
    ¬ ∀ (s₀ s : Machine.Shared Nat (Mem Nat) (Thread Nat)) (before body : List (Nat × Choice Nat))
      (t n : Nat), (ringMachine 1 acceptsRingOfOne).init s₀ →
        (ringMachine 1 acceptsRingOfOne).run s₀
          (before ++ (t, .call .len) :: body ++ [(t, .ret (.length n))]) = some s →
        OneProducer 0 (before ++ (t, .call .len) :: body) →
        (∀ l ∈ body, l.1 = t → l.2.isTick = true) →
        LenIsReal (ringMachine 1 acceptsRingOfOne) 1 s₀ before body t n := by
  intro h
  have hsome : ((ringMachine 1 acceptsRingOfOne).run ⟨⟨.new 1 acceptsRingOfOne, 0⟩,
      fun _ => ⟨.idle, 0⟩⟩ (fillRing ++ (2, .call .len) :: popAndPush ++
        [(2, .ret (.length 2))])).isSome := by
    decide +kernel
  have hreal := h _ _ fillRing popAndPush 2 2 ⟨0, rfl⟩ (Machine.run_after hsome)
    (by
      intro t c hmem hoffer
      simp only [fillRing, popAndPush, List.cons_append, List.nil_append, List.mem_cons,
        Prod.mk.injEq, Choice.call.injEq, reduceCtorEq, and_false, false_or, or_false,
        List.not_mem_nil] at hmem
      rcases hmem with ⟨rfl, rfl⟩ | ⟨rfl, rfl⟩ | ⟨rfl, rfl⟩ | ⟨rfl, rfl⟩ <;>
        first | rfl | cases hoffer)
    (by decide)
  exact absurd hreal.1 (by decide)

/-! ## Runs without such a store -/

/-- One thread produces, no claim is won by a word that was loaded a wrap ago, and no store
of the tail meets a call of {lit}`len` whose head is out of date. -/
def LengthOrderly (producer : τ) (s : Machine.Shared τ (Mem α) (Thread α))
    (l : τ × Choice α) : Prop :=
  ByProducer producer l ∧ (l.2 = .claim → ¬ Overtaken s l.1) ∧
    (l.2 = .commit → ∀ x stolen blocked, (s.threads x).op = .tailLoad .len stolen blocked →
      blocked = (unpack s.mem.ring.head).2)

/-- Blocked as a call of {lit}`len` has loaded it. -/
def Op.lenHead : Op α → Option UInt32
  | .tailLoad .len _ blocked => some blocked
  | _ => none

omit [DecidableEq α] in
theorem Op.lenHead_eq_some {o : Op α} {blocked : UInt32} :
    o.lenHead = some blocked ↔ ∃ stolen, o = .tailLoad .len stolen blocked := by
  constructor
  · intro h
    unfold Op.lenHead at h
    split at h <;> cases h
    exact ⟨_, rfl⟩
  · rintro ⟨stolen, rfl⟩
    rfl

/-- With finitely many threads it can be computed whether a step meets a length. -/
instance [Fintype τ] (producer : τ) (s : Machine.Shared τ (Mem α) (Thread α))
    (l : τ × Choice α) : Decidable (LengthOrderly producer s l) :=
  match l with
  | (t, .call c) =>
      decidable_of_iff (ByProducer producer (t, .call c))
        ⟨fun h => ⟨h, nofun, nofun⟩, fun h => h.1⟩
  | (t, .claim) =>
      decidable_of_iff (¬ Overtaken s t) ⟨fun h => ⟨nofun, fun _ => h, nofun⟩, fun h => h.2.1 rfl⟩
  | (_, .commit) =>
      decidable_of_iff
        (∀ x, (s.threads x).op.lenHead = none ∨
          (s.threads x).op.lenHead = some (unpack s.mem.ring.head).2)
        ⟨fun h => ⟨nofun, nofun, fun _ x stolen blocked hop => by simpa [hop, Op.lenHead] using h x⟩,
          fun h x => by
            cases hlen : (s.threads x).op.lenHead with
            | none => exact .inl rfl
            | some blocked =>
                obtain ⟨stolen, hop⟩ := Op.lenHead_eq_some.mp hlen
                rw [h.2.2 rfl x stolen blocked hop]
                exact .inr rfl⟩
  | (_, .tick _) | (_, .publish) | (_, .ret _) => isTrue ⟨nofun, nofun, nofun⟩

variable {capacity : Nat} {hcap : acceptsCapacity capacity}
  {s s' : Machine.Shared τ (Mem α) (Thread α)} {t : τ}

/-- A single producer never overlaps itself. -/
theorem LengthOrderly.orderly {producer : τ} {ls : List (τ × Choice α)}
    (h : (ringMachine capacity hcap).Admits (LengthOrderly producer) s ls)
    (hproducer : ∀ x, (s.threads x).op.own ≠ none → x = producer)
    (hrun : (ringMachine capacity hcap).run s ls = some s') :
    (ringMachine capacity hcap).Admits Orderly s ls := by
  induction ls generalizing s with
  | nil => trivial
  | cons l ls ih =>
      obtain ⟨hok, hrest⟩ := h
      simp only [Machine.run] at hrun
      split at hrun
      · rename_i s₁ hstep
        refine ⟨hok.1.orderly hproducer hok.2.1 hstep, fun s₂ hstep' => ?_⟩
        obtain rfl : s₁ = s₂ := Option.some.inj (hstep.symm.trans hstep')
        exact ih (hrest s₁ hstep) (hok.1.own_step hproducer hstep) hrun
      · cases hrun

/-- In an orderly run the number of unclaimed elements is at most the capacity. -/
theorem unclaimedLen_le {s₀ : Machine.Shared τ (Mem α) (Thread α)} {ls : List (τ × Choice α)}
    (hinit : (ringMachine capacity hcap).init s₀)
    (hrun : (ringMachine capacity hcap).run s₀ ls = some s)
    (hok : (ringMachine capacity hcap).Admits Orderly s₀ ls) :
    s.mem.ring.unclaimedLen ≤ capacity := by
  classical
  obtain ⟨b, -, -, e, b₀, r, hshow, href⟩ :=
    (handleSimulation capacity hcap).trace hinit (hok.run_restrict hrun)
  have hm := href.modelled
  have hcaplt := hm.models.cap_lt
  have hsb := hm.inv.stolen_le
  have htl := hm.inv.tail_le
  have hcapr := href.cap
  rw [SpmcRingBufferFifo.unclaimedLen, ← hshow.mem, hm.tail_eq, hm.blocked_eq,
    toNat_ofNat_sub hm.inv.blocked_le (by omega)]
  omega

/-! ## One call of `len` -/

omit [DecidableEq τ] in
/-- The tail moves only at a store, which leaves the head alone. -/
theorem step_tail {c : Choice α} {m m' : Mem α} {th th' : Thread α}
    (hx : Spmc.step t c m th = some (m', th')) :
    m'.ring.tail = m.ring.tail ∨ c = .commit ∧ m'.ring.head = m.ring.head := by
  rcases th with ⟨o, since⟩
  cases c with
  | tick spurious =>
      simp only [Spmc.step] at hx
      split at hx <;> cases hx
      rename_i q o' htick
      left
      cases o <;> simp only [tick, reduceCtorEq] at htick
      all_goals first
        | (cases htick; rfl)
        | (split at htick <;> cases htick; rfl)
  | commit =>
      cases o <;> cases hx
      exact .inr ⟨rfl, rfl⟩
  | call c =>
      cases o <;> cases hx
      exact .inl rfl
  | _ =>
      cases o <;> simp only [Spmc.step, reduceCtorEq] at hx
      split at hx <;> cases hx
      exact .inl rfl

/-- A step of another thread leaves a thread where it is. -/
theorem step_other {l : τ × Choice α} (hstep : (ringMachine capacity hcap).step s l = some s')
    (hne : l.1 ≠ t) : s'.threads t = s.threads t := by
  obtain ⟨m, th, -, rfl⟩ := Machine.ofThreads_step hstep
  exact Function.update_of_ne (Ne.symm hne) ..

/-- A tick of a thread is a tick of its operation. -/
theorem step_self {l : τ × Choice α} (hstep : (ringMachine capacity hcap).step s l = some s')
    (heq : l.1 = t) (htick : l.2.isTick = true) :
    ∃ spurious q o, tick spurious s.mem.ring (s.threads t).op = some (q, o) ∧
      s'.mem.ring = q ∧ (s'.threads t).op = o := by
  obtain ⟨u, c⟩ := l
  obtain rfl : u = t := heq
  obtain ⟨m, th, hx, rfl⟩ := Machine.ofThreads_step hstep
  cases c with
  | tick spurious =>
      simp only [Spmc.step] at hx
      split at hx <;> cases hx
      exact ⟨spurious, _, _, ‹_›, rfl, by simp⟩
  | _ => cases htick

/-- A call that has its result keeps it until it returns. -/
theorem done_run {res : Res α} {body : List (τ × Choice α)} (hop : (s.threads t).op = .done res)
    (hbody : ∀ l ∈ body, l.1 = t → l.2.isTick = true)
    (hrun : (ringMachine capacity hcap).run s body = some s') : (s'.threads t).op = .done res := by
  induction body generalizing s with
  | nil =>
      cases hrun
      exact hop
  | cons l body ih =>
      simp only [Machine.run] at hrun
      split at hrun
      · rename_i s₁ hstep
        refine ih ?_ (fun l hl => hbody l (List.mem_cons_of_mem _ hl)) hrun
        by_cases hl : l.1 = t
        · obtain ⟨spurious, q, o, htick, -⟩ := step_self hstep hl (hbody l List.mem_cons_self hl)
          rw [hop] at htick
          cases htick
        · rw [step_other hstep hl, hop]
      · cases hrun

/-- The length counted with a blocked cursor that was loaded before. -/
def lenSince (s : Machine.Shared τ (Mem α) (Thread α)) (blocked : UInt32) : Nat :=
  (s.mem.ring.tail - blocked).toNat

/-- A call that has loaded the head returns the length of some instant to come, or what the
tail of now makes of its head. -/
theorem len_after_head {producer : τ} {n : Nat} {stolen blocked : UInt32} {body : List (τ × Choice α)}
    (hop : (s.threads t).op = .tailLoad .len stolen blocked)
    (hbody : ∀ l ∈ body, l.1 = t → l.2.isTick = true)
    (hok : (ringMachine capacity hcap).Admits (LengthOrderly producer) s body)
    (hrun : (ringMachine capacity hcap).run s body = some s')
    (hdone : (s'.threads t).op = .done (.length n)) :
    n = lenSince s blocked ∨ ∃ first rest s₁, body = first ++ rest ∧
      (ringMachine capacity hcap).run s first = some s₁ ∧ s₁.mem.ring.unclaimedLen = n := by
  induction body generalizing s with
  | nil =>
      cases hrun
      rw [hop] at hdone
      cases hdone
  | cons l body ih =>
      obtain ⟨hokl, hrest⟩ := hok
      simp only [Machine.run] at hrun
      split at hrun
      · rename_i s₁ hstep
        have hbody' := fun l hl => hbody l (List.mem_cons_of_mem _ hl)
        by_cases hl : l.1 = t
        · -- the tail is loaded: the result is known, and nothing changes it any more
          obtain ⟨spurious, q, o, htick, -, ho⟩ :=
            step_self hstep hl (hbody l List.mem_cons_self hl)
          rw [hop] at htick
          cases htick
          have hend := done_run ho hbody' hrun
          rw [hdone] at hend
          cases hend
          exact .inl rfl
        · have hop' : ((s₁.threads t).op) = .tailLoad .len stolen blocked := by
            rw [step_other hstep hl, hop]
          rcases ih hop' hbody' (hrest s₁ hstep) hrun with hn | ⟨first, rest, s₂, rfl, hrun₂, hlen⟩
          · obtain ⟨m, th, hx, rfl⟩ := Machine.ofThreads_step hstep
            rcases step_tail hx with htail | ⟨hcommit, hhead⟩
            · refine .inl (hn.trans ?_)
              simp only [lenSince, htail]
            · refine .inr ⟨[l], body, _, rfl, Machine.run_singleton.mpr hstep, ?_⟩
              rw [hn, lenSince, SpmcRingBufferFifo.unclaimedLen,
                hokl.2.2 hcommit t stolen blocked hop, hhead]
          · refine .inr ⟨l :: first, rest, s₂, rfl, ?_, hlen⟩
            simpa only [Machine.run, hstep] using hrun₂
      · cases hrun

/-- A call of {lit}`len` returns the length of some instant to come. -/
theorem len_from_start {producer : τ} {n : Nat} {body : List (τ × Choice α)}
    (hop : (s.threads t).op = .headLoad .len)
    (hbody : ∀ l ∈ body, l.1 = t → l.2.isTick = true)
    (hok : (ringMachine capacity hcap).Admits (LengthOrderly producer) s body)
    (hrun : (ringMachine capacity hcap).run s body = some s')
    (hdone : (s'.threads t).op = .done (.length n)) :
    ∃ first rest s₁, body = first ++ rest ∧
      (ringMachine capacity hcap).run s first = some s₁ ∧ s₁.mem.ring.unclaimedLen = n := by
  induction body generalizing s with
  | nil =>
      cases hrun
      rw [hop] at hdone
      cases hdone
  | cons l body ih =>
      obtain ⟨-, hrest⟩ := hok
      simp only [Machine.run] at hrun
      split at hrun
      · rename_i s₁ hstep
        have hbody' := fun l hl => hbody l (List.mem_cons_of_mem _ hl)
        have hlater : (∃ first rest s₂, body = first ++ rest ∧
            (ringMachine capacity hcap).run s₁ first = some s₂ ∧ s₂.mem.ring.unclaimedLen = n) →
            ∃ first rest s₂, l :: body = first ++ rest ∧
              (ringMachine capacity hcap).run s first = some s₂ ∧
                s₂.mem.ring.unclaimedLen = n := by
          rintro ⟨first, rest, s₂, rfl, hrun₂, hlen⟩
          refine ⟨l :: first, rest, s₂, rfl, ?_, hlen⟩
          simpa only [Machine.run, hstep] using hrun₂
        by_cases hl : l.1 = t
        · obtain ⟨spurious, q, o, htick, hq, ho⟩ :=
            step_self hstep hl (hbody l List.mem_cons_self hl)
          rw [hop] at htick
          cases htick
          refine hlater ?_
          rcases len_after_head ho hbody' (hrest s₁ hstep) hrun hdone with hn | hlen
          · refine ⟨[], body, s₁, rfl, rfl, ?_⟩
            rw [hn, lenSince, SpmcRingBufferFifo.unclaimedLen, hq]
          · exact hlen
        · refine hlater (ih ?_ hbody' (hrest s₁ hstep) hrun)
          rw [step_other hstep hl, hop]
      · cases hrun

/-- With one producer, any number of consumers and any interleaving of the two loads of
{lit}`len`: while no store of the tail meets an out-of-date head, the length returned is at
most the capacity, and it is that of some instant of the call. -/
theorem len_is_real (hcap : acceptsCapacity capacity) (producer : τ)
    {s₀ s : Machine.Shared τ (Mem α) (Thread α)} {before body : List (τ × Choice α)} {t : τ}
    {n : Nat} (hinit : (ringMachine capacity hcap).init s₀)
    (hrun : (ringMachine capacity hcap).run s₀
      (before ++ (t, .call .len) :: body ++ [(t, .ret (.length n))]) = some s)
    (hok : (ringMachine capacity hcap).Admits (LengthOrderly producer) s₀
      (before ++ (t, .call .len) :: body))
    (hbody : ∀ l ∈ body, l.1 = t → l.2.isTick = true) :
    LenIsReal (ringMachine capacity hcap) capacity s₀ before body t n := by
  rw [Machine.run_append] at hrun
  obtain ⟨s₃, hrun, hret⟩ := Option.bind_eq_some_iff.mp hrun
  have horderly : (ringMachine capacity hcap).Admits Orderly s₀
      (before ++ (t, .call .len) :: body) := by
    refine LengthOrderly.orderly hok ?_ hrun
    obtain ⟨cursor, rfl⟩ := hinit
    exact fun x hx => (hx rfl).elim
  have hdone : (s₃.threads t).op = .done (.length n) := by
    obtain ⟨m, th, hx, -⟩ := Machine.ofThreads_step (Machine.run_singleton.mp hret)
    cases hop : s₃.threads t with
    | mk o since =>
        rw [hop] at hx
        cases o <;> simp only [Spmc.step, reduceCtorEq] at hx
        split at hx <;> cases hx
        rename_i hres
        rw [hres]
  rw [Machine.run_append] at hrun
  obtain ⟨s₁, hbefore, hcall⟩ := Option.bind_eq_some_iff.mp hrun
  simp only [Machine.run] at hcall
  split at hcall
  · rename_i s₂ hstep
    have hstart : (s₂.threads t).op = .headLoad .len := by
      obtain ⟨m, th, hx, rfl⟩ := Machine.ofThreads_step hstep
      cases hop : s₁.threads t with
      | mk o since =>
          rw [hop] at hx
          cases o <;> cases hx
          simp [Call.next]
    obtain ⟨first, rest, s₄, rfl, hfirst, hlen⟩ :=
      len_from_start hstart hbody ((hok.after hbefore).2 s₂ hstep) hcall hdone
    have hprefix : (ringMachine capacity hcap).run s₀ (before ++ (t, .call .len) :: first) =
        some s₄ := by
      simp [Machine.run_append, hbefore, Machine.run, hstep, hfirst]
    refine ⟨?_, first, rest, s₄, rfl, hprefix, hlen⟩
    rw [← hlen]
    refine unclaimedLen_le hinit hprefix ?_
    have happend : before ++ (t, .call .len) :: (first ++ rest) =
        (before ++ (t, .call .len) :: first) ++ rest := by simp
    rw [happend] at horderly
    exact horderly.of_append
  · cases hcall

/-- A ring of two slots and three threads, whose cursors are about to wrap. -/
def ringOfThreads : Machine.Shared (Fin 3) (Mem Nat) (Thread Nat) :=
  ⟨⟨.startingAt 0xFFFFFFFF 2 acceptsRingOfTwo, 0⟩, fun _ => ⟨.idle, 0⟩⟩

/-- A push of the first thread. -/
def pushes (val : Nat) : List (Fin 3 × Choice Nat) :=
  [(0, .call (.push val)), (0, .tick false), (0, .tick false), (0, .tick false), (0, .commit),
    (0, .ret .pushed)]

/-- A pop of the second thread. -/
def pops (val : Nat) : List (Fin 3 × Choice Nat) :=
  [(1, .call .pop), (1, .tick false), (1, .tick false), (1, .claim), (1, .tick false),
    (1, .tick false), (1, .publish), (1, .ret (.popped (some val)))]

/-- Whatever happens between the two loads of {lit}`len` on the third thread. -/
def lenAround (between : List (Fin 3 × Choice Nat)) : List (Fin 3 × Choice Nat) :=
  (2, .tick false) :: between ++ [(2, .tick false)]

/-- With a pop between its two loads {lit}`len` returns the length from before the pop, with a
push the one from after it. -/
theorem len_around_a_pop_or_a_push :
    LenIsReal (ringMachine 2 acceptsRingOfTwo) 2 ringOfThreads (pushes 5) (lenAround (pops 5)) 2 1 ∧
      LenIsReal (ringMachine 2 acceptsRingOfTwo) 2 ringOfThreads (pushes 5) (lenAround (pushes 6))
        2 2 := by
  have hpop : ((ringMachine 2 acceptsRingOfTwo).run ringOfThreads
      (pushes 5 ++ (2, .call .len) :: lenAround (pops 5) ++ [(2, .ret (.length 1))])).isSome := by
    decide +kernel
  have hpush : ((ringMachine 2 acceptsRingOfTwo).run ringOfThreads
      (pushes 5 ++ (2, .call .len) :: lenAround (pushes 6) ++ [(2, .ret (.length 2))])).isSome := by
    decide +kernel
  exact ⟨len_is_real acceptsRingOfTwo 0 ⟨0xFFFFFFFF, rfl⟩ (Machine.run_after hpop)
      (by decide +kernel) (by decide),
    len_is_real acceptsRingOfTwo 0 ⟨0xFFFFFFFF, rfl⟩ (Machine.run_after hpush)
      (by decide +kernel) (by decide)⟩

end Spmc

end XynokConcurrency
