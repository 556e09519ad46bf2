import Mathlib.Logic.Function.Basic
import Mathlib.Data.List.Induction

/-!
# Executable labelled machines

A machine here is a set of initial states and one partial step function.  All
nondeterminism sits in the label, so a scheduler choice is a value, a run is a
list of labels, and a concrete run can be evaluated.

Main results:

- Theorem {lit}`Machine.ReachableVia.invariant`: a predicate that holds at the
  start and is kept by every admitted step holds in every state of every run.
- Theorem {lit}`Machine.reachable_iff_run`: reachability is the existence of an
  executable run.
- Theorems {lit}`Machine.run_history` and {lit}`Machine.run_leaves`: facts about the
  labels a run has taken, and about the states it must have passed through.
- Theorem {lit}`Machine.reachable_iff_noting`: a machine may note what its steps do.
- Theorem {lit}`Machine.Simulation.trace`: a step-by-step simulation carries
  every run to a run of the specification with the same observations.
- Theorem {lit}`Machine.thread_invariant`: the thread-modular rule, in which a
  thread keeps its own assertion and does not disturb the others'.
-/

namespace XynokConcurrency

/-- A set of initial states with an executable, label-driven step function. -/
structure Machine (σ ℓ : Type) where
  init : σ → Prop
  step : σ → ℓ → Option σ

namespace Machine

variable {σ ℓ : Type}

/-! ## Runs and reachability -/

/-- Execute a list of labels; {lean}`none` as soon as one label is disabled. -/
def run (M : Machine σ ℓ) : σ → List ℓ → Option σ
  | s, [] => some s
  | s, l :: ls =>
      match M.step s l with
      | some s' => M.run s' ls
      | none => none

/-- States reached by runs all of whose steps are admitted by {lit}`ok`, a
condition on the state before the step and the label taken there. -/
inductive ReachableVia (M : Machine σ ℓ) (ok : σ → ℓ → Prop) : σ → Prop
  | init {s : σ} (h : M.init s) : ReachableVia M ok s
  | step {s s' : σ} {l : ℓ} (hs : ReachableVia M ok s) (hok : ok s l)
      (h : M.step s l = some s') : ReachableVia M ok s'

/-- States reached by any run. -/
def Reachable (M : Machine σ ℓ) : σ → Prop :=
  M.ReachableVia fun _ _ => True

/-- The invariant rule, with the reachability of the source state at hand. -/
theorem ReachableVia.invariant {M : Machine σ ℓ} {ok : σ → ℓ → Prop} {I : σ → Prop}
    (hinit : ∀ s, M.init s → I s)
    (hstep : ∀ s l s', M.ReachableVia ok s → I s → ok s l → M.step s l = some s' → I s')
    {s : σ} (hs : M.ReachableVia ok s) : I s := by
  induction hs with
  | init h => exact hinit _ h
  | step hs hok h ih => exact hstep _ _ _ hs ih hok h

/-- What fewer steps reach, more steps reach. -/
theorem ReachableVia.mono {M : Machine σ ℓ} {ok ok' : σ → ℓ → Prop} {s : σ}
    (hs : M.ReachableVia ok s) (hle : ∀ s l, ok s l → ok' s l) : M.ReachableVia ok' s := by
  induction hs with
  | init h => exact .init h
  | step _ hok h ih => exact .step ih (hle _ _ hok) h

/-- Every state of a restricted run is a state of an unrestricted one. -/
theorem ReachableVia.reachable {M : Machine σ ℓ} {ok : σ → ℓ → Prop} {s : σ}
    (hs : M.ReachableVia ok s) : M.Reachable s :=
  hs.mono fun _ _ _ => trivial

/-- The invariant rule for unrestricted runs. -/
theorem Reachable.invariant {M : Machine σ ℓ} {I : σ → Prop}
    (hinit : ∀ s, M.init s → I s)
    (hstep : ∀ s l s', M.Reachable s → I s → M.step s l = some s' → I s')
    {s : σ} (hs : M.Reachable s) : I s :=
  ReachableVia.invariant hinit (fun s l s' hr hI _ h => hstep s l s' hr hI h) hs

/-- Running from a reachable state stays reachable. -/
theorem Reachable.run {M : Machine σ ℓ} {s s' : σ} {ls : List ℓ}
    (hs : M.Reachable s) (h : M.run s ls = some s') : M.Reachable s' := by
  induction ls generalizing s with
  | nil =>
      cases h
      exact hs
  | cons l ls ih =>
      simp only [Machine.run] at h
      split at h
      · rename_i s₁ hstep
        exact ih (.step hs trivial hstep) h
      · cases h

/-- The invariant rule from a reachable state on. -/
theorem run_invariant {M : Machine σ ℓ} {I : σ → Prop}
    (hstep : ∀ s l s', M.Reachable s → I s → M.step s l = some s' → I s')
    {s s' : σ} {ls : List ℓ} (hs : M.Reachable s) (hI : I s) (h : M.run s ls = some s') : I s' := by
  induction ls generalizing s with
  | nil =>
      cases h
      exact hI
  | cons l ls ih =>
      simp only [Machine.run] at h
      split at h
      · rename_i s₁ hl
        exact ih (.step hs trivial hl) (hstep _ _ _ hs hI hl) h
      · cases h

/-- Two runs compose. -/
theorem run_append (M : Machine σ ℓ) (s : σ) (ls ls' : List ℓ) :
    M.run s (ls ++ ls') = (M.run s ls).bind fun s' => M.run s' ls' := by
  induction ls generalizing s with
  | nil => rfl
  | cons l ls ih =>
      simp only [List.cons_append, run]
      split
      · rw [ih]
      · rfl

/-- The state a run ends in. -/
def after (M : Machine σ ℓ) (s : σ) (ls : List ℓ) : σ :=
  (M.run s ls).getD s

theorem run_after {M : Machine σ ℓ} {s : σ} {ls : List ℓ} (h : (M.run s ls).isSome) :
    M.run s ls = some (M.after s ls) := by
  obtain ⟨s', hs'⟩ := Option.isSome_iff_exists.mp h
  simp [after, hs']

/-- The first part of a run is a run. -/
theorem run_isSome_of_append {M : Machine σ ℓ} {s : σ} {ls ls' : List ℓ}
    (h : (M.run s (ls ++ ls')).isSome) : (M.run s ls).isSome := by
  rw [run_append] at h
  exact Option.isSome_of_isSome_bind h

/-- A run goes on from where its first part ends. -/
theorem run_after_append {M : Machine σ ℓ} {s : σ} {ls ls' : List ℓ}
    (h : (M.run s (ls ++ ls')).isSome) :
    M.run (M.after s ls) ls' = some (M.after s (ls ++ ls')) := by
  have hall := run_after h
  rw [run_append] at hall
  obtain ⟨s₁, hs₁, hrest⟩ := Option.bind_eq_some_iff.mp hall
  simpa [after, hs₁] using hrest

/-- A run of one step is the step. -/
theorem run_singleton {M : Machine σ ℓ} {s s' : σ} {l : ℓ} :
    M.run s [l] = some s' ↔ M.step s l = some s' := by
  simp only [run]
  split <;> simp_all

/-- The machine with only the admitted steps. -/
def restrict (M : Machine σ ℓ) (ok : σ → ℓ → Prop) [∀ s l, Decidable (ok s l)] : Machine σ ℓ where
  init := M.init
  step s l := if ok s l then M.step s l else none

/-- A step of the restricted machine is an admitted step. -/
theorem restrict_step {M : Machine σ ℓ} {ok : σ → ℓ → Prop} [∀ s l, Decidable (ok s l)]
    {s s' : σ} {l : ℓ} : (M.restrict ok).step s l = some s' ↔ ok s l ∧ M.step s l = some s' := by
  simp only [restrict]
  split <;> simp_all

/-- A run of the restricted machine is a run of the machine. -/
theorem run_of_restrict {M : Machine σ ℓ} {ok : σ → ℓ → Prop} [∀ s l, Decidable (ok s l)]
    {s s' : σ} {ls : List ℓ} (h : (M.restrict ok).run s ls = some s') : M.run s ls = some s' := by
  induction ls generalizing s with
  | nil => exact h
  | cons l ls ih =>
      simp only [Machine.run] at h
      split at h
      · rename_i s₁ hstep
        simp only [Machine.run, (restrict_step.mp hstep).2]
        exact ih h
      · cases h

/-- The restricted machine ends its runs where the machine does. -/
theorem restrict_after {M : Machine σ ℓ} {ok : σ → ℓ → Prop} [∀ s l, Decidable (ok s l)] {s : σ}
    {ls : List ℓ} (h : ((M.restrict ok).run s ls).isSome) : (M.restrict ok).after s ls = M.after s ls := by
  rw [after, after, run_of_restrict (run_after h), run_after h]

/-- The machine from one of its starts. -/
def startingAt (M : Machine σ ℓ) (s₀ : σ) : Machine σ ℓ where
  init s := s = s₀
  step := M.step

/-- The start does not change what a list of labels does. -/
theorem run_startingAt {M : Machine σ ℓ} {s₀ s : σ} {ls : List ℓ} :
    (M.startingAt s₀).run s ls = M.run s ls := by
  induction ls generalizing s with
  | nil => rfl
  | cons l ls ih =>
      simp only [run, startingAt]
      split
      · exact ih
      · rfl

/-- What one start reaches, the machine reaches. -/
theorem Reachable.of_startingAt {M : Machine σ ℓ} {s₀ s : σ} (hinit : M.init s₀)
    (hs : (M.startingAt s₀).Reachable s) : M.Reachable s := by
  induction hs with
  | init h => exact h ▸ .init hinit
  | step _ _ hstep ih => exact .step ih trivial hstep

/-- All steps of a list of labels are admitted, each in the state it is taken in. -/
def Admits (M : Machine σ ℓ) (ok : σ → ℓ → Prop) : σ → List ℓ → Prop
  | _, [] => True
  | s, l :: ls => ok s l ∧ ∀ s', M.step s l = some s' → M.Admits ok s' ls

/-- Whether the steps of a list are admitted can be computed. -/
instance Admits.decidable (M : Machine σ ℓ) (ok : σ → ℓ → Prop) [∀ s l, Decidable (ok s l)] :
    (s : σ) → (ls : List ℓ) → Decidable (M.Admits ok s ls)
  | _, [] => isTrue trivial
  | s, l :: ls =>
      have : ∀ s', Decidable (M.Admits ok s' ls) := fun s' => Admits.decidable M ok s' ls
      inferInstanceAs (Decidable (ok s l ∧ ∀ s' ∈ M.step s l, M.Admits ok s' ls))

/-- A prefix of admitted steps is admitted. -/
theorem Admits.of_append {M : Machine σ ℓ} {ok : σ → ℓ → Prop} {s : σ} {ls ls' : List ℓ}
    (h : M.Admits ok s (ls ++ ls')) : M.Admits ok s ls := by
  induction ls generalizing s with
  | nil => trivial
  | cons l ls ih => exact ⟨h.1, fun s' hstep => ih (h.2 s' hstep)⟩

/-- What follows a run is admitted from where the run ends. -/
theorem Admits.after {M : Machine σ ℓ} {ok : σ → ℓ → Prop} {s s' : σ} {ls ls' : List ℓ}
    (h : M.Admits ok s (ls ++ ls')) (hrun : M.run s ls = some s') : M.Admits ok s' ls' := by
  induction ls generalizing s with
  | nil =>
      cases hrun
      exact h
  | cons l ls ih =>
      simp only [Machine.run] at hrun
      split at hrun
      · exact ih (h.2 _ ‹_›) hrun
      · cases hrun

/-- A run whose steps are all admitted is a run of the restricted machine. -/
theorem Admits.run_restrict {M : Machine σ ℓ} {ok : σ → ℓ → Prop} [∀ s l, Decidable (ok s l)]
    {s s' : σ} {ls : List ℓ} (h : M.Admits ok s ls) (hrun : M.run s ls = some s') :
    (M.restrict ok).run s ls = some s' := by
  induction ls generalizing s with
  | nil => exact hrun
  | cons l ls ih =>
      obtain ⟨hok, hrest⟩ := h
      simp only [Machine.run] at hrun
      split at hrun
      · rename_i s₁ hstep
        have hstep' : (M.restrict ok).step s l = some s₁ := restrict_step.mpr ⟨hok, hstep⟩
        simp only [Machine.run, hstep']
        exact ih (hrest s₁ hstep) hrun
      · cases hrun

/-- A run of the restricted machine takes admitted steps only. -/
theorem ReachableVia.run {M : Machine σ ℓ} {ok : σ → ℓ → Prop} [∀ s l, Decidable (ok s l)]
    {s s' : σ} {ls : List ℓ} (hs : M.ReachableVia ok s) (h : (M.restrict ok).run s ls = some s') :
    M.ReachableVia ok s' := by
  induction ls generalizing s with
  | nil =>
      cases h
      exact hs
  | cons l ls ih =>
      simp only [Machine.run] at h
      split at h
      · rename_i s₁ hstep
        obtain ⟨hok, hstep⟩ := restrict_step.mp hstep
        exact ih (.step hs hok hstep) h
      · cases h

/-- Reachability is the existence of an executable run from an initial state. -/
theorem reachable_iff_run {M : Machine σ ℓ} {s : σ} :
    M.Reachable s ↔ ∃ s₀ ls, M.init s₀ ∧ M.run s₀ ls = some s := by
  constructor
  · intro hs
    induction hs with
    | init h => exact ⟨_, [], h, rfl⟩
    | @step s s' l _ _ h ih =>
        obtain ⟨s₀, ls, hinit, hrun⟩ := ih
        refine ⟨s₀, ls ++ [l], hinit, ?_⟩
        simp [run_append, hrun, run, h]
  · rintro ⟨s₀, ls, hinit, hrun⟩
    exact Reachable.run (.init hinit) hrun

/-- The invariant rule for the state of a run and the labels it has taken. -/
theorem run_history {M : Machine σ ℓ} {I : List ℓ → σ → Prop} {s₀ s : σ} {ls : List ℓ}
    (hnil : I [] s₀)
    (hsnoc : ∀ ls s l s', M.run s₀ ls = some s → I ls s → M.step s l = some s' →
      I (ls ++ [l]) s')
    (hrun : M.run s₀ ls = some s) : I ls s := by
  induction ls using List.reverseRecOn generalizing s with
  | nil =>
      cases hrun
      exact hnil
  | append_singleton ls l ih =>
      rw [run_append] at hrun
      obtain ⟨s₁, hrun₁, hstep⟩ := Option.bind_eq_some_iff.mp hrun
      exact hsnoc ls s₁ l s hrun₁ (ih hrun₁) (run_singleton.mp hstep)

/-- A run that ends outside of {lit}`J` passes through a state where {lit}`P` holds, if
{lit}`J` is only left from such states. -/
theorem run_leaves {M : Machine σ ℓ} {J P : σ → Prop} {s s' : σ} {ls : List ℓ}
    (hstep : ∀ s l s', l ∈ ls → J s → M.step s l = some s' → J s' ∨ P s)
    (hJ : J s) (hrun : M.run s ls = some s') (hend : ¬ J s') :
    ∃ before after s₁, ls = before ++ after ∧ M.run s before = some s₁ ∧ P s₁ := by
  induction ls generalizing s with
  | nil =>
      cases hrun
      exact absurd hJ hend
  | cons l ls ih =>
      simp only [run] at hrun
      split at hrun
      · rename_i s₁ hl
        rcases hstep s l s₁ List.mem_cons_self hJ hl with hJ₁ | hP
        · obtain ⟨before, after, s₂, rfl, hbefore, hP⟩ :=
            ih (fun s l s' hmem => hstep s l s' (List.mem_cons_of_mem _ hmem)) hJ₁ hrun
          refine ⟨l :: before, after, s₂, rfl, ?_, hP⟩
          simpa only [run, hl] using hbefore
        · exact ⟨[], l :: ls, s, rfl, rfl, hP⟩
      · cases hrun

/-! ## Notes a run takes -/

/-- The machine with a record of what its steps note. -/
def noting {ε : Type} (M : Machine σ ℓ) (note : σ → ℓ → List ε) : Machine (σ × List ε) ℓ where
  init x := M.init x.1 ∧ x.2 = []
  step x l := (M.step x.1 l).map fun s' => (s', x.2 ++ note x.1 l)

/-- A step of the machine that notes is a step with its notes. -/
theorem noting_step {ε : Type} {M : Machine σ ℓ} {note : σ → ℓ → List ε} {x x' : σ × List ε} {l : ℓ} :
    (M.noting note).step x l = some x' ↔ M.step x.1 l = some x'.1 ∧ x'.2 = x.2 ++ note x.1 l := by
  obtain ⟨s', h'⟩ := x'
  simp only [noting, Option.map_eq_some_iff, Prod.mk.injEq]
  constructor
  · rintro ⟨_, hstep, rfl, rfl⟩
    exact ⟨hstep, rfl⟩
  · rintro ⟨hstep, rfl⟩
    exact ⟨s', hstep, rfl, rfl⟩

/-- What is reached with some notes is what is reached. -/
theorem reachable_iff_noting {ε : Type} {M : Machine σ ℓ} {note : σ → ℓ → List ε} {s : σ} :
    M.Reachable s ↔ ∃ h, (M.noting note).Reachable (s, h) := by
  constructor
  · intro hs
    induction hs with
    | init h => exact ⟨[], .init ⟨h, rfl⟩⟩
    | step _ _ hstep ih =>
        obtain ⟨h, hh⟩ := ih
        exact ⟨_, .step hh trivial (noting_step.mpr ⟨hstep, rfl⟩)⟩
  · rintro ⟨h, hh⟩
    suffices hfst : ∀ x, (M.noting note).Reachable x → M.Reachable x.1 from hfst _ hh
    intro x hx
    induction hx with
    | init h => exact .init h.1
    | step _ _ hstep ih => exact .step ih trivial (noting_step.mp hstep).1

/-! ## Simulation of a specification -/

/-- A specification: a step relation whose steps may carry an observation. -/
structure Spec (β ε : Type) where
  init : β → Prop
  step : β → Option ε → β → Prop

/-- Runs of a specification together with the observations they make. -/
inductive Spec.Trace {β ε : Type} (S : Spec β ε) : β → List ε → Prop
  | init {b : β} (h : S.init b) : Trace S b []
  | silent {b b' : β} {es : List ε} (ht : Trace S b es) (h : S.step b none b') :
      Trace S b' es
  | observe {b b' : β} {es : List ε} {e : ε} (ht : Trace S b es)
      (h : S.step b (some e) b') : Trace S b' (es ++ [e])

/-- The observations of a list of labels. -/
def observations {ε : Type} (obs : ℓ → Option ε) (ls : List ℓ) : List ε :=
  ls.filterMap obs

/-- A relation through which every machine step is one specification step with
the same observation, or no step at all when nothing is observed. -/
structure Simulation {β ε : Type} (M : Machine σ ℓ) (S : Spec β ε)
    (obs : ℓ → Option ε) where
  rel : σ → β → Prop
  init : ∀ s, M.init s → ∃ b, S.init b ∧ rel s b
  step : ∀ s b l s', M.Reachable s → rel s b → M.step s l = some s' →
    ∃ b', (b' = b ∧ obs l = none ∨ S.step b (obs l) b') ∧ rel s' b'

/-- Every run of the machine has a run of the specification with the same
observations, ending in related states. -/
theorem Simulation.trace {β ε : Type} {M : Machine σ ℓ} {S : Spec β ε}
    {obs : ℓ → Option ε} (R : Simulation M S obs) {s₀ s : σ} {ls : List ℓ}
    (hinit : M.init s₀) (hrun : M.run s₀ ls = some s) :
    ∃ b, S.Trace b (observations obs ls) ∧ R.rel s b := by
  induction ls using List.reverseRecOn generalizing s with
  | nil =>
      cases hrun
      obtain ⟨b, hb, hrel⟩ := R.init s₀ hinit
      exact ⟨b, .init hb, hrel⟩
  | append_singleton ls l ih =>
      rw [run_append] at hrun
      obtain ⟨s₁, hrun₁, hstep⟩ := Option.bind_eq_some_iff.mp hrun
      have hlast : M.step s₁ l = some s := by
        simp only [run] at hstep
        split at hstep
        · simp_all
        · cases hstep
      obtain ⟨b, htrace, hrel⟩ := ih hrun₁
      have hreach : M.Reachable s₁ := Reachable.run (.init hinit) hrun₁
      obtain ⟨b', hb', hrel'⟩ := R.step s₁ b l s hreach hrel hlast
      refine ⟨b', ?_, hrel'⟩
      rcases hb' with ⟨rfl, hnone⟩ | hb'
      · simpa [observations, List.filterMap_append, hnone] using htrace
      · cases hobs : obs l with
        | none =>
            rw [hobs] at hb'
            simpa [observations, List.filterMap_append, hobs] using htrace.silent hb'
        | some e =>
            rw [hobs] at hb'
            simpa [observations, List.filterMap_append, hobs] using htrace.observe hb'

/-! ## Threads over a shared memory -/

/-- A shared memory together with one local state per thread. -/
structure Shared (τ μ θ : Type) where
  mem : μ
  threads : τ → θ

variable {τ μ θ c : Type} [DecidableEq τ]

/-- Interleave a local step function: one thread steps, with one choice, on the
shared memory and its own local state. -/
def ofThreads (init : Shared τ μ θ → Prop)
    (tstep : τ → c → μ → θ → Option (μ × θ)) : Machine (Shared τ μ θ) (τ × c) where
  init := init
  step s l :=
    match tstep l.1 l.2 s.mem (s.threads l.1) with
    | some (m, th) => some ⟨m, Function.update s.threads l.1 th⟩
    | none => none

/-- One step of the interleaving is one local step. -/
theorem ofThreads_step {init : Shared τ μ θ → Prop}
    {tstep : τ → c → μ → θ → Option (μ × θ)} {s s' : Shared τ μ θ} {l : τ × c}
    (h : (ofThreads init tstep).step s l = some s') :
    ∃ m th, tstep l.1 l.2 s.mem (s.threads l.1) = some (m, th) ∧
      s' = ⟨m, Function.update s.threads l.1 th⟩ := by
  simp only [ofThreads] at h
  split at h
  · rename_i m th hstep
    exact ⟨m, th, hstep, (Option.some.inj h).symm⟩
  · cases h

/-- The thread-modular rule: a step keeps the assertion of the thread that takes
it, and leaves the assertion of every other thread standing. -/
theorem thread_invariant {init : Shared τ μ θ → Prop}
    {tstep : τ → c → μ → θ → Option (μ × θ)} {ok : Shared τ μ θ → τ × c → Prop}
    {A : τ → μ → θ → Prop}
    (hinit : ∀ s, init s → ∀ t, A t s.mem (s.threads t))
    (hself : ∀ s t ch m th, (ofThreads init tstep).ReachableVia ok s → ok s (t, ch) →
      (∀ u, A u s.mem (s.threads u)) →
      tstep t ch s.mem (s.threads t) = some (m, th) → A t m th)
    (hother : ∀ s t ch m th u, (ofThreads init tstep).ReachableVia ok s → ok s (t, ch) →
      (∀ u, A u s.mem (s.threads u)) → u ≠ t →
      tstep t ch s.mem (s.threads t) = some (m, th) → A u m (s.threads u))
    {s : Shared τ μ θ} (hs : (ofThreads init tstep).ReachableVia ok s) (t : τ) :
    A t s.mem (s.threads t) := by
  have hall : ∀ t, A t s.mem (s.threads t) := by
    refine ReachableVia.invariant (I := fun s => ∀ t, A t s.mem (s.threads t)) hinit ?_ hs
    intro s l s' hr hA hok h u
    obtain ⟨m, th, hstep, rfl⟩ := ofThreads_step h
    by_cases hu : u = l.1
    · subst hu
      simpa using hself s l.1 l.2 m th hr hok hA hstep
    · simpa [Function.update_of_ne hu] using hother s l.1 l.2 m th u hr hok hA hu hstep
  exact hall t

end Machine

end XynokConcurrency
