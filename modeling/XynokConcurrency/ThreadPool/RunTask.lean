import Mathlib.Data.List.Basic

/-!
# Panics on their way through a runner

A job is user code, and so is the destructor of the payload it panics with: dropping
a payload may panic again, with another payload.  The model follows a payload from
the job through {lit}`record_panic`, the closure {lit}`Scope::new_job` makes and
{lit}`run_task` to the two loops that call it.

What a job meets in its scope is an input here, since other threads decide it: the
cancel flag, whether the lock of the panic cell is taken, and what the cell holds.

Source: {lit}`run_task` and {lit}`Worker::update` in {lit}`thread_pool/worker.rs`,
{lit}`new_job` and {lit}`record_panic` in {lit}`thread_pool/scope.rs`,
{lit}`run_until` in {lit}`thread_pool/shared.rs`.

Main results:

- Theorem {lit}`runTask_ok_iff`: when {lit}`run_task` returns.
- Theorem {lit}`loops_end_iff`: both loops come to their end exactly if every payload
  {lit}`run_task` itself drops has a destructor that does not panic.
- Theorem {lit}`payload_escapes`: a payload whose destructor panics unwinds both loops.
-/

namespace XynokConcurrency

/-! ## The functions -/

section Functions

variable {P : Type}

/-- What a job meets in its scope. -/
structure ScopeView (P : Type) where
  canceled : Bool
  contended : Bool
  panic : Option P

/-- A job: one handed to {lit}`push`, or one of a scope.  {lit}`body` is what calling
the user's closure does, and {lit}`captures` what dropping it without a call does. -/
inductive JobFn (P : Type)
  | pushed (body : Except P Unit)
  | ofScope (body captures : Except P Unit) (view : ScopeView P)

/-- What a job leaves in its scope: whether its ticket is released, and the payload it
stored. -/
structure ScopeEffect (P : Type) where
  released : Bool
  stored : Option P

/-- A payload is dropped; {lit}`raises` is what its destructor panics with. -/
def dropPayload (raises : P → Option P) (payload : P) : Except P Unit :=
  match raises payload with
  | none => .ok ()
  | some raised => .error raised

/-- {lit}`record_panic`, with the payload it stores. -/
def recordPanic (raises : P → Option P) (view : ScopeView P) (payload : P) :
    Except P Unit × Option P :=
  if view.contended then (dropPayload raises payload, none)
  else
    match view.panic with
    | none => (.ok (), some payload)
    | some _ => (dropPayload raises payload, none)

/-- {lit}`run_once`; for a job of a scope, the closure made by {lit}`new_job`.  The
ticket is a local of that closure, so that unwinding drops it too. -/
def JobFn.runOnce (raises : P → Option P) : JobFn P → Except P Unit × ScopeEffect P
  | .pushed body => (body, ⟨false, none⟩)
  | .ofScope body captures view =>
      if view.canceled then
        -- the ticket is dropped, and then what the closure captured
        (captures, ⟨true, none⟩)
      else
        match body with
        | .ok () => (.ok (), ⟨true, none⟩)
        | .error payload =>
            let (result, stored) := recordPanic raises view payload
            (result, ⟨true, stored⟩)

/-- {lit}`run_task`: the result of {lit}`catch_unwind` is dropped where nothing
catches. -/
def runTask (raises : P → Option P) (job : JobFn P) : Except P Unit × ScopeEffect P :=
  match job.runOnce raises with
  | (.ok (), effect) => (.ok (), effect)
  | (.error payload, effect) => (dropPayload raises payload, effect)

/-- One search for work: the job {lit}`pop_and_run_a_task` finds, and the one
{lit}`steal_and_run_a_task` finds if that finds none. -/
structure Round (P : Type) where
  popped : Option (JobFn P)
  stolen : Option (JobFn P)

/-- {lit}`pop_and_run_a_task` and {lit}`steal_and_run_a_task`, from the job they
find on. -/
def runFound (raises : P → Option P) : Option (JobFn P) → Except P Bool
  | none => .ok false
  | some job =>
      match (runTask raises job).1 with
      | .ok () => .ok true
      | .error payload => .error payload

/-- {lit}`pop_and_run_a_task() || steal_and_run_a_task(tick)`. -/
def Round.search (raises : P → Option P) (round : Round P) : Except P Bool :=
  match runFound raises round.popped with
  | .ok true => .ok true
  | .ok false => runFound raises round.stolen
  | .error payload => .error payload

/-- How a loop is left. -/
inductive LoopEnd (P : Type)
  | condition
  | unwound (payload : P)
deriving DecidableEq

/-- A loop over searches for work.  Its condition turns false after the given rounds. -/
def searchLoop (raises : P → Option P) : List (Round P) → LoopEnd P
  | [] => .condition
  | round :: rounds =>
      match round.search raises with
      | .ok _ => searchLoop raises rounds
      | .error payload => .unwound payload

/-- {lit}`Worker::update`: {lit}`is_running` is read before every round. -/
def workerUpdate (raises : P → Option P) (rounds : List (Round P)) : LoopEnd P :=
  searchLoop raises rounds

/-- {lit}`run_until`: {lit}`done` is called before every round. -/
def runUntilDone (raises : P → Option P) (rounds : List (Round P)) : LoopEnd P :=
  searchLoop raises rounds

end Functions

/-! ## When control comes back -/

section Escape

variable {P : Type} {raises : P → Option P}

/-- The destructor of the payload does not panic. -/
def Quiet (raises : P → Option P) (payload : P) : Prop := raises payload = none

/-- The call returns, or panics with a payload that can be dropped. -/
def Tame (raises : P → Option P) (call : Except P Unit) : Prop :=
  ∀ payload, call = .error payload → Quiet raises payload

/-- The payloads that come to {lit}`run_task` have destructors that do not panic.  A
job of a scope hands on what its captures panic with if it was canceled, and what the
destructor of its payload panics with if the payload finds no room in the panic cell. -/
def JobFn.Tame (raises : P → Option P) : JobFn P → Prop
  | .pushed body => XynokConcurrency.Tame raises body
  | .ofScope body captures view =>
      if view.canceled then XynokConcurrency.Tame raises captures
      else
        ∀ payload, body = .error payload →
          view.contended = false ∧ view.panic = none ∨
            ∀ raised, raises payload = some raised → Quiet raises raised

/-- The job a search finds can be run. -/
def Round.Tame (raises : P → Option P) (round : Round P) : Prop :=
  ∀ job, round.popped.or round.stolen = some job → job.Tame raises

/-- A payload is dropped without a panic exactly if its destructor does not panic. -/
theorem dropPayload_ok_iff {payload : P} :
    dropPayload raises payload = .ok () ↔ Quiet raises payload := by
  unfold dropPayload Quiet
  split <;> simp_all

/-- What dropping a payload panics with. -/
theorem dropPayload_error_iff {payload raised : P} :
    dropPayload raises payload = .error raised ↔ raises payload = some raised := by
  unfold dropPayload
  split <;> simp_all

/-- A payload leaves {lit}`record_panic` only if it is not stored. -/
theorem recordPanic_error_iff {view : ScopeView P} {payload raised : P} :
    (recordPanic raises view payload).1 = .error raised ↔
      ¬(view.contended = false ∧ view.panic = none) ∧ raises payload = some raised := by
  unfold recordPanic
  split
  · rename_i hcontended
    simp [hcontended, dropPayload_error_iff]
  · split
    · rename_i hcell
      simp_all
    · rename_i hcell
      simp [hcell, dropPayload_error_iff]

/-- The payloads {lit}`run_task` catches are those {lit}`Tame` speaks of. -/
theorem JobFn.tame_iff (job : JobFn P) :
    job.Tame raises ↔ ∀ payload, (job.runOnce raises).1 = .error payload → Quiet raises payload := by
  cases job with
  | pushed body => exact Iff.rfl
  | ofScope body captures view =>
      simp only [JobFn.Tame, runOnce]
      split
      · exact Iff.rfl
      · cases body with
        | ok u => simp
        | error payload =>
            simp only [Except.error.injEq, forall_eq', recordPanic_error_iff]
            constructor
            · rintro (hroom | hquiet) raised ⟨hfull, hraised⟩
              · exact (hfull hroom).elim
              · exact hquiet raised hraised
            · intro h
              by_cases hroom : view.contended = false ∧ view.panic = none
              · exact .inl hroom
              · exact .inr fun raised hraised => h raised ⟨hroom, hraised⟩

/-- When {lit}`run_task` returns. -/
theorem runTask_ok_iff (job : JobFn P) : (runTask raises job).1 = .ok () ↔ job.Tame raises := by
  rw [JobFn.tame_iff]
  unfold runTask
  split
  · rename_i hrun
    simp [hrun]
  · rename_i hrun
    simp [hrun, dropPayload_ok_iff]

/-- What running a job that was found gives. -/
theorem runFound_ok_iff (found : Option (JobFn P)) :
    (∃ b, runFound raises found = .ok b) ↔ ∀ job, found = some job → job.Tame raises := by
  cases found with
  | none => simp [runFound]
  | some job =>
      simp only [runFound, Option.some.injEq, forall_eq', ← runTask_ok_iff]
      split <;> simp_all

/-- When a search for work returns. -/
theorem Round.search_ok_iff (round : Round P) :
    (∃ b, round.search raises = .ok b) ↔ round.Tame raises := by
  obtain ⟨popped, stolen⟩ := round
  cases popped with
  | none => simpa [search, Round.Tame, runFound] using runFound_ok_iff stolen
  | some job =>
      have hjob : (∃ b, runFound raises (some job) = .ok b) ↔ _ := runFound_ok_iff (some job)
      simp only [Round.Tame, Option.some_or] at hjob ⊢
      rw [← hjob]
      simp only [search, runFound]
      cases (runTask raises job).1 <;> simp

/-- When a loop is left by its condition. -/
theorem searchLoop_eq_condition_iff (rounds : List (Round P)) :
    searchLoop raises rounds = .condition ↔ ∀ round ∈ rounds, round.Tame raises := by
  induction rounds with
  | nil => simp [searchLoop]
  | cons round rounds ih =>
      rw [List.forall_mem_cons, ← ih, ← round.search_ok_iff, searchLoop]
      split <;> simp_all

/-- When control comes back to the runner: a job returns from {lit}`run_task`, and both
loops run until their condition turns false, exactly if every payload that
{lit}`run_task` drops has a destructor that does not panic. -/
theorem loops_end_iff (raises : P → Option P) :
    (∀ job : JobFn P, (runTask raises job).1 = .ok () ↔ job.Tame raises) ∧
      ∀ rounds : List (Round P),
        (workerUpdate raises rounds = .condition ∧ runUntilDone raises rounds = .condition) ↔
          ∀ round ∈ rounds, round.Tame raises := by
  refine ⟨runTask_ok_iff, fun rounds => ?_⟩
  rw [workerUpdate, runUntilDone, and_self]
  exact searchLoop_eq_condition_iff rounds

/-- Without payloads whose destructor panics, no job takes down its runner. -/
theorem searchLoop_of_quiet (hquiet : ∀ payload, Quiet raises payload) (rounds : List (Round P)) :
    searchLoop raises rounds = .condition := by
  refine (searchLoop_eq_condition_iff rounds).mpr fun round _ job _ => ?_
  exact job.tame_iff.mpr fun payload _ => hquiet payload

/-- A payload whose destructor panics, with a payload whose destructor does not. -/
def bombRaises : Bool → Option Bool
  | true => some false
  | false => none

/-- One job handed to {lit}`push` that panics with such a payload unwinds the loop that
runs it. -/
theorem payload_escapes :
    ¬∀ rounds : List (Round Bool), workerUpdate bombRaises rounds = .condition ∧
      runUntilDone bombRaises rounds = .condition := by
  intro h
  have hloop := (h [⟨some (.pushed (.error true)), none⟩]).1
  cases hloop

end Escape

end XynokConcurrency
