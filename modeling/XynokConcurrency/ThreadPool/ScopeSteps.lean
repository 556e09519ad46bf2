import XynokConcurrency.ThreadPool.JobSteps

/-!
# What one step can do to a scope

The record of a scope is changed by the call that owns it, by the calls that spawn on it, by
the tickets of its jobs and by the jobs that report a panic.  Every change is listed here
once, with the program point that makes it.

Main results:

- Theorem {lit}`Frame.step_scope`: every step of a frame is one of the listed changes.
- Theorem {lit}`ThreadStep.scope`: so is every step of a thread.

Source: {lit}`thread_pool/mod.rs`, {lit}`thread_pool/scope.rs`, {lit}`utils/latch.rs`.
-/

namespace XynokConcurrency

/-- The jobs whose ticket a frame is about to give back to scope {lit}`r`. -/
def Frame.Releases (m : Mem) (r j : Nat) : Frame → Prop
  | .task k (.dropTicket s) | .task k (.dropTicketCanceled s) => k = j ∧ s = r
  | .dropJobs (k :: _) => k = j ∧ (m.jobs j).home = .scope r
  | _ => False

/-- What a step of frame {lit}`f`, which gives way to {lit}`fs`, can make of scope
{lit}`r`. -/
inductive ScopeStep (t : Tid) (m : Mem) (f : Frame) (fs : List Frame) (r : Nat) (scope : Scope) :
    Scope → Prop
  | same : ScopeStep t m f fs r scope scope
  | fresh (hf : ∃ u, f = .user u) (hr : r = m.nextScope) (root : Nat) (batch : Bool) :
      ScopeStep t m f fs r scope (.new root batch t)
  | spawners (hf : f.tag = .user ∨ f.tag = .spawnDone) (spawners : List Tid) :
      ScopeStep t m f fs r scope { scope with spawners := spawners }
  | opened (hf : ∃ p role previous, f = .scope p r (.enter role previous))
      (hbatch : scope.batch = false) : ScopeStep t m f fs r scope { scope with opened := true }
  | closed (hf : f = .user (.closure r)) : ScopeStep t m f fs r scope { scope with opened := false }
  | iterPanic (x : Nat) (hf : f = .user (.iterNext r)) (hfs : fs = [.ret (.panic x)]) :
      ScopeStep t m f fs r scope { scope with iterPanic := some x }
  | canceled (hf : ∃ p role previous x, f = .scope p r (.cancelCas role previous x)) :
      ScopeStep t m f fs r scope { scope with latch := { scope.latch with canceled := true } }
  | locked (hf : (∃ j x, f = .task j (.recordTry r x)) ∨ ∃ p role o, f = .scope p r (.takeLock role o))
      (hfree : scope.panic.locked = none) :
      ScopeStep t m f fs r scope { scope with panic := { scope.panic with locked := some t } }
  | stored (j x : Nat) (hf : f = .task j (.record r x)) :
      ScopeStep t m f fs r scope
        { scope with panic := { scope.panic with val := some (scope.panic.val.getD x) } }
  | taken (hf : ∃ p role o, f = .scope p r (.takePanic role o)) :
      ScopeStep t m f fs r scope { scope with panic := { scope.panic with val := none } }
  | unlocked (hf : (∃ j, f = .task j (.recordUnlock r)) ∨
        ∃ p role o x, f = .scope p r (.takeUnlock role o x)) :
      ScopeStep t m f fs r scope { scope with panic := { scope.panic with locked := none } }
  | ended (hf : ∃ p role o x, f = .scope p r (.matchOutcome role o x)) :
      ScopeStep t m f fs r scope { scope with ended := true }
  | passed (hf : ∃ p, f = .publish p r .passUnlock) :
      ScopeStep t m f fs r scope { scope with passed := true }
  | ticket (hf : f.Makes r) :
      ScopeStep t m f fs r scope
        { scope with
          latch := { scope.latch with remaining := scope.latch.remaining + 1 }
          tickets := scope.tickets ++ [m.nextJob] }
  | released (j : Nat) (hf : f.Releases m r j) :
      ScopeStep t m f fs r scope
        { scope with
          latch := { scope.latch with remaining := scope.latch.remaining - 1 }
          tickets := scope.tickets.erase j }

section Steps

variable {t : Tid} {c : Choice} {m m₁ m' : Mem} {ctx ctx' : Context} {f : Frame} {fs : List Frame}
  {r s j : Nat} {th th' : Thread}

/-- A step that changes one scope. -/
theorem ScopeStep.modScope {change : Scope → Scope} (hscopes : m₁.scopes = m.scopes)
    (h : ScopeStep t m f fs s (m.scopes s) (change (m.scopes s))) :
    ScopeStep t m f fs r (m.scopes r) ((m₁.modScope s change).scopes r) := by
  rw [Mem.modScope_scopes, hscopes]
  rcases eq_or_ne r s with rfl | hr
  · simpa using h
  · simpa [hr] using .same

/-- A ticket is taken. -/
theorem ScopeStep.newJob (h : f.Makes s) :
    ScopeStep t m f fs r (m.scopes r) ((newJob m s).scopes r) := by
  let change : Scope → Scope := fun scope =>
    { scope with
      latch := { scope.latch with remaining := scope.latch.remaining + 1 }
      tickets := scope.tickets ++ [m.nextJob] }
  have hstep : ScopeStep t m f fs r (m.scopes r) ((m.modScope s change).scopes r) :=
    .modScope rfl (.ticket h)
  exact hstep

/-- A ticket is given back. -/
theorem ScopeStep.dropTicket (h : f.Releases m s j) :
    ScopeStep t m f fs r (m.scopes r) ((dropTicket m s j).scopes r) := by
  let change : Scope → Scope := fun scope =>
    { scope with
      latch := { scope.latch with remaining := scope.latch.remaining - 1 }
      tickets := scope.tickets.erase j }
  have hstep : ScopeStep t m f fs r (m.scopes r) ((m.modScope s change).scopes r) :=
    .modScope rfl (.released j h)
  exact hstep

/-- User code. -/
theorem userStep_scope {u : UserCode} {a : UserAct} (hs : userStep t m u a = some (m', fs)) :
    ScopeStep t m (.user u) fs r (m.scopes r) (m'.scopes r) := by
  obtain ⟨o, h⟩ | ⟨fs', h, rfl⟩ := userStep_cases hs
  · cases u with
    | closure s =>
        simp only [userEnd] at h
        split at h <;> cases h
        exact .modScope rfl (.closed rfl)
    | iterNext s =>
        cases o <;> cases h
        · exact .same
        · exact .same
        · exact .modScope rfl (.iterPanic _ rfl rfl)
    | _ => cases h; exact .same
  · have henter : ∀ (p : Nat) (batch : Bool), ScopeStep t m (.user u) (fs' ++ [.user u]) r (m.scopes r)
        (Function.update m.scopes m.nextScope (.new p batch t) r) := by
      intro p batch
      rcases eq_or_ne r m.nextScope with rfl | hr
      · simpa using .fresh ⟨u, rfl⟩ rfl p batch
      · simpa [hr] using .same
    cases a <;> simp only [userCall, enterScope] at h <;> (try split at h) <;> cases h
    case inr.scope.isTrue.refl => exact henter _ _
    case inr.runBatch.isTrue.refl => exact henter _ _
    case inr.spawn.isTrue.refl => exact .modScope rfl (.spawners (.inl rfl) _)
    all_goals exact .same

/-- What one step of a frame can do to one scope. -/
theorem Frame.step_scope (hs : f.step t c m ctx = some (m', ctx', fs)) (r : Nat) :
    ScopeStep t m f fs r (m.scopes r) (m'.scopes r) := by
  cases f <;> simp only [Frame.step, keep_eq, keepMem_eq] at hs
  case user u =>
    split at hs
    · exact userStep_scope (keep_eq.mp hs).1
    · cases hs
  case callDone => cases hs; exact .same
  case spawnDone => cases hs; exact .modScope rfl (.spawners (.inr rfl) _)
  case wake pc =>
    obtain ⟨hs, rfl⟩ := hs
    cases pc <;> simp only [wakeStep] at hs <;> (try split at hs) <;> cases hs <;> exact .same
  case spawn pc =>
    obtain ⟨hs, rfl⟩ := hs
    cases pc <;> simp only [spawnStep] at hs <;> (try split at hs) <;> cases hs
    · exact .newJob rfl
    · exact .same
  case scope p s pc =>
    cases pc <;> simp only [scopeStep] at hs <;> (repeat' split at hs) <;> cases hs <;>
      first
        | exact .same
        | exact .modScope rfl (.opened ⟨_, _, _, rfl⟩ (Bool.eq_false_of_not_eq_true ‹_›))
        | exact .modScope rfl (.canceled ⟨_, _, _, _, rfl⟩)
        | exact .modScope rfl (.locked (.inr ⟨_, _, _, rfl⟩) ‹_›)
        | exact .modScope rfl (.taken ⟨_, _, _, rfl⟩)
        | exact .modScope rfl (.unlocked (.inr ⟨_, _, _, _, rfl⟩))
        | exact .modScope rfl (.ended ⟨_, _, _, _, rfl⟩)
  case runUntil => obtain ⟨-, rfl, rfl⟩ := hs; exact .same
  case steal => obtain ⟨-, rfl, rfl⟩ := hs; exact .same
  case task j pc =>
    obtain ⟨hs, rfl⟩ := hs
    cases pc <;> simp only [taskStep] at hs <;> (try split at hs) <;> cases hs <;>
      first
        | exact .same
        | exact .dropTicket ⟨rfl, rfl⟩
        | exact .modScope rfl (.locked (.inl ⟨_, _, rfl⟩) ‹_›)
        | exact .modScope rfl (.stored _ _ rfl)
        | exact .modScope rfl (.unlocked (.inl ⟨_, rfl⟩))
  case batch => obtain ⟨-, rfl, rfl⟩ := hs; exact .same
  case inboxes pc =>
    obtain ⟨hs, rfl⟩ := hs
    cases pc <;> simp only [inboxesStep] at hs <;> (try split at hs) <;> cases hs <;> exact .same
  case assign pc =>
    obtain ⟨hs, rfl⟩ := hs
    cases pc <;> simp only [assignStep] at hs <;> cases hs <;>
      first | exact .same | exact .newJob rfl
  case publish pc =>
    obtain ⟨hs, rfl⟩ := hs
    rcases pc with _ | _ | ⟨kept, _ | ⟨i, rest'⟩⟩ | _ | _ | _ <;>
      simp only [publishStep] at hs <;> (try split at hs) <;> cases hs <;>
      first | exact .same | exact .modScope rfl (.passed ⟨_, rfl⟩)
  case loop pc =>
    cases pc <;> simp only [loopStep] at hs <;> (try split at hs) <;> cases hs <;> exact .same
  case sleep pc =>
    obtain ⟨hs, rfl⟩ := hs
    cases pc <;> simp only [sleepStep] at hs <;> (repeat' split at hs) <;> cases hs <;> exact .same
  case newPool q pc =>
    obtain ⟨hs, rfl⟩ := hs
    cases pc <;> simp only [newPoolStep] at hs <;> (repeat' split at hs) <;> cases hs <;> exact .same
  case shutdown q handles count pc =>
    obtain ⟨hs, rfl⟩ := hs
    cases pc <;> simp only [shutdownStep] at hs <;> (repeat' split at hs) <;> cases hs <;> exact .same
  case dropPool pc =>
    obtain ⟨hs, rfl⟩ := hs
    cases pc <;> simp only [dropPoolStep] at hs <;> cases hs <;> exact .same
  case dropJobs js =>
    obtain ⟨hs, rfl⟩ := hs
    cases js <;> simp only [dropJobsStep] at hs <;> cases hs
    · exact .same
    · split
      · exact .same
      · exact .dropTicket ⟨rfl, ‹_›⟩
  case dropEnv => cases hs; exact .same
  all_goals cases hs

/-- What one step of a thread can do to one scope. -/
theorem ThreadStep.scope (hs : ThreadStep t c m th m' th') (r : Nat) :
    m'.scopes r = m.scopes r ∨
      ∃ f rest fs ctx', th.stack = f :: rest ∧ th'.stack = fs ++ rest ∧
        f.step t c m th.ctx = some (m', ctx', fs) ∧ ScopeStep t m f fs r (m.scopes r) (m'.scopes r) := by
  cases hs with
  | @frame ctx ctx' f rest fs m' h => exact .inr ⟨f, rest, fs, ctx', rfl, rfl, h, Frame.step_scope h r⟩
  | _ => exact .inl rfl

end Steps

end XynokConcurrency
