import XynokConcurrency.ThreadPool.Captures

/-!
# The panics of a scope

The jobs of a scope put what they panic with into one cell, and only the first to come stores
its payload.  A job that finds the cell locked gives up.  Then another job holds the lock and
is about to store, or has stored, for the call of the scope locks the cell only after all
tickets.  So when the tickets are gone the cell is full exactly if a job has panicked.

Main results:

- Theorem {lit}`calls_told`: what the call of a scope knows of its closure and its jobs.
- Theorem {lit}`panicCells`: every payload in a cell is that of a job, and no panic is lost.
- Theorem {lit}`scope_reports_panics`: what the cell holds when the jobs are over, and what the
  call of the scope comes to.

Source: {lit}`record_panic` and {lit}`new_job` in {lit}`thread_pool/scope.rs`,
{lit}`thread_pool/mod.rs`, {lit}`utils/spinlock.rs`.
-/

namespace XynokConcurrency

/-! ## What a run notes -/

/-- The body of job {lit}`j` of scope {lit}`r` has come back with a panic, the closure of the
scope has, or a payload was put into the empty cell of the scope. -/
inductive PanicNote
  | job (r j x : Nat)
  | closure (r x : Nat)
  | stored (r x : Nat)
deriving DecidableEq

/-- What a step notes of panics. -/
def panicNotes (s : PoolState) (l : Tid × Choice) : List PanicNote :=
  match (s.threads l.1).stack with
  | .ret (.panic x) :: .task j (.scoped r) :: _ => [.job r j x]
  | .ret (.panic x) :: .scope _ r (.closure _ _) :: _ => [.closure r x]
  | .task _ (.record r x) :: _ =>
      if (s.mem.scopes r).panic.val = none then [.stored r x] else []
  | _ => []

/-- The payload a note says the closure of scope {lit}`r` panicked with. -/
def PanicNote.thrownIn (r : Nat) : PanicNote → Option Nat
  | .closure q x => if q = r then some x else none
  | _ => none

/-- The payload a note says was put into the cell of scope {lit}`r`. -/
def PanicNote.storedIn (r : Nat) : PanicNote → Option Nat
  | .stored q x => if q = r then some x else none
  | _ => none

/-- What the closure of scope {lit}`r` has panicked with. -/
def thrownIn (h : List PanicNote) (r : Nat) : List Nat := h.filterMap (PanicNote.thrownIn r)

/-- What was put into the cell of scope {lit}`r`. -/
def storedIn (h : List PanicNote) (r : Nat) : List Nat := h.filterMap (PanicNote.storedIn r)

section Notes

variable {s : PoolState} {l : Tid × Choice} {h h' : List PanicNote} {j r x : Nat} {rest : List Frame}

@[simp] theorem thrownIn_append : thrownIn (h ++ h') r = thrownIn h r ++ thrownIn h' r :=
  List.filterMap_append

@[simp] theorem storedIn_append : storedIn (h ++ h') r = storedIn h r ++ storedIn h' r :=
  List.filterMap_append

/-- Where the panic of a job is noted. -/
theorem job_mem_notes : .job r j x ∈ panicNotes s l ↔
    ∃ rest, (s.threads l.1).stack = .ret (.panic x) :: .task j (.scoped r) :: rest := by
  unfold panicNotes
  split <;> (try split) <;> simp_all
  constructor <;> rintro ⟨rfl, rfl, rfl⟩ <;> exact ⟨rfl, rfl, rfl⟩

/-- Where the panic of a closure is noted. -/
theorem thrownIn_notes : thrownIn (panicNotes s l) r = [] ∨
    ∃ x p role previous rest, thrownIn (panicNotes s l) r = [x] ∧
      (s.threads l.1).stack = .ret (.panic x) :: .scope p r (.closure role previous) :: rest := by
  unfold panicNotes
  split
  case h_2 x p q role previous rest hstack =>
    rcases eq_or_ne q r with rfl | hne
    · exact .inr ⟨x, p, role, previous, rest, by simp [thrownIn, PanicNote.thrownIn], hstack⟩
    · exact .inl (by simp [thrownIn, PanicNote.thrownIn, hne])
  case h_3 => split <;> exact .inl rfl
  all_goals exact .inl rfl

/-- The panic of a closure is noted. -/
theorem thrownIn_notes_of_ret {o : Outcome} {p : Nat} {role : Role} {previous : Context}
    (hstack : (s.threads l.1).stack = .ret o :: .scope p r (.closure role previous) :: rest) :
    thrownIn (panicNotes s l) r = o.payload.toList := by
  cases o <;> simp [panicNotes, hstack, thrownIn, PanicNote.thrownIn, Outcome.payload]

/-- Where a stored payload is noted. -/
theorem storedIn_notes : storedIn (panicNotes s l) r = [] ∨
    ∃ x j rest, storedIn (panicNotes s l) r = [x] ∧ (s.mem.scopes r).panic.val = none ∧
      (s.threads l.1).stack = .task j (.record r x) :: rest := by
  unfold panicNotes
  split
  case h_3 j q x rest hstack =>
    split
    · rename_i hval
      rcases eq_or_ne q r with rfl | hne
      · exact .inr ⟨x, j, rest, by simp [storedIn, PanicNote.storedIn], hval, hstack⟩
      · exact .inl (by simp [storedIn, PanicNote.storedIn, hne])
    · exact .inl rfl
  all_goals exact .inl rfl

/-- A stored payload is noted. -/
theorem storedIn_notes_of_record (hstack : (s.threads l.1).stack = .task j (.record r x) :: rest) :
    storedIn (panicNotes s l) r =
      if (s.mem.scopes r).panic.val = none then [x] else [] := by
  unfold panicNotes
  rw [hstack]
  dsimp only
  split <;> simp [storedIn, PanicNote.storedIn]

/-- Only a result on its way brings the panic of a closure. -/
theorem thrownIn_notes_of_top {f : Frame} (hstack : (s.threads l.1).stack = f :: rest)
    (hf : f.tag ≠ .ret) : thrownIn (panicNotes s l) r = [] := by
  rcases thrownIn_notes (s := s) (l := l) (r := r) with h | ⟨_, _, _, _, _, -, hstack'⟩
  · exact h
  · rw [hstack] at hstack'
    cases hstack'
    exact absurd rfl hf

/-- Only the wrapper of a job stores a payload. -/
theorem storedIn_notes_of_top {f : Frame} (hstack : (s.threads l.1).stack = f :: rest)
    (hf : f.tag ≠ .task) : storedIn (panicNotes s l) r = [] := by
  rcases storedIn_notes (s := s) (l := l) (r := r) with h | ⟨_, _, _, -, -, hstack'⟩
  · exact h
  · rw [hstack] at hstack'
    cases hstack'
    exact absurd rfl hf

end Notes

section Tickets

variable {s : PoolState} {t u : Tid} {p r j : Nat} {pc : TaskPc} {pc' : ScopePc}

/-- The wrapper of a job holds a ticket of its scope. -/
theorem ticket_of_task (hs : poolMachine.Reachable s) (hmem : .task j pc ∈ (s.threads t).stack)
    (hpc : pc.scope = some r) : j ∈ (s.mem.scopes r).tickets ∧ r < s.mem.nextScope := by
  have hj := jobOf_of_task hs hmem hpc
  have hr := (jobs_stay hs).home j hj.1 r hj.2
  have hbusy := ((busyOk hs).busy j).mp ⟨t, busy_of_task hmem hpc⟩
  exact ⟨((ticketsOk hs hr).live j).mpr ⟨hj, hbusy.2.2⟩, hr⟩

/-- While the wrapper of a job holds a ticket, the call of the scope has not waited for it. -/
theorem not_waited_of_task (hs : poolMachine.Reachable s) (hmem : .task j pc ∈ (s.threads t).stack)
    (hpc : pc.scope = some r) (hcall : .scope p r pc' ∈ (s.threads u).stack) : pc'.waited = false := by
  refine Bool.eq_false_of_not_eq_true fun hwaited => ?_
  obtain ⟨_, _, _, hdrained, -⟩ := (drained hs u).of_mem hcall
  have hticket := (ticket_of_task hs hmem hpc).1
  rw [hdrained hwaited] at hticket
  cases hticket

end Tickets

/-- Nothing is noted of a scope that does not exist yet. -/
theorem notes_of_scopes {x : PoolState × List PanicNote}
    (hx : (poolMachine.noting panicNotes).Reachable x) {r : Nat} (hr : x.1.mem.nextScope ≤ r) :
    thrownIn x.2 r = [] ∧ storedIn x.2 r = [] := by
  revert r
  refine Machine.Reachable.invariant (I := fun x : PoolState × List PanicNote =>
    ∀ {r : Nat}, x.1.mem.nextScope ≤ r → thrownIn x.2 r = [] ∧ storedIn x.2 r = []) ?_ ?_ hx
  · rintro ⟨s, h⟩ ⟨-, rfl⟩ r -
    exact ⟨rfl, rfl⟩
  · rintro ⟨s, h⟩ l ⟨s', h'⟩ hx hI hstep r hr
    obtain ⟨hstep, rfl⟩ := Machine.noting_step.mp hstep
    have hs := Machine.reachable_iff_noting.mpr ⟨h, hx⟩
    have hold : s.mem.nextScope ≤ r :=
      (grows_run hs (Machine.run_singleton.mpr hstep)).nextScope.trans hr
    obtain ⟨hthrown, hstored⟩ := hI hold
    rw [thrownIn_append, storedIn_append, hthrown, hstored]
    refine ⟨?_, ?_⟩
    · rcases thrownIn_notes (s := s) (l := l) (r := r) with h | ⟨_, p, role, previous, rest, -, hstack⟩
      · simpa using h
      · have hmem : .scope p r (.closure role previous) ∈ (s.threads l.1).stack := by simp [hstack]
        exact absurd (caller_of_scope hs hmem).2.1 (by omega)
    · rcases storedIn_notes (s := s) (l := l) (r := r) with h | ⟨x, j, rest, -, -, hstack⟩
      · simpa using h
      · have hmem : .task j (.record r x) ∈ (s.threads l.1).stack := by simp [hstack]
        exact absurd (ticket_of_task hs hmem rfl).2 (by omega)

/-! ## What the call of a scope knows -/

/-- What a call comes to when these payloads were thrown, the first first. -/
def Outcome.ofPayloads : List Nat → Outcome
  | [] => .unit
  | x :: _ => .panic x

theorem Outcome.ofPayloads_eq_unit {xs : List Nat} : Outcome.ofPayloads xs = .unit ↔ xs = [] := by
  cases xs <;> simp [Outcome.ofPayloads]

/-- A call knows what its closure has thrown, and then what has been stored for it; before it
looks, that lies in the cell. -/
def ScopePc.Told (thrown stored : List Nat) (val : Option Nat) : ScopePc → Prop
  | .start | .tryHost _ | .enter _ _ | .closure _ _ => thrown = [] ∧ stored = val.toList
  | .cancelLoad _ _ x | .cancelCas _ _ x => thrown = [x] ∧ stored = val.toList
  | .runUntil _ _ o | .waiting _ _ o | .restore _ _ o | .takeLock _ o | .takePanic _ o =>
      thrown.length ≤ 1 ∧ o = .ofPayloads thrown ∧ stored = val.toList
  | .takeUnlock _ o jobPanic | .matchOutcome _ o jobPanic =>
      thrown.length ≤ 1 ∧ o = .ofPayloads thrown ∧ stored = jobPanic.toList
  | .dropHelper _ result | .dropHostOwner _ result =>
      thrown.length ≤ 1 ∧ stored.length ≤ 1 ∧ result = .ofPayloads (thrown ++ stored)

section Told

variable {s s' : PoolState} {l : Tid × Choice} {t u : Tid} {c : Choice} {m m' : Mem}
  {ctx ctx' : Context} {f : Frame} {fs rest : List Frame} {p q r k : Nat} {o : Outcome}
  {pc pc' : ScopePc} {thrown stored : List Nat}

/-- What a step does to the cell of a scope whose call does not take the payload. -/
theorem cell_step (hs : poolMachine.Reachable s) (hstep : poolMachine.step s l = some s')
    (hr : r < s.mem.nextScope)
    (htake : ∀ p role o rest, (s.threads l.1).stack ≠ .scope p r (.takePanic role o) :: rest) :
    storedIn (panicNotes s l) r = [] ∧
        (s'.mem.scopes r).panic.val = (s.mem.scopes r).panic.val ∨
      (s.mem.scopes r).panic.val = none ∧ ∃ x j rest,
        (s.threads l.1).stack = .task j (.record r x) :: rest ∧
        storedIn (panicNotes s l) r = [x] ∧ (s'.mem.scopes r).panic.val = some x := by
  rcases storedIn_notes (s := s) (l := l) (r := r) with hnone | ⟨x, j, rest, hx, hval, hstack⟩
  · left
    refine ⟨hnone, ?_⟩
    rcases (thread_step hstep).1.scope r with heq | ⟨f, rest, fs, ctx', hstack, -, -, hscope⟩
    · rw [heq]
    · generalize s'.mem.scopes r = scope' at hscope ⊢
      cases hscope with
      | fresh _ heq => exact absurd heq hr.ne
      | stored j x hf =>
          subst hf
          rw [storedIn_notes_of_record hstack] at hnone
          cases hval : (s.mem.scopes r).panic.val with
          | none => simp [hval] at hnone
          | some y => rfl
      | taken hf =>
          obtain ⟨p, role, o, rfl⟩ := hf
          exact absurd hstack (htake p role o rest)
      | _ => rfl
  · right
    obtain ⟨ctx', fs, hf, -⟩ :=
      step_of_top hs hstep hstack (by simp) (fun _ _ => rfl) (fun _ _ h => h)
    simp only [Frame.step, keep_eq, taskStep, Option.some.injEq, Prod.mk.injEq] at hf
    refine ⟨hval, x, j, rest, hstack, hx, ?_⟩
    rw [← hf.1.1]
    simp [hval]

/-- A call that does not step knows what it knew. -/
theorem ScopePc.Told.kept {h : List PanicNote} (hs : poolMachine.Reachable s)
    (hstep : poolMachine.step s l = some s') (hmem : .scope p r pc ∈ (s.threads u).stack)
    (hstays : u ≠ l.1 ∨ (Frame.scope p r pc).awaits = true)
    (hthrown : thrownIn (panicNotes s l) r = [])
    (htold : pc.Told (thrownIn h r) (storedIn h r) (s.mem.scopes r).panic.val) :
    pc.Told (thrownIn (h ++ panicNotes s l) r) (storedIn (h ++ panicNotes s l) r)
      (s'.mem.scopes r).panic.val := by
  obtain ⟨hcaller, hr, -⟩ := caller_of_scope hs hmem
  rw [thrownIn_append, storedIn_append, hthrown, List.append_nil]
  have htake : ∀ p role o rest, (s.threads l.1).stack ≠ .scope p r (.takePanic role o) :: rest := by
    intro q role o rest hstack
    have htop : .scope q r (.takePanic role o) ∈ (s.threads l.1).stack := by simp [hstack]
    obtain rfl : u = l.1 := hcaller.symm.trans (caller_of_scope hs htop).1
    obtain ⟨-, rfl⟩ := scope_unique (placed hs _).fits hmem htop
    cases hstays.resolve_left (absurd rfl)
  rcases cell_step hs hstep hr htake with ⟨hnone, hval⟩ | ⟨hval, x, j, rest, hstack, hx, hval'⟩
  · rw [hnone, hval, List.append_nil]
    exact htold
  · have hrecord : .task j (.record r x) ∈ (s.threads l.1).stack := by simp [hstack]
    have hwaited := not_waited_of_task hs hrecord rfl hmem
    rw [hval] at htold
    rw [hx, hval']
    cases pc <;> simp_all [ScopePc.Told, ScopePc.waited]

/-- A call takes a result. -/
theorem ScopePc.Told.resume (hmem : .scope p r pc' ∈ f.resume o) :
    ∃ pc, f = .scope p r pc ∧
      ((∃ role previous, pc = .closure role previous) ∧
          (∀ stored val, pc.Told [] stored val → pc'.Told o.payload.toList stored val) ∨
        (∀ role previous, pc ≠ .closure role previous) ∧
          ∀ thrown stored val, pc.Told thrown stored val → pc'.Told thrown stored val) := by
  cases f with
  | scope q s pc =>
      cases pc with
      | closure role previous =>
          cases o <;> simp only [Frame.resume, List.mem_singleton, Frame.scope.injEq] at hmem <;>
            obtain ⟨rfl, rfl, rfl⟩ := hmem <;>
            exact ⟨_, rfl, .inl ⟨⟨_, _, rfl⟩, fun stored val h => by
              simpa [ScopePc.Told, Outcome.payload, Outcome.ofPayloads] using h⟩⟩
      | _ =>
          simp only [Frame.resume, List.mem_singleton, Frame.scope.injEq] at hmem
          obtain ⟨rfl, rfl, rfl⟩ := hmem
          exact ⟨_, rfl, .inr ⟨by simp, fun _ _ _ h => h⟩⟩
  | user v => simp [Frame.resume] at hmem
  | _ =>
      rcases (Frame.resume_givesWay _ o).tag hmem with h | h
      · cases h
      · simp [Frame.tag, FrameTag.next] at h

/-- A step of the call itself. -/
theorem scopeStep_told {spurious : Bool} (hs : scopeStep t spurious m ctx p r pc = some (m', ctx', fs))
    (hmem : .scope q k pc' ∈ fs) (htold : pc.Told thrown stored (m.scopes r).panic.val) :
    k = r ∧ pc'.Told thrown stored (m'.scopes r).panic.val := by
  cases pc <;> simp only [scopeStep] at hs
  case matchOutcome role o jobPanic =>
    cases hs
    simp only [List.mem_singleton, Frame.scope.injEq] at hmem
    obtain ⟨-, rfl, rfl⟩ := hmem
    obtain ⟨hlen, rfl, rfl⟩ := htold
    refine ⟨rfl, hlen, by cases jobPanic <;> simp, ?_⟩
    -- the closure's payload comes first, then the stored one
    cases thrown with
    | nil => cases jobPanic <;> rfl
    | cons x xs => rfl
  all_goals
    (repeat' split at hs) <;> cases hs <;>
    simp only [List.mem_cons, List.not_mem_nil, or_false, false_or, reduceCtorEq,
      Frame.scope.injEq] at hmem <;>
    obtain ⟨-, rfl, rfl⟩ := hmem <;>
    first
      | exact ⟨rfl, htold⟩
      | exact ⟨rfl, by simpa [ScopePc.Told] using htold⟩
      | (obtain ⟨rfl, hstored⟩ := htold; exact ⟨rfl, by simp, rfl, by simpa using hstored⟩)

/-- User code that opens a scope. -/
theorem userStep_told {v : UserCode} {a : UserAct} (hs : userStep t m v a = some (m', fs))
    (hmem : .scope q r pc ∈ fs) : r = m.nextScope ∧ pc.Told [] [] (m'.scopes r).panic.val := by
  obtain ⟨o, h⟩ | ⟨fs', h, rfl⟩ := userStep_cases hs
  · unfold userEnd at h
    (repeat' split at h) <;> cases h <;> simp at hmem
  · cases a <;> simp only [userCall, enterScope] at h <;> (try split at h) <;> cases h <;>
      simp only [List.mem_cons, List.mem_append, List.not_mem_nil, or_false, reduceCtorEq,
        Frame.scope.injEq] at hmem <;>
      obtain ⟨-, rfl, rfl⟩ := hmem <;> simp [ScopePc.Told, Scope.new]

end Told

/-- A call that takes a result is told of the panic of its closure. -/
theorem told_of_resume {s : PoolState} {l : Tid × Choice} {h : List PanicNote} {o : Outcome} {f : Frame}
    {rest : List Frame} {p r : Nat} {pc : ScopePc} {val : Option Nat}
    (hstack : (s.threads l.1).stack = .ret o :: f :: rest) (hnew : .scope p r pc ∈ f.resume o)
    (htold : ∀ pc₀, f = .scope p r pc₀ → pc₀.Told (thrownIn h r) (storedIn h r) val) :
    pc.Told (thrownIn (h ++ panicNotes s l) r) (storedIn (h ++ panicNotes s l) r) val := by
  obtain ⟨pc₀, rfl, hcase⟩ := ScopePc.Told.resume hnew
  have htold := htold pc₀ rfl
  rw [thrownIn_append, storedIn_append, storedIn_notes_of_top hstack (by simp [Frame.tag]),
    List.append_nil]
  rcases hcase with ⟨⟨role, previous, rfl⟩, hnext⟩ | ⟨hpc, hnext⟩
  · have hnone : thrownIn h r = [] := htold.1
    rw [thrownIn_notes_of_ret hstack, hnone, List.nil_append]
    exact hnext _ _ (hnone ▸ htold)
  · rcases thrownIn_notes (s := s) (l := l) (r := r) with h | ⟨_, _, _, _, _, -, hstack'⟩
    · rw [h, List.append_nil]
      exact hnext _ _ _ htold
    · rw [hstack] at hstack'
      cases hstack'
      exact absurd rfl (hpc _ _)

/-- A call that steps, or is made, knows what it knew. -/
theorem told_of_step {s : PoolState} {l : Tid × Choice} {h : List PanicNote} {m' : Mem}
    {ctx ctx' : Context} {f : Frame} {rest fs : List Frame} {p r : Nat} {pc : ScopePc}
    (hx : (poolMachine.noting panicNotes).Reachable (s, h))
    (hstack : (s.threads l.1).stack = f :: rest)
    (hf : f.step l.1 l.2 s.mem ctx = some (m', ctx', fs)) (hnew : .scope p r pc ∈ fs)
    (htold : ∀ q k pc₀, f = .scope q k pc₀ →
      pc₀.Told (thrownIn h k) (storedIn h k) (s.mem.scopes k).panic.val) :
    pc.Told (thrownIn (h ++ panicNotes s l) r) (storedIn (h ++ panicNotes s l) r)
      (m'.scopes r).panic.val := by
  rw [thrownIn_append, storedIn_append]
  cases f with
  | user v =>
      rw [thrownIn_notes_of_top hstack (by simp [Frame.tag]),
        storedIn_notes_of_top hstack (by simp [Frame.tag]), List.append_nil, List.append_nil]
      simp only [Frame.step] at hf
      split at hf
      · obtain ⟨rfl, hstart⟩ := userStep_told (keep_eq.mp hf).1 hnew
        obtain ⟨hthrown, hstored⟩ := notes_of_scopes hx (le_refl s.mem.nextScope)
        rw [hthrown, hstored]
        exact hstart
      · cases hf
  | scope q k pc₀ =>
      rw [thrownIn_notes_of_top hstack (by simp [Frame.tag]),
        storedIn_notes_of_top hstack (by simp [Frame.tag]), List.append_nil, List.append_nil]
      obtain ⟨rfl, hnext⟩ := scopeStep_told hf hnew (htold q k pc₀ rfl)
      exact hnext
  | ret o => cases hf
  | _ =>
      have htag := Frame.step_givesWay hf _ hnew
      simp [Frame.tag, FrameTag.next] at htag

/-- The call of a scope knows what its closure has thrown and what was stored for it. -/
theorem calls_told {x : PoolState × List PanicNote}
    (hx : (poolMachine.noting panicNotes).Reachable x) {t : Tid} {p r : Nat} {pc : ScopePc}
    (hmem : .scope p r pc ∈ (x.1.threads t).stack) :
    pc.Told (thrownIn x.2 r) (storedIn x.2 r) (x.1.mem.scopes r).panic.val := by
  revert t p r pc
  refine Machine.Reachable.invariant (I := fun x : PoolState × List PanicNote =>
    ∀ {t : Tid} {p r : Nat} {pc : ScopePc}, .scope p r pc ∈ (x.1.threads t).stack →
      pc.Told (thrownIn x.2 r) (storedIn x.2 r) (x.1.mem.scopes r).panic.val) ?_ ?_ hx
  · rintro ⟨s, h⟩ ⟨rfl, -⟩ (e | ⟨p, i⟩) q r pc hmem <;> simp [Thread.initial] at hmem
  · rintro ⟨s, h⟩ l ⟨s', h'⟩ hx hI hstep u p r pc hmem
    obtain ⟨hstep, rfl⟩ := Machine.noting_step.mp hstep
    dsimp only at hI hstep hmem ⊢
    have hs := Machine.reachable_iff_noting.mpr ⟨h, hx⟩
    obtain ⟨hlocal, hothers⟩ := thread_step hstep
    by_cases hu : u = l.1
    · subst hu
      have hawaits := awaits hs l.1
      have hcalling := calling hs l.1
      have hfits := (placed hs l.1).fits
      have hkept : .scope p r pc ∈ (s.threads l.1).stack → (Frame.scope p r pc).awaits = true →
          thrownIn (panicNotes s l) r = [] → pc.Told (thrownIn (h ++ panicNotes s l) r)
            (storedIn (h ++ panicNotes s l) r) (s'.mem.scopes r).panic.val :=
        fun hold hwaits hthrown => (hI hold).kept hs hstep hold (.inr hwaits) hthrown
      generalize hthread : s.threads l.1 = th₀ at hlocal hawaits hcalling hfits
      generalize s'.threads l.1 = th₁ at hlocal hmem
      generalize s'.mem = m' at hlocal hkept ⊢
      cases hlocal with
      | @resume ctx o f rest =>
          have hstack : (s.threads l.1).stack = .ret o :: f :: rest := by rw [hthread]
          rcases List.mem_append.mp hmem with hnew | hrest
          · refine told_of_resume hstack hnew fun pc₀ heq => ?_
            have hmem₀ : .scope p r pc₀ ∈ (s.threads l.1).stack := by simp [hstack, heq]
            exact hI hmem₀
          · refine hkept (by simp [hstack, hrest]) (hawaits _ (by simp [hrest])) ?_
            rcases thrownIn_notes (s := s) (l := l) (r := r) with h | ⟨_, _, _, _, _, -, hstack'⟩
            · exact h
            · rw [hstack] at hstack'
              cases hstack'
              obtain ⟨-, -, -, -, -, -, -, hunique, -⟩ := hfits.2.1
              exact absurd rfl (hunique _ hrest)
      | @call ctx f f' rest q hc =>
          have hstack : (s.threads l.1).stack = f :: rest := by rw [hthread]
          rcases List.mem_cons.mp hmem with rfl | hrest
          · unfold Frame.call at hc
            split at hc <;> (try split at hc) <;> cases hc
          · refine hkept (by simp [hstack, hrest]) (hawaits _ (by simpa using hrest))
              (thrownIn_notes_of_top hstack ?_)
            intro hret
            cases f <;> cases hret
            cases hc
      | @answer ctx f rest res =>
          have hstack : (s.threads l.1).stack = f :: rest := by rw [hthread]
          have hwaits : ∃ q, f.Waits ctx q := by
            obtain h | ⟨f', rest', q, h, hwaits, -⟩ := hcalling
            · cases h
            · cases h
              exact ⟨q, hwaits⟩
          obtain ⟨q, hwaits⟩ := hwaits
          rcases List.mem_append.mp hmem with hnew | hrest
          · exfalso
            unfold Frame.answer at hnew
            split at hnew <;> (try split at hnew) <;>
              simp only [List.mem_cons, List.not_mem_nil, or_false, reduceCtorEq] at hnew
            subst hnew
            exact hwaits
          · refine hkept (by simp [hstack, hrest]) (hawaits _ (by simpa using hrest))
              (thrownIn_notes_of_top hstack ?_)
            intro hret
            cases f <;> cases hret
            exact hwaits
      | @tick ctx stack op op' queues i hi hx =>
          obtain h | ⟨f, rest, q, h, hwaits, -⟩ := hcalling
          · cases h
            cases hi
          · cases h
            have hstack : (s.threads l.1).stack = f :: rest := by rw [hthread]
            rcases List.mem_cons.mp hmem with rfl | hrest
            · exact hwaits.elim
            · refine hkept (by simp [hstack, hrest]) (hawaits _ (by simpa using hrest))
                (thrownIn_notes_of_top hstack ?_)
              intro hret
              cases f <;> cases hret
              exact hwaits
      | @frame ctx ctx' f rest fs m' hf =>
          have hstack : (s.threads l.1).stack = f :: rest := by rw [hthread]
          have hret : f.tag ≠ .ret := by
            intro hret
            cases f <;> cases hret
            cases hf
          rcases List.mem_append.mp hmem with hnew | hrest
          · refine told_of_step hx hstack hf hnew fun q k pc₀ heq => ?_
            have hmem₀ : .scope q k pc₀ ∈ (s.threads l.1).stack := by simp [hstack, heq]
            exact hI hmem₀
          · exact hkept (by simp [hstack, hrest]) (hawaits _ (by simpa using hrest))
              (thrownIn_notes_of_top hstack hret)
    · have hmem : .scope p r pc ∈ (s.threads u).stack := hothers u hu ▸ hmem
      refine (hI hmem).kept hs hstep hmem (.inl hu) ?_
      rcases thrownIn_notes (s := s) (l := l) (r := r) with h | ⟨_, q, role, previous, rest, -, hstack⟩
      · exact h
      · have hclosure : .scope q r (.closure role previous) ∈ (s.threads l.1).stack := by simp [hstack]
        exact absurd ((caller_of_scope hs hmem).1.symm.trans (caller_of_scope hs hclosure).1) hu

/-! ## Where the frames of a report come from -/

section Before

variable {t : Tid} {c : Choice} {m m' : Mem} {r j x : Nat} {pc' : TaskPc} {th th' : Thread}

/-- The wrapper of a job was there before a step, is new, or comes from what it was before. -/
theorem ThreadStep.task_before (hs : ThreadStep t c m th m' th') (hmem : .task j pc' ∈ th'.stack)
    (hstart : pc' ≠ .start) :
    .task j pc' ∈ th.stack ∨
      (∃ o pc below, th.stack = .ret o :: .task j pc :: below ∧
        .task j pc' ∈ (Frame.task j pc).resume o) ∨
      ∃ pc below fs, th.stack = .task j pc :: below ∧ taskStep t m j pc = some (m', fs) ∧
        .task j pc' ∈ fs := by
  cases hs.of_mem hmem with
  | kept h => exact .inl (List.mem_of_mem_tail h)
  | waits _ _ h => exact .inl h
  | @resumed o f below hstack h =>
      obtain ⟨pc, rfl, -⟩ := Frame.resume_task h
      exact .inr (.inl ⟨o, pc, below, hstack, h⟩)
  | @called f rest q hstack h =>
      unfold Frame.call at h
      split at h <;> (try split at h) <;> cases h
  | @answered f rest res hstack h =>
      unfold Frame.answer at h
      split at h <;> (try split at h) <;>
        simp only [List.mem_cons, List.not_mem_nil, or_false, reduceCtorEq, Frame.task.injEq] at h
      all_goals
        first
          | exact absurd h.2 hstart
          | (subst h; exact .inl (by simp [hstack]))
  | @stepped f rest ctx' fs hstack hf _ h =>
      obtain ⟨pc, rfl, -⟩ := Frame.step_task hf h
      simp only [Frame.step, keep_eq] at hf
      exact .inr (.inr ⟨pc, rest, fs, hstack, hf.1, h⟩)

/-- A job that is about to look at the cell has just panicked. -/
theorem ThreadStep.recordTry_before (hs : ThreadStep t c m th m' th')
    (hmem : .task j (.recordTry r x) ∈ th'.stack) :
    .task j (.recordTry r x) ∈ th.stack ∨
      ∃ below, th.stack = .ret (.panic x) :: .task j (.scoped r) :: below := by
  obtain hold | ⟨o, pc, below, hstack, h⟩ | ⟨pc, below, fs, hstack, hstep, h⟩ :=
    hs.task_before hmem (by simp)
  · exact .inl hold
  · cases pc with
    | «scoped» r' =>
        cases o with
        | panic y =>
            simp only [Frame.resume, List.mem_singleton, Frame.task.injEq, TaskPc.recordTry.injEq] at h
            obtain ⟨-, rfl, rfl⟩ := h
            exact .inr ⟨below, hstack⟩
        | _ => simp [Frame.resume] at h
    | recordTry r' x' =>
        simp only [Frame.resume, List.mem_singleton, Frame.task.injEq] at h
        exact .inl (by simp [hstack, h.2])
    | _ => simp [Frame.resume] at h
  · cases pc <;> simp only [taskStep] at hstep <;> (try split at hstep) <;> cases hstep <;>
      simp at h

/-- A job that is about to store has looked at the cell. -/
theorem ThreadStep.record_before (hs : ThreadStep t c m th m' th')
    (hmem : .task j (.record r x) ∈ th'.stack) :
    .task j (.record r x) ∈ th.stack ∨ ∃ below, th.stack = .task j (.recordTry r x) :: below := by
  obtain hold | ⟨o, pc, below, hstack, h⟩ | ⟨pc, below, fs, hstack, hstep, h⟩ :=
    hs.task_before hmem (by simp)
  · exact .inl hold
  · cases pc with
    | «scoped» r' => cases o <;> simp [Frame.resume] at h
    | record r' x' =>
        simp only [Frame.resume, List.mem_singleton, Frame.task.injEq] at h
        exact .inl (by simp [hstack, h.2])
    | _ => simp [Frame.resume] at h
  · cases pc <;> simp only [taskStep] at hstep <;> (try split at hstep) <;> cases hstep <;>
      simp at h
    obtain ⟨rfl, rfl⟩ := h
    exact .inr ⟨below, hstack⟩

/-- A job that is about to unlock the cell has stored. -/
theorem ThreadStep.recordUnlock_before (hs : ThreadStep t c m th m' th')
    (hmem : .task j (.recordUnlock r) ∈ th'.stack) :
    .task j (.recordUnlock r) ∈ th.stack ∨
      (m'.scopes r).panic.val ≠ none ∧ ∃ x below, th.stack = .task j (.record r x) :: below := by
  obtain hold | ⟨o, pc, below, hstack, h⟩ | ⟨pc, below, fs, hstack, hstep, h⟩ :=
    hs.task_before hmem (by simp)
  · exact .inl hold
  · cases pc with
    | «scoped» r' => cases o <;> simp [Frame.resume] at h
    | recordUnlock r' =>
        simp only [Frame.resume, List.mem_singleton, Frame.task.injEq] at h
        exact .inl (by simp [hstack, h.2])
    | _ => simp [Frame.resume] at h
  · cases pc <;> simp only [taskStep] at hstep <;> (try split at hstep) <;> cases hstep <;>
      simp at h
    subst h
    exact .inr ⟨by simp, _, below, hstack⟩

end Before

/-! ## The cell of a scope -/

/-- A frame that has locked the cell of scope {lit}`r`. -/
def Frame.LocksCell (r : Nat) : Frame → Prop
  | .task _ (.record q _) | .task _ (.recordUnlock q) => q = r
  | .scope _ q (.takePanic _ _) | .scope _ q (.takeUnlock _ _ _) => q = r
  | _ => False

/-- Thread {lit}`t` is about to look at the cell of scope {lit}`r`, or to store in it. -/
def PoolState.Reporting (s : PoolState) (r : Nat) (t : Tid) : Prop :=
  ∃ j x, .task j (.recordTry r x) ∈ (s.threads t).stack ∨ .task j (.record r x) ∈ (s.threads t).stack

/-- What the jobs of a scope have thrown and what is in its cell. -/
structure CellOk (s : PoolState) (h : List PanicNote) (r : Nat) : Prop where
  known : ∀ j x, .job r j x ∈ h → s.mem.JobOf r j
  trying : ∀ t j x, .task j (.recordTry r x) ∈ (s.threads t).stack → .job r j x ∈ h
  recording : ∀ t j x, .task j (.record r x) ∈ (s.threads t).stack → .job r j x ∈ h
  real : ∀ x ∈ storedIn h r, ∃ j, .job r j x ∈ h
  once : (storedIn h r).length ≤ 1
  locked : ∀ t, (s.mem.scopes r).panic.locked = some t → ∃ f ∈ (s.threads t).stack, f.LocksCell r
  done : ∀ t j, .task j (.recordUnlock r) ∈ (s.threads t).stack → storedIn h r ≠ []
  lost : ∀ j x, .job r j x ∈ h → storedIn h r = [] → ∃ t, s.Reporting r t

section Cell

variable {s s' : PoolState} {h : List PanicNote} {l : Tid × Choice} {t u : Tid} {r j x : Nat}
  {f : Frame} {rest : List Frame}

/-- Who has locked a cell steps by itself. -/
theorem Frame.LocksCell.quiet (hf : f.LocksCell r) :
    f.awaits = false ∧ (∀ o, f ≠ .ret o) ∧ (∀ m ctx, f.call m ctx = none) ∧
      ∀ ctx q, ¬ f.Waits ctx q := by
  unfold Frame.LocksCell at hf
  split at hf <;>
    first | exact ⟨rfl, by simp, fun _ _ => rfl, fun _ _ h => h⟩ | cases hf

/-- A job that stores finds the cell as it was left. -/
theorem stored_of_record (hx : (poolMachine.noting panicNotes).Reachable (s, h))
    (hmem : .task j (.record r x) ∈ (s.threads t).stack) :
    storedIn h r = (s.mem.scopes r).panic.val.toList := by
  have hs := Machine.reachable_iff_noting.mpr ⟨h, hx⟩
  have hj := jobOf_of_task hs hmem rfl
  have hlive := ((busyOk hs).busy j).mp ⟨t, busy_of_task hmem rfl⟩
  obtain ⟨pc, hcall, hwaited, -⟩ := live_tickets_keep_the_call hs hj hlive.2.2
  have htold := calls_told hx hcall
  cases pc <;> simp_all [ScopePc.Told, ScopePc.waited]

/-- A job that stores leaves the cell full. -/
theorem stored_after_record (hx : (poolMachine.noting panicNotes).Reachable (s, h))
    (hstack : (s.threads l.1).stack = .task j (.record r x) :: rest) :
    storedIn (h ++ panicNotes s l) r ≠ [] := by
  have hmem : .task j (.record r x) ∈ (s.threads l.1).stack := by simp [hstack]
  rw [storedIn_append, stored_of_record hx hmem, storedIn_notes_of_record hstack]
  cases (s.mem.scopes r).panic.val <;> simp

/-- The result of a job's body reaches its wrapper. -/
theorem step_of_ret {o : Outcome} {g : Frame} (hs : poolMachine.Reachable s)
    (hstep : poolMachine.step s l = some s') (hstack : (s.threads l.1).stack = .ret o :: g :: rest) :
    (s'.threads l.1).stack = g.resume o ++ rest := by
  have hidle : (s.threads l.1).op = .idle := by
    rcases calling hs l.1 with h | ⟨f, rest', q, hstack', h, -⟩
    · exact h
    · rw [hstack] at hstack'
      cases hstack'
      exact h.elim
  have hlocal := (thread_step hstep).1
  generalize s.threads l.1 = th₀ at hstack hidle hlocal
  generalize s'.threads l.1 = th₁ at hlocal ⊢
  generalize s'.mem = m' at hlocal
  cases hlocal with
  | resume =>
      cases hstack
      rfl
  | call hc =>
      cases hstack
      cases hc
  | frame hf =>
      cases hstack
      cases hf
  | answer => cases hidle
  | tick hi =>
      cases hidle
      cases hi

/-- A frame that does not wait stays, unless it is what its thread steps. -/
theorem stays_or_steps (hs : poolMachine.Reachable s) (hstep : poolMachine.step s l = some s')
    (hmem : f ∈ (s.threads t).stack) (hf : f.awaits = false) :
    f ∈ (s'.threads t).stack ∨ t = l.1 ∧ ∃ rest, (s.threads l.1).stack = f :: rest := by
  by_cases ht : t = l.1
  · subst ht
    exact .inr ⟨rfl, top_of_not_awaits hs hmem hf⟩
  · rw [(thread_step hstep).2 t ht]
    exact .inl hmem

/-- Who has locked a cell has a frame that says so. -/
theorem locksCell_step (hs : poolMachine.Reachable s) (hstep : poolMachine.step s l = some s')
    (hlocked : (s.mem.scopes r).panic.locked = some t → ∃ f ∈ (s.threads t).stack, f.LocksCell r)
    (hlocked' : (s'.mem.scopes r).panic.locked = some t) :
    ∃ f ∈ (s'.threads t).stack, f.LocksCell r := by
  by_cases hold : (s.mem.scopes r).panic.locked = some t
  · obtain ⟨f, hmem, hf⟩ := hlocked hold
    rcases stays_or_steps hs hstep hmem hf.quiet.1 with hstays | ⟨rfl, rest, hstack⟩
    · exact ⟨f, hstays, hf⟩
    · obtain ⟨-, hret, hcall, hwaits⟩ := hf.quiet
      obtain ⟨ctx', fs, hfs, hstack'⟩ := step_of_top hs hstep hstack hret hcall hwaits
      unfold Frame.LocksCell at hf
      split at hf
      · subst hf
        simp only [Frame.step, keep_eq, taskStep, Option.some.injEq, Prod.mk.injEq] at hfs
        obtain ⟨⟨-, rfl⟩, -⟩ := hfs
        rw [hstack']
        exact ⟨_, List.mem_append_left _ (List.mem_singleton.mpr rfl), rfl⟩
      · subst hf
        simp only [Frame.step, keep_eq, taskStep, Option.some.injEq, Prod.mk.injEq] at hfs
        rw [← hfs.1.1] at hlocked'
        simp at hlocked'
      · subst hf
        simp only [Frame.step, scopeStep, Option.some.injEq, Prod.mk.injEq] at hfs
        obtain ⟨-, -, rfl⟩ := hfs
        rw [hstack']
        exact ⟨_, List.mem_append_left _ (List.mem_singleton.mpr rfl), rfl⟩
      · subst hf
        simp only [Frame.step, scopeStep, Option.some.injEq, Prod.mk.injEq] at hfs
        rw [← hfs.1] at hlocked'
        simp at hlocked'
      · cases hf
  · rcases (thread_step hstep).1.scope r with heq | ⟨f, rest, fs, ctx', hstack, hstack', hfs, hscope⟩
    · rw [heq] at hlocked'
      exact absurd hlocked' hold
    · generalize hnew : s'.mem.scopes r = scope' at hscope hlocked'
      cases hscope with
      | locked hf hfree =>
          obtain rfl : l.1 = t := by simpa using hlocked'
          rcases hf with ⟨j, x, rfl⟩ | ⟨p, role, o, rfl⟩
          · simp only [Frame.step, keep_eq, taskStep, hfree, Option.some.injEq, Prod.mk.injEq] at hfs
            obtain ⟨⟨-, rfl⟩, -⟩ := hfs
            rw [hstack']
            exact ⟨_, List.mem_append_left _ (List.mem_singleton.mpr rfl), rfl⟩
          · simp only [Frame.step, scopeStep, hfree, Option.some.injEq, Prod.mk.injEq] at hfs
            obtain ⟨-, -, rfl⟩ := hfs
            rw [hstack']
            exact ⟨_, List.mem_append_left _ (List.mem_singleton.mpr rfl), rfl⟩
      | fresh => cases hlocked'
      | unlocked => cases hlocked'
      | _ => exact absurd hlocked' hold

/-- A job that finds the cell locked gives up only if another one stores, or has stored. -/
theorem CellOk.contended (hok : CellOk s h r) (hx : (poolMachine.noting panicNotes).Reachable (s, h))
    (hstep : poolMachine.step s l = some s')
    (hstack : (s.threads l.1).stack = .task j (.recordTry r x) :: rest) (hnone : storedIn h r = []) :
    ∃ t, s'.Reporting r t := by
  have hs := Machine.reachable_iff_noting.mpr ⟨h, hx⟩
  have hmem : .task j (.recordTry r x) ∈ (s.threads l.1).stack := by simp [hstack]
  obtain ⟨ctx', fs, hfs, hstack'⟩ := step_of_top hs hstep hstack (by simp) (fun _ _ => rfl) (fun _ _ h => h)
  simp only [Frame.step, keep_eq, taskStep] at hfs
  cases hlocked : (s.mem.scopes r).panic.locked with
  | none =>
      simp only [hlocked, Option.some.injEq, Prod.mk.injEq] at hfs
      obtain ⟨⟨-, rfl⟩, -⟩ := hfs
      exact ⟨l.1, j, x, .inr (by simp [hstack'])⟩
  | some u =>
      obtain ⟨f, hf, hlocks⟩ := hok.locked u hlocked
      rcases stays_or_steps hs hstep hf hlocks.quiet.1 with hstays | ⟨rfl, rest', htop⟩
      · unfold Frame.LocksCell at hlocks
        split at hlocks
        · subst hlocks
          exact ⟨u, _, _, .inr hstays⟩
        · subst hlocks
          exact absurd hnone (hok.done _ _ hf)
        · subst hlocks
          cases not_waited_of_task hs hmem rfl hf
        · subst hlocks
          cases not_waited_of_task hs hmem rfl hf
        · cases hlocks
      · rw [hstack] at htop
        cases htop
        cases hlocks

/-- What is thrown is not lost in a step. -/
theorem CellOk.lost_step (hok : CellOk s h r) (hx : (poolMachine.noting panicNotes).Reachable (s, h))
    (hstep : poolMachine.step s l = some s') (hmem : .job r j x ∈ h ++ panicNotes s l)
    (hnone : storedIn (h ++ panicNotes s l) r = []) : ∃ t, s'.Reporting r t := by
  have hs := Machine.reachable_iff_noting.mpr ⟨h, hx⟩
  have hold : storedIn h r = [] := by
    rw [storedIn_append] at hnone
    exact (List.append_eq_nil_iff.mp hnone).1
  rcases List.mem_append.mp hmem with hmem | hmem
  · obtain ⟨t, k, y, htry | hrecord⟩ := hok.lost j x hmem hold
    · rcases stays_or_steps hs hstep htry rfl with hstays | ⟨rfl, rest, hstack⟩
      · exact ⟨t, k, y, .inl hstays⟩
      · exact hok.contended hx hstep hstack hold
    · rcases stays_or_steps hs hstep hrecord rfl with hstays | ⟨rfl, rest, hstack⟩
      · exact ⟨t, k, y, .inr hstays⟩
      · exact absurd hnone (stored_after_record hx hstack)
  · obtain ⟨rest, hstack⟩ := job_mem_notes.mp hmem
    exact ⟨l.1, j, x, .inl (by simp [step_of_ret hs hstep hstack, Frame.resume])⟩

end Cell

/-- Every payload in a cell is that of a job, and no panic is lost. -/
theorem panicCells {x : PoolState × List PanicNote}
    (hx : (poolMachine.noting panicNotes).Reachable x) (r : Nat) : CellOk x.1 x.2 r := by
  refine Machine.Reachable.invariant (I := fun x : PoolState × List PanicNote =>
    CellOk x.1 x.2 r) ?_ ?_ hx
  · rintro ⟨s, h⟩ ⟨rfl, rfl⟩
    have hstart : ∀ {t : Tid} {j : Nat} {pc : TaskPc}, .task j pc ∉ (Thread.initial t).stack := by
      rintro (e | ⟨p, i⟩) j pc hmem <;> simp [Thread.initial] at hmem
    constructor
    case trying | recording => exact fun t j y hmem => absurd hmem hstart
    case done => exact fun t j hmem => absurd hmem hstart
    case locked => exact fun t hlocked => by cases hlocked
    case once => exact Nat.zero_le 1
    all_goals simp [storedIn]
  · rintro ⟨s, h⟩ l ⟨s', h'⟩ hx hok hstep
    obtain ⟨hstep, rfl⟩ := Machine.noting_step.mp hstep
    dsimp only at hok hstep ⊢
    have hs := Machine.reachable_iff_noting.mpr ⟨h, hx⟩
    obtain ⟨hlocal, hothers⟩ := thread_step hstep
    have hkeeps : ∀ {n : PanicNote}, n ∈ h → n ∈ h ++ panicNotes s l := fun hn =>
      List.mem_append_left _ hn
    constructor
    case known =>
      intro j y hmem
      rcases List.mem_append.mp hmem with hmem | hmem
      · exact (hok.known j y hmem).step hs hstep
      · obtain ⟨rest, hstack⟩ := job_mem_notes.mp hmem
        have hin : .task j (.scoped r) ∈ (s.threads l.1).stack := by simp [hstack]
        exact (jobOf_of_task hs hin rfl).step hs hstep
    case trying =>
      intro t j y hmem
      by_cases ht : t = l.1
      · subst ht
        rcases hlocal.recordTry_before hmem with hold | ⟨below, hstack⟩
        · exact hkeeps (hok.trying l.1 j y hold)
        · exact List.mem_append_right _ (job_mem_notes.mpr ⟨below, hstack⟩)
      · rw [hothers t ht] at hmem
        exact hkeeps (hok.trying t j y hmem)
    case recording =>
      intro t j y hmem
      by_cases ht : t = l.1
      · subst ht
        rcases hlocal.record_before hmem with hold | ⟨below, hstack⟩
        · exact hkeeps (hok.recording l.1 j y hold)
        · exact hkeeps (hok.trying l.1 j y (by simp [hstack]))
      · rw [hothers t ht] at hmem
        exact hkeeps (hok.recording t j y hmem)
    case real =>
      intro y hmem
      rw [storedIn_append] at hmem
      rcases List.mem_append.mp hmem with hmem | hmem
      · obtain ⟨j, hj⟩ := hok.real y hmem
        exact ⟨j, hkeeps hj⟩
      · rcases storedIn_notes (s := s) (l := l) (r := r) with hnone | ⟨z, j, rest, hz, -, hstack⟩
        · rw [hnone] at hmem
          cases hmem
        · rw [hz, List.mem_singleton] at hmem
          subst hmem
          exact ⟨j, hkeeps (hok.recording l.1 j y (by simp [hstack]))⟩
    case once =>
      rw [storedIn_append]
      rcases storedIn_notes (s := s) (l := l) (r := r) with hnone | ⟨z, j, rest, hz, hval, hstack⟩
      · rw [hnone, List.append_nil]
        exact hok.once
      · have hold := stored_of_record (t := l.1) (j := j) (x := z) (r := r) hx (by simp [hstack])
        rw [hz, hold, hval]
        rfl
    case locked => exact fun t => locksCell_step hs hstep (hok.locked t)
    case done =>
      intro t j hmem
      by_cases ht : t = l.1
      · subst ht
        rcases hlocal.recordUnlock_before hmem with hold | ⟨-, y, below, hstack⟩
        · simp [hok.done l.1 j hold]
        · exact stored_after_record hx hstack
      · rw [hothers t ht] at hmem
        simp [hok.done t j hmem]
    case lost => exact fun j y hmem hnone => hok.lost_step hx hstep hmem hnone

/-! ## How a scope ends -/

/-- The call has looked into the cell. -/
def ScopePc.taken : ScopePc → Bool
  | .takeUnlock _ _ _ | .matchOutcome _ _ _ | .dropHelper _ _ | .dropHostOwner _ _ => true
  | _ => false

section Ends

variable {s s' : PoolState} {h h' : List PanicNote} {t : Tid} {p r x : Nat} {pc : ScopePc}
  {ls : List (Tid × Choice)}

theorem closure_mem : .closure r x ∈ h ↔ x ∈ thrownIn h r := by
  simp only [thrownIn, List.mem_filterMap]
  refine ⟨fun hmem => ⟨_, hmem, by simp [PanicNote.thrownIn]⟩, ?_⟩
  rintro ⟨n, hmem, hn⟩
  cases n <;> simp only [PanicNote.thrownIn, reduceCtorEq, Option.ite_none_right_eq_some,
    Option.some.injEq] at hn
  obtain ⟨rfl, rfl⟩ := hn
  exact hmem

theorem thrownIn_eq_nil : thrownIn h r = [] ↔ ∀ x, .closure r x ∉ h := by
  rw [List.eq_nil_iff_forall_not_mem]
  exact forall_congr' fun x => not_congr closure_mem.symm

theorem stored_mem : .stored r x ∈ h ↔ x ∈ storedIn h r := by
  simp only [storedIn, List.mem_filterMap]
  refine ⟨fun hmem => ⟨_, hmem, by simp [PanicNote.storedIn]⟩, ?_⟩
  rintro ⟨n, hmem, hn⟩
  cases n <;> simp only [PanicNote.storedIn, reduceCtorEq, Option.ite_none_right_eq_some,
    Option.some.injEq] at hn
  obtain ⟨rfl, rfl⟩ := hn
  exact hmem

/-- Until the call looks, what was stored lies in the cell. -/
theorem stored_of_untaken (hx : (poolMachine.noting panicNotes).Reachable (s, h))
    (hcall : .scope p r pc ∈ (s.threads t).stack) (hpc : pc.taken = false) :
    storedIn h r = (s.mem.scopes r).panic.val.toList := by
  have htold := calls_told hx hcall
  cases pc <;> simp_all [ScopePc.Told, ScopePc.taken]

/-- What was noted stays noted. -/
theorem notes_of_run (hx : (poolMachine.noting panicNotes).Reachable (s, h))
    (hrun : (poolMachine.noting panicNotes).run (s, h) ls = some (s', h')) : ∃ es, h' = h ++ es := by
  refine Machine.run_invariant (I := fun x : PoolState × List PanicNote => ∃ es, x.2 = h ++ es) ?_ hx
    ⟨[], by simp⟩ hrun
  rintro ⟨s₁, h₁⟩ l ⟨s₂, h₂⟩ - ⟨es, hes⟩ hstep
  obtain ⟨-, hnotes⟩ := Machine.noting_step.mp hstep
  exact ⟨es ++ panicNotes s₁ l, by rw [hnotes, hes, List.append_assoc]⟩

/-- When no job has its ticket, every panic of a job has left a payload. -/
theorem stored_of_no_tickets (hx : (poolMachine.noting panicNotes).Reachable (s, h))
    (htickets : (s.mem.scopes r).tickets = []) :
    storedIn h r ≠ [] ↔ ∃ j x, .job r j x ∈ h := by
  have hs := Machine.reachable_iff_noting.mpr ⟨h, hx⟩
  have hok := panicCells hx r
  constructor
  · intro hne
    obtain ⟨x, hx⟩ := List.exists_mem_of_ne_nil _ hne
    obtain ⟨j, hj⟩ := hok.real x hx
    exact ⟨j, x, hj⟩
  · rintro ⟨j, x, hj⟩ hnone
    obtain ⟨u, k, y, htask | htask⟩ := hok.lost j x hj hnone
    · simpa [htickets] using (ticket_of_task hs htask rfl).1
    · simpa [htickets] using (ticket_of_task hs htask rfl).1

/-- Until the call of a scope without tickets looks, its cell is full exactly if a job has
panicked. -/
theorem full_iff_panicked (hx : (poolMachine.noting panicNotes).Reachable (s, h))
    (hcall : .scope p r pc ∈ (s.threads t).stack) (hpc : pc.taken = false)
    (htickets : (s.mem.scopes r).tickets = []) :
    (s.mem.scopes r).panic.val ≠ none ↔ ∃ j x, .job r j x ∈ h := by
  rw [← stored_of_no_tickets hx htickets, stored_of_untaken hx hcall hpc]
  cases (s.mem.scopes r).panic.val <;> simp

/-- What lies in a cell is the payload of a job, and is the only one that is ever stored there. -/
theorem stored_payload (hx : (poolMachine.noting panicNotes).Reachable (s, h))
    (hcall : .scope p r pc ∈ (s.threads t).stack) (hpc : pc.taken = false)
    (hval : (s.mem.scopes r).panic.val = some x) :
    (∃ j, s.mem.JobOf r j ∧ .job r j x ∈ h) ∧ storedIn h r = [x] := by
  have hok := panicCells hx r
  have hstored : storedIn h r = [x] := by
    rw [stored_of_untaken hx hcall hpc, hval]
    rfl
  obtain ⟨j, hj⟩ := hok.real x (by simp [hstored])
  exact ⟨⟨j, hok.known j x hj, hj⟩, hstored⟩

/-- Nothing is stored in a cell a second time. -/
theorem stored_stays (hx : (poolMachine.noting panicNotes).Reachable (s, h))
    (hrun : (poolMachine.noting panicNotes).run (s, h) ls = some (s', h'))
    (hstored : storedIn h r = [x]) : storedIn h' r = [x] := by
  obtain ⟨es, rfl⟩ := notes_of_run hx hrun
  have honce : (storedIn (h ++ es) r).length ≤ 1 := (panicCells (hx.run hrun) r).once
  rw [storedIn_append, hstored] at honce ⊢
  simpa using honce

/-- The one payload of a list that has no more. -/
theorem eq_singleton_of_mem {xs : List Nat} (hlen : xs.length ≤ 1) (hmem : x ∈ xs) : xs = [x] := by
  cases xs with
  | nil => cases hmem
  | cons y ys =>
      obtain rfl : ys = [] := List.eq_nil_of_length_eq_zero (by simpa using hlen)
      rw [List.mem_singleton.mp hmem]

/-- A call comes to what its closure has thrown, or else to what a job has stored. -/
theorem call_reports {role : Role} {result : Outcome}
    (hx : (poolMachine.noting panicNotes).Reachable (s, h))
    (hcall : .scope p r (.dropHostOwner role result) ∈ (s.threads t).stack) :
    (∀ x, .closure r x ∈ h → result = .panic x) ∧
      ((∀ x, .closure r x ∉ h) → ∀ x, .stored r x ∈ h → result = .panic x) ∧
      ((∃ x, .stored r x ∈ h) ↔ ∃ j x, .job r j x ∈ h) ∧
      (result = .unit ↔ (∀ x, .closure r x ∉ h) ∧ ∀ j x, .job r j x ∉ h) := by
  have hs := Machine.reachable_iff_noting.mpr ⟨h, hx⟩
  obtain ⟨hthrown, hstored, hresult⟩ := calls_told hx hcall
  dsimp only at hthrown hstored hresult
  obtain ⟨_, _, _, hdrained, -⟩ := (drained hs t).of_mem hcall
  have hjobs := stored_of_no_tickets hx (hdrained rfl)
  refine ⟨fun x hmem => ?_, fun hnone x hmem => ?_, ?_, ?_⟩
  · rw [hresult, eq_singleton_of_mem hthrown (closure_mem.mp hmem)]
    rfl
  · rw [hresult, thrownIn_eq_nil.mpr hnone, eq_singleton_of_mem hstored (stored_mem.mp hmem)]
    rfl
  · rw [← hjobs]
    constructor
    · rintro ⟨x, hmem⟩
      exact List.ne_nil_of_mem (stored_mem.mp hmem)
    · intro hne
      obtain ⟨x, hmem⟩ := List.exists_mem_of_ne_nil _ hne
      exact ⟨x, stored_mem.mpr hmem⟩
  · rw [hresult, Outcome.ofPayloads_eq_unit, List.append_eq_nil_iff, thrownIn_eq_nil]
    refine and_congr_right fun _ => ?_
    rw [← not_iff_not, ← ne_eq, hjobs]
    simp

/-- The last step of a call gives its result. -/
theorem call_ends {role : Role} {result : Outcome} {c : Choice} (hs : poolMachine.Reachable s)
    (hcall : .scope p r (.dropHostOwner role result) ∈ (s.threads t).stack)
    (hstep : poolMachine.step s (t, c) = some s') :
    ∃ rest, (s.threads t).stack = .scope p r (.dropHostOwner role result) :: rest ∧
      (s'.threads t).stack = .ret result :: rest := by
  obtain ⟨rest, hstack⟩ := top_of_not_awaits hs hcall rfl
  obtain ⟨ctx', fs, hfs, hstack'⟩ := step_of_top hs hstep hstack (by simp) (fun _ _ => rfl)
    (fun _ _ h => h)
  refine ⟨rest, hstack, ?_⟩
  simp only [Frame.step, scopeStep] at hfs
  split at hfs <;> rw [Option.some.injEq, Prod.mk.injEq, Prod.mk.injEq] at hfs <;>
    obtain ⟨-, -, rfl⟩ := hfs <;> exact hstack'

end Ends

/-- A job is spawned in a scope and panics, and the caller has waited for it. -/
def panickedScope : List (Tid × Choice) :=
  openedScope ++ List.replicate 3 (.ext 0, .go) ++ [(.ext 0, .user (.spawn 0))] ++
    List.replicate 14 (.ext 0, .go) ++ [(.ext 0, .user .finish)] ++ List.replicate 11 (.ext 0, .go) ++
    [(.ext 0, .user (.panic 5))] ++ List.replicate 9 (.ext 0, .go)

/-- The caller has also looked into the cell. -/
def unwindingScope : List (Tid × Choice) := panickedScope ++ List.replicate 6 (.ext 0, .go)

end XynokConcurrency
