import XynokConcurrency.ThreadPool.Tickets

/-!
# The closures of the jobs

The user's closure of a job is entered once at most, and it is gone once it has been run or
dropped.  Here is every step that enters one or does away with one, and what it means for the
jobs of a scope.

Main results:

- Theorem {lit}`Frame.step_body`: every step that touches the closure of a job.
- Theorem {lit}`bodies`: a job of a scope that was started has run once, has not been looked at
  yet, or found its scope canceled.
- Theorem {lit}`busy_of_body`: where the closure of a scope's job runs, its ticket is live.
- Theorem {lit}`started_jobs_have_one_runner`: a job under way is on one stack, in one place.

Source: {lit}`thread_pool/scope.rs`, {lit}`thread_pool/worker.rs`.
-/

namespace XynokConcurrency

/-- What a step of frame {lit}`f` can do to the closure of job {lit}`j`. -/
inductive BodyStep (m : Mem) (f : Frame) (fs : List Frame) (j : Nat) (job job' : Job) : Prop
  | same (hruns : job'.runs = job.runs) (hcaptures : job'.captures = job.captures)
  | fresh (hf : (∃ u, f = .user u) ∨ ∃ r, f.Makes r) (hj : j = m.nextJob) (home : Home)
      (hjob : job' = .fresh home)
  | entered (hf : f = .task j .start ∧ (∃ p, job.home = .pool p) ∨
        ∃ s, f = .task j (.isCanceled s) ∧ (m.scopes s).latch.canceled = false ∧
          fs = [.user (.body j), .task j (.scoped s)])
      (hruns : job'.runs = job.runs + 1) (hcaptures : job'.captures = job.captures)
  | gone (hf : f = .user (.body j) ∨ f = .task j .dropEnv ∨ ∃ js, f = .dropEnv j js)
      (hruns : job'.runs = job.runs) (hcaptures : job'.captures = false)

section Steps

variable {t : Tid} {c : Choice} {m m₁ m' : Mem} {ctx ctx' : Context} {f : Frame} {fs : List Frame}
  {r j k : Nat}

/-- A step that changes one job. -/
theorem BodyStep.modJob {change : Job → Job} (hjobs : m₁.jobs = m.jobs)
    (h : BodyStep m f fs k (m.jobs k) (change (m.jobs k))) :
    BodyStep m f fs j (m.jobs j) ((m₁.modJob k change).jobs j) := by
  rw [Mem.modJob_jobs, hjobs]
  rcases eq_or_ne j k with rfl | hj
  · simpa using h
  · simpa [hj] using .same rfl rfl

/-- A step that makes a job. -/
theorem BodyStep.made {home : Home} (hf : (∃ u, f = .user u) ∨ ∃ r, f.Makes r)
    (hjobs : m'.jobs = Function.update m.jobs m.nextJob (.fresh home)) :
    BodyStep m f fs j (m.jobs j) (m'.jobs j) := by
  rw [hjobs]
  rcases eq_or_ne j m.nextJob with rfl | hj
  · exact .fresh hf rfl home (by simp)
  · simpa [hj] using .same rfl rfl

/-- User code. -/
theorem userStep_body {u : UserCode} {a : UserAct} (hs : userStep t m u a = some (m', fs)) :
    BodyStep m (.user u) fs j (m.jobs j) (m'.jobs j) := by
  obtain ⟨o, h⟩ | ⟨fs', h, rfl⟩ := userStep_cases hs
  · unfold userEnd at h
    (repeat' split at h) <;> cases h <;>
      first
        | exact .same rfl rfl
        | exact .modJob rfl (.gone (.inl rfl) rfl rfl)
  · cases a <;> simp only [userCall, enterScope] at h <;> (try split at h) <;> cases h <;>
      first
        | exact .same rfl rfl
        | exact .made (.inl ⟨u, rfl⟩) rfl

/-- Every step that touches the closure of a job. -/
theorem Frame.step_body (hs : f.step t c m ctx = some (m', ctx', fs)) (j : Nat) :
    BodyStep m f fs j (m.jobs j) (m'.jobs j) := by
  cases f <;> simp only [Frame.step, keep_eq, keepMem_eq] at hs
  case user u =>
    split at hs
    · exact userStep_body (keep_eq.mp hs).1
    · cases hs
  case callDone => cases hs; exact .same rfl rfl
  case spawnDone => cases hs; exact .same rfl rfl
  case wake pc =>
    obtain ⟨hs, rfl⟩ := hs
    cases pc <;> simp only [wakeStep] at hs <;> (try split at hs) <;> cases hs <;>
      first
        | exact .same rfl rfl
        | exact .modJob rfl (.same rfl rfl)
  case spawn p s pc =>
    obtain ⟨hs, rfl⟩ := hs
    cases pc <;> simp only [spawnStep] at hs <;> (try split at hs) <;> cases hs
    · exact .made (.inr ⟨s, rfl⟩) rfl
    · exact .same rfl rfl
  case scope p s pc =>
    cases pc <;> simp only [scopeStep] at hs <;> (repeat' split at hs) <;> cases hs <;>
      exact .same rfl rfl
  case runUntil => obtain ⟨-, rfl, rfl⟩ := hs; exact .same rfl rfl
  case steal => obtain ⟨-, rfl, rfl⟩ := hs; exact .same rfl rfl
  case task k pc =>
    obtain ⟨hs, rfl⟩ := hs
    cases pc <;> simp only [taskStep] at hs <;> (try split at hs) <;> cases hs <;>
      first
        | exact .same rfl rfl
        | exact .modJob rfl (.entered (.inl ⟨rfl, _, ‹_›⟩) rfl rfl)
        | exact .modJob rfl (.entered (.inr ⟨_, rfl, Bool.eq_false_of_not_eq_true ‹_›, rfl⟩) rfl rfl)
        | exact .modJob rfl (.gone (.inr (.inl rfl)) rfl rfl)
        | exact .modJob rfl (.same rfl rfl)
  case batch => obtain ⟨-, rfl, rfl⟩ := hs; exact .same rfl rfl
  case inboxes pc =>
    obtain ⟨hs, rfl⟩ := hs
    cases pc <;> simp only [inboxesStep] at hs <;> (try split at hs) <;> cases hs <;> exact .same rfl rfl
  case assign p s caller index pc =>
    obtain ⟨hs, rfl⟩ := hs
    cases pc <;> simp only [assignStep] at hs <;> cases hs <;>
      first
        | exact .same rfl rfl
        | exact .made (.inr ⟨s, rfl⟩) rfl
  case publish pc =>
    obtain ⟨hs, rfl⟩ := hs
    rcases pc with _ | _ | ⟨kept, _ | ⟨i, rest'⟩⟩ | _ | _ | _ <;>
      simp only [publishStep] at hs <;> (try split at hs) <;> cases hs <;> exact .same rfl rfl
  case loop pc =>
    cases pc <;> simp only [loopStep] at hs <;> (try split at hs) <;> cases hs <;> exact .same rfl rfl
  case sleep pc =>
    obtain ⟨hs, rfl⟩ := hs
    cases pc <;> simp only [sleepStep] at hs <;> (repeat' split at hs) <;> cases hs <;>
      exact .same rfl rfl
  case newPool q pc =>
    obtain ⟨hs, rfl⟩ := hs
    cases pc <;> simp only [newPoolStep] at hs <;> (repeat' split at hs) <;> cases hs <;>
      exact .same rfl rfl
  case shutdown q handles count pc =>
    obtain ⟨hs, rfl⟩ := hs
    cases pc <;> simp only [shutdownStep] at hs <;> (repeat' split at hs) <;> cases hs <;>
      exact .same rfl rfl
  case dropPool pc =>
    obtain ⟨hs, rfl⟩ := hs
    cases pc <;> simp only [dropPoolStep] at hs <;> cases hs <;> exact .same rfl rfl
  case dropJobs js =>
    obtain ⟨hs, rfl⟩ := hs
    cases js with
    | nil => cases hs; exact .same rfl rfl
    | cons k js =>
        simp only [dropJobsStep] at hs
        cases hs
        rcases eq_or_ne j k with rfl | hj
        · refine .same ?_ ?_ <;> split <;> simp
        · refine .same ?_ ?_ <;> split <;> simp [hj]
  case dropEnv k js =>
    cases hs
    exact .modJob rfl (.gone (.inr (.inr ⟨js, rfl⟩)) rfl rfl)
  all_goals cases hs

/-- Every step of a thread that touches the closure of a job. -/
theorem ThreadStep.body {th th' : Thread} (hs : ThreadStep t c m th m' th') (j : Nat) :
    ((m'.jobs j).runs = (m.jobs j).runs ∧ (m'.jobs j).captures = (m.jobs j).captures) ∨
      ∃ f rest fs ctx', th.stack = f :: rest ∧ th'.stack = fs ++ rest ∧
        f.step t c m th.ctx = some (m', ctx', fs) ∧ BodyStep m f fs j (m.jobs j) (m'.jobs j) := by
  cases hs with
  | @frame ctx ctx' f rest fs m' h => exact .inr ⟨f, rest, fs, ctx', rfl, rfl, h, Frame.step_body h j⟩
  | tick =>
      refine .inl ?_
      simp only [trackOrigins]
      (repeat' split) <;> exact ⟨rfl, rfl⟩
  | _ => exact .inl ⟨rfl, rfl⟩

end Steps

/-! ## The jobs of a scope -/

section Bodies

variable {s s' : PoolState} {t u : Tid} {l : Tid × Choice} {pc pc' : TaskPc} {r j : Nat}

/-- The wrapper of a job that holds the job's ticket runs it. -/
theorem busy_of_task (hmem : .task j pc ∈ (s.threads t).stack) (hpc : pc.scope = some r) :
    j ∈ s.busy t := by
  refine List.mem_flatMap.mpr ⟨_, hmem, ?_⟩
  cases pc <;> simp_all [Frame.runs, TaskPc.scope]

/-- One thread runs the wrapper of a job with its ticket, at one program point. -/
theorem task_unique (hs : poolMachine.Reachable s) (hmem : .task j pc ∈ (s.threads t).stack)
    (hmem' : .task j pc' ∈ (s.threads u).stack) (hpc : pc.scope = some r) (hpc' : pc'.scope = some r) :
    t = u ∧ pc = pc' := by
  obtain rfl : t = u := (busyOk hs).once.apart (busy_of_task hmem hpc) (busy_of_task hmem' hpc')
  refine ⟨rfl, ?_⟩
  have hnodup : ((s.threads t).stack.flatMap Frame.runs).Nodup := (busyOk hs).once.nodup t
  have hruns : ∀ {pc : TaskPc}, pc.scope = some r → j ∈ (Frame.task j pc).runs := by
    intro pc h
    cases pc <;> simp_all [Frame.runs, TaskPc.scope]
  generalize (s.threads t).stack = stack at hmem hmem' hnodup
  induction stack with
  | nil => cases hmem
  | cons f rest ih =>
      rw [List.flatMap_cons, List.nodup_append'] at hnodup
      obtain ⟨-, hrest, hapart⟩ := hnodup
      rcases List.mem_cons.mp hmem with rfl | h <;> rcases List.mem_cons.mp hmem' with h' | h'
      · cases h'
        rfl
      · exact (hapart (hruns hpc) (List.mem_flatMap.mpr ⟨_, h', hruns hpc'⟩)).elim
      · subst h'
        exact (hapart (hruns hpc') (List.mem_flatMap.mpr ⟨_, h, hruns hpc⟩)).elim
      · exact ih h h' hrest

/-- Where the closure of a scope's job runs, its wrapper waits for it. -/
theorem task_of_body (hs : poolMachine.Reachable s) (hj : s.mem.JobOf r j)
    (hmem : .user (.body j) ∈ (s.threads t).stack) :
    .task j (.scoped r) ∈ (s.threads t).stack := by
  obtain ⟨above, rest, hstack, hon, -⟩ := (linked hs t).of_mem hmem
  cases rest with
  | nil => exact hon.elim
  | cons g below =>
      have hg : g ∈ (s.threads t).stack := by simp [hstack]
      rcases hon with rfl | ⟨k, rfl⟩
      · obtain ⟨-, p, hp⟩ := (taskOk hs hg).plain rfl
        rw [hj.2] at hp
        cases hp
      · have hk := jobOf_of_task hs hg rfl
        rw [Mem.JobOf, hj.2, Home.scope.injEq] at hk
        exact hk.2 ▸ hg

/-- Where the closure of a scope's job runs, its ticket is live. -/
theorem busy_of_body (hs : poolMachine.Reachable s) (hj : s.mem.JobOf r j)
    (hmem : .user (.body j) ∈ (s.threads t).stack) : j ∈ s.busy t :=
  busy_of_task (task_of_body hs hj hmem) rfl

end Bodies

/-- How often the closure of a scope's job was entered. -/
structure PoolState.BodyOk (s : PoolState) (r j : Nat) : Prop where
  idle : (s.mem.jobs j).starts = 0 → (s.mem.jobs j).runs = 0
  checking : ∀ t, .task j (.isCanceled r) ∈ (s.threads t).stack → (s.mem.jobs j).runs = 0
  bound : (s.mem.jobs j).runs ≤ 1
  started : (s.mem.jobs j).starts = 1 →
    (s.mem.jobs j).runs = 1 ∨ (∃ t, .task j (.isCanceled r) ∈ (s.threads t).stack) ∨
      (s.mem.scopes r).latch.canceled = true

section BodyOk

variable {s s' : PoolState} {t u : Tid} {l : Tid × Choice} {r j : Nat}

/-- A canceled scope stays so. -/
theorem canceled_stays (hstep : poolMachine.step s l = some s') (hr : r < s.mem.nextScope)
    (h : (s.mem.scopes r).latch.canceled = true) : (s'.mem.scopes r).latch.canceled = true := by
  rcases (thread_step hstep).1.scope r with heq | ⟨f, rest, fs, ctx', -, -, -, hscope⟩
  · rw [heq]
    exact h
  · generalize s'.mem.scopes r = scope' at hscope ⊢
    cases hscope with
    | fresh _ heq => exact absurd heq hr.ne
    | canceled => rfl
    | _ => exact h

/-- A wrapper that is about to look at the cancel flag did so before, or has just begun. -/
theorem isCanceled_before (hstep : poolMachine.step s l = some s')
    (hmem : .task j (.isCanceled r) ∈ (s'.threads t).stack) :
    .task j (.isCanceled r) ∈ (s.threads t).stack ∨ .task j .start ∈ (s.threads t).stack := by
  obtain ⟨hlocal, hothers⟩ := thread_step hstep
  by_cases ht : t = l.1
  · subst ht
    cases hlocal.of_mem hmem with
    | kept h => exact .inl (List.mem_of_mem_tail h)
    | waits _ _ h => exact .inl h
    | resumed hstack h =>
        obtain ⟨pc', rfl, -, hpc⟩ := Frame.resume_task h
        exact .inl (by simp [hstack, hpc (.inr ⟨r, rfl⟩)])
    | @called f rest q hstack h =>
        unfold Frame.call at h
        split at h <;> (try split at h) <;> cases h
    | @answered f rest res hstack h =>
        unfold Frame.answer at h
        split at h <;> (try split at h) <;>
          simp only [List.mem_cons, List.not_mem_nil, or_false, reduceCtorEq, Frame.task.injEq,
            and_false] at h
        exact .inl (by simp [hstack, h])
    | @stepped f rest ctx' fs hstack hf _ h =>
        obtain ⟨pc', rfl, ⟨-, -, hne⟩ | heq | ⟨rfl, -⟩⟩ := Frame.step_task hf h
        · exact absurd rfl (hne r)
        · cases heq
        · exact .inr (by simp [hstack])
  · rw [hothers t ht] at hmem
    exact .inl hmem

/-- A wrapper that is about to look at the cancel flag stays, or steps. -/
theorem isCanceled_after (hs : poolMachine.Reachable s) (hstep : poolMachine.step s l = some s')
    (hmem : .task j (.isCanceled r) ∈ (s.threads t).stack) :
    .task j (.isCanceled r) ∈ (s'.threads t).stack ∨ (s.mem.scopes r).latch.canceled = true ∨
      (s'.mem.jobs j).runs = (s.mem.jobs j).runs + 1 := by
  by_cases ht : t = l.1
  · subst ht
    obtain ⟨rest, hstack⟩ := top_of_not_awaits hs hmem rfl
    obtain ⟨ctx', fs, h, -⟩ := step_of_top hs hstep hstack (by simp) (fun _ _ => rfl) (fun _ _ => id)
    simp only [Frame.step, keep_eq, taskStep] at h
    split at h
    · exact .inr (.inl ‹_›)
    · simp only [Option.some.injEq, Prod.mk.injEq] at h
      refine .inr (.inr ?_)
      rw [← h.1.1]
      simp
  · rw [(thread_step hstep).2 t ht]
    exact .inl hmem

/-- A job of a scope that is started is about to look at the cancel flag. -/
theorem isCanceled_of_start {rest : List Frame} (hs : poolMachine.Reachable s)
    (hstep : poolMachine.step s l = some s') (hj : s.mem.JobOf r j)
    (hstack : (s.threads l.1).stack = .task j .start :: rest) :
    .task j (.isCanceled r) ∈ (s'.threads l.1).stack := by
  obtain ⟨ctx', fs, h, hstack'⟩ :=
    step_of_top hs hstep hstack (by simp) (fun _ _ => rfl) (fun _ _ => id)
  simp only [Frame.step, keep_eq, taskStep, hj.2, Option.some.injEq, Prod.mk.injEq] at h
  rw [hstack', ← h.1.2]
  simp

/-- How often a job was started grows. -/
theorem starts_step (hs : poolMachine.Reachable s) (hstep : poolMachine.step s l = some s')
    (hj : j < s.mem.nextJob) :
    (s'.mem.jobs j).starts = (s.mem.jobs j).starts ∨
      (s.mem.jobs j).starts = 0 ∧ ∃ rest, (s.threads l.1).stack = .task j .start :: rest := by
  cases ticketChange hs hstep with
  | same hm => exact .inl (hm.fates.starts j)
  | pushed p _ hjobs =>
      rw [hjobs, Function.update_of_ne hj.ne]
      exact .inl rfl
  | made k _ hm =>
      rw [hm]
      simp [newJob, hj.ne]
  | started k hwaits htop hother =>
      rcases eq_or_ne j k with rfl | hk
      · exact .inr ⟨hwaits.2.1, htop⟩
      · exact .inl (by rw [hother j hk])
  | finished k r _ _ hm =>
      rw [hm, Mem.dropTicket_jobs]
      rcases eq_or_ne j k with rfl | hk
      · simp
      · simp [hk]
  | dropped k _ _ hm =>
      rw [hm]
      rcases eq_or_ne j k with rfl | hk
      · exact .inl (s.mem.dropJob_self j).1
      · rw [s.mem.dropJob_of_ne _ _ hk]
        exact .inl rfl

/-- A step that does not enter the closure of a job. -/
theorem PoolState.BodyOk.kept (h : s.BodyOk r j) (hs : poolMachine.Reachable s)
    (hstep : poolMachine.step s l = some s') (hj : s.mem.JobOf r j)
    (hruns : (s'.mem.jobs j).runs = (s.mem.jobs j).runs) : s'.BodyOk r j := by
  have hr := (jobs_stay hs).home j hj.1 r hj.2
  have hzero : (s.mem.jobs j).starts = 0 → (s'.mem.jobs j).runs = 0 := fun h0 =>
    hruns.trans (h.idle h0)
  have hstarts := starts_step hs hstep hj.1
  refine ⟨fun h0 => ?_, fun t hmem => ?_, hruns ▸ h.bound, fun h1 => ?_⟩
  · refine hzero ?_
    rcases hstarts with heq | ⟨hidle, -⟩
    · exact heq ▸ h0
    · exact hidle
  · rcases isCanceled_before hstep hmem with hold | hstart
    · exact hruns.trans (h.checking t hold)
    · exact hzero (waits_of_carries hs hstart (by simp [Frame.carries])).2.1
  · rcases hstarts with heq | ⟨hidle, rest, hstack⟩
    · rcases h.started (heq ▸ h1) with hrun | ⟨t, hmem⟩ | hcanceled
      · exact .inl (hruns.trans hrun)
      · rcases isCanceled_after hs hstep hmem with hkept | hcanceled | hrun
        · exact .inr (.inl ⟨t, hkept⟩)
        · exact .inr (.inr (canceled_stays hstep hr hcanceled))
        · omega
      · exact .inr (.inr (canceled_stays hstep hr hcanceled))
    · exact .inr (.inl ⟨l.1, isCanceled_of_start hs hstep hj hstack⟩)

end BodyOk

/-- The closure of a scope's job is entered once at most, and when the job was started it has
been entered, unless the flag has not been looked at or the scope was canceled. -/
theorem bodies {s : PoolState} (hs : poolMachine.Reachable s) {r j : Nat} (hj : s.mem.JobOf r j) :
    s.BodyOk r j := by
  suffices h : ∀ r j, s.mem.JobOf r j → s.BodyOk r j from h r j hj
  clear hj
  refine Machine.Reachable.invariant (I := fun s => ∀ r j, s.mem.JobOf r j → s.BodyOk r j) ?_ ?_ hs
  · rintro s rfl r j ⟨h, -⟩
    exact absurd h (Nat.not_lt_zero j)
  · intro s l s' hs hI hstep r j hj
    have hs' : poolMachine.Reachable s' := .step hs trivial hstep
    rcases jobOf_before hs hstep hj with hold | ⟨rfl, hm, -⟩
    · have hok := hI r j hold
      rcases (thread_step hstep).1.body j with ⟨hruns, -⟩ | ⟨f, rest, fs, ctx', hstack, hstack', -, hbody⟩
      · exact hok.kept hs hstep hold hruns
      · cases hbody with
        | same hruns | gone _ hruns => exact hok.kept hs hstep hold hruns
        | fresh _ hnew => exact absurd hnew hold.1.ne
        | entered hf hruns =>
            have hin : f ∈ (s.threads l.1).stack := by simp [hstack]
            rcases hf with ⟨-, p, hp⟩ | ⟨k, rfl, -, rfl⟩
            · rw [hold.2] at hp
              cases hp
            · have hk := jobOf_of_task hs hin rfl
              rw [Mem.JobOf, hold.2, Home.scope.injEq] at hk
              obtain ⟨-, rfl⟩ := hk
              have hzero := hok.checking l.1 hin
              have hrunning : Frame.task j (.scoped r) ∈ (s'.threads l.1).stack := by simp [hstack']
              have hstarts := ((busyOk hs').busy j).mp ⟨l.1, busy_of_task hrunning rfl⟩
              refine ⟨fun h0 => ?_, fun t hmem => ?_, by omega, fun _ => .inl (by omega)⟩
              · omega
              · cases (task_unique hs' hrunning hmem rfl rfl).2
    · have hself : s'.mem.jobs s.mem.nextJob = .fresh (.scope r) := by simp [hm, newJob]
      refine ⟨fun _ => ?_, fun t _ => ?_, ?_, fun h1 => ?_⟩ <;> rw [hself] at *
      · rfl
      · rfl
      · exact Nat.zero_le 1
      · cases h1

/-- A job is spawned in a scope. -/
def spawnedJob : List (Tid × Choice) :=
  openedScope ++ List.replicate 3 (.ext 0, .go) ++ [(.ext 0, .user (.spawn 0))] ++
    List.replicate 14 (.ext 0, .go)

/-- A worker has stolen the job and started it. -/
def startedJob : List (Tid × Choice) :=
  spawnedJob ++ List.replicate 44 (.worker 1 0, .go)

end XynokConcurrency
