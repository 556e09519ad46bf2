import XynokConcurrency.ThreadPool.ScopeCalls

/-!
# The tickets of a scope

A job of a scope has a live ticket from before it exists until it has run, was found canceled,
or was dropped without being started.  So the latch of a scope counts the jobs that wait or
run, and the call of the scope waits for them.

Main results:

- Theorem {lit}`ticketsOk`: whose tickets are live, and what the latch counts.

Source: {lit}`thread_pool/scope.rs`, {lit}`thread_pool/mod.rs`, {lit}`utils/latch.rs`.
-/

namespace XynokConcurrency

/-! ## The wrapper of a job -/

/-- The scope whose ticket the wrapper of a job still holds. -/
def TaskPc.scope : TaskPc → Option Nat
  | .isCanceled r | .scoped r | .recordTry r _ | .record r _ | .recordUnlock r | .dropTicket r
  | .dropTicketCanceled r => some r
  | .start | .plain | .dropEnv => none

/-- The wrapper of a job of a scope is at one of the program points for it, and so is the plain
job of a pool. -/
structure TaskPc.Ok (m : Mem) (j : Nat) (pc : TaskPc) : Prop where
  ticket : ∀ r, pc.scope = some r → m.JobOf r j
  plain : pc = .plain → j < m.nextJob ∧ ∃ p, (m.jobs j).home = .pool p

section Tasks

variable {s : PoolState} {t : Tid} {c : Choice} {m m' : Mem} {ctx ctx' : Context} {f : Frame}
  {fs : List Frame} {r j : Nat} {pc : TaskPc}

/-- A job that a frame carries waits. -/
theorem waits_of_carries (hs : poolMachine.Reachable s) (hf : f ∈ (s.threads t).stack)
    (hj : j ∈ f.carries) : s.mem.Waits j :=
  ((jobsOk hs).held j).mp ⟨.hands t,
    List.mem_append_right _ (List.mem_flatMap.mpr ⟨f, hf, hj⟩)⟩

/-- What the wrapper of a job comes from, when it takes a result. -/
theorem Frame.resume_task {o : Outcome} (hg : .task j pc ∈ f.resume o) :
    ∃ pc', f = .task j pc' ∧ pc.scope = pc'.scope ∧
      (pc = .plain ∨ (∃ r, pc = .isCanceled r) → pc' = pc) := by
  unfold Frame.resume at hg
  split at hg <;> (try split at hg) <;>
    simp only [List.mem_cons, List.not_mem_nil, or_false, reduceCtorEq, Frame.task.injEq] at hg
  all_goals
    first
      | exact ⟨pc, hg.symm, rfl, fun _ => rfl⟩
      | (obtain ⟨rfl, rfl⟩ := hg; exact ⟨_, rfl, rfl, by simp⟩)

/-- What the wrapper of a job comes from, when a frame steps. -/
theorem Frame.step_task (hs : f.step t c m ctx = some (m', ctx', fs)) (hg : .task j pc ∈ fs) :
    ∃ pc', f = .task j pc' ∧
      (pc.scope = pc'.scope ∧ pc ≠ .plain ∧ (∀ r, pc ≠ .isCanceled r) ∨ pc = .dropEnv ∨
        pc' = .start ∧ ((∃ r, (m.jobs j).home = .scope r ∧ pc = .isCanceled r) ∨
          ∃ p, (m.jobs j).home = .pool p ∧ pc = .plain)) := by
  have hnext := Frame.step_givesWay hs _ hg
  have hfrom : f.tag = .pop ∨ f.tag = .steal ∨ f.tag = .task := by
    revert hnext
    cases f.tag <;> simp [FrameTag.next, Frame.tag]
  cases f with
  | pop w pc' => cases hs
  | steal w tick pc' =>
      simp only [Frame.step, keepMem_eq] at hs
      obtain ⟨hs, -, -⟩ := hs
      cases pc' <;> simp only [stealStep, reduceCtorEq] at hs <;> (repeat' split at hs) <;> cases hs <;>
        simp at hg
  | task k pc' =>
      simp only [Frame.step, keep_eq] at hs
      obtain ⟨hs, -⟩ := hs
      cases pc' <;> simp only [taskStep, reduceCtorEq] at hs <;> (repeat' split at hs) <;> cases hs <;>
        simp only [List.mem_cons, List.not_mem_nil, or_false, reduceCtorEq, false_or,
          Frame.task.injEq] at hg <;>
        obtain ⟨rfl, rfl⟩ := hg <;>
        first
          | exact ⟨_, rfl, .inr (.inr ⟨rfl, .inl ⟨_, ‹_›, rfl⟩⟩)⟩
          | exact ⟨_, rfl, .inr (.inr ⟨rfl, .inr ⟨_, ‹_›, rfl⟩⟩)⟩
          | exact ⟨_, rfl, .inr (.inl rfl)⟩
          | exact ⟨_, rfl, .inl ⟨rfl, by simp, by simp⟩⟩
  | _ => simp [Frame.tag] at hfrom

/-- The wrapper of each job fits the job. -/
theorem taskOk (hs : poolMachine.Reachable s) (hmem : .task j pc ∈ (s.threads t).stack) :
    pc.Ok s.mem j := by
  suffices h : ∀ (t : Tid) (j : Nat) (pc : TaskPc),
      .task j pc ∈ (s.threads t).stack → pc.Ok s.mem j from h t j pc hmem
  clear hmem
  refine Machine.Reachable.invariant (I := fun s => ∀ (t : Tid) (j : Nat) (pc : TaskPc),
    .task j pc ∈ (s.threads t).stack → pc.Ok s.mem j) ?_ ?_ hs
  · rintro s rfl (e | ⟨p, i⟩) j pc hmem <;> simp [Thread.initial] at hmem
  · intro s l s' hs hI hstep t j pc hmem
    obtain ⟨hlocal, hothers⟩ := thread_step hstep
    suffices h : pc.Ok s.mem j by
      refine ⟨fun r hr => (h.ticket r hr).step hs hstep, fun hpc => ?_⟩
      obtain ⟨hlt, p, hp⟩ := h.plain hpc
      obtain ⟨_, _, _, _, hchange, -⟩ := step_exchange hs hstep
      refine ⟨?_, p, (hchange.home hlt).trans hp⟩
      cases hchange with
      | stay _ _ _ hnext | went _ _ _ _ hnext => exact hnext ▸ hlt
      | made _ _ hnext => exact hnext ▸ hlt.trans (Nat.lt_succ_self _)
    by_cases ht : t = l.1
    · subst ht
      cases hlocal.of_mem hmem with
      | kept h => exact hI _ _ _ (List.mem_of_mem_tail h)
      | waits _ _ h => exact hI _ _ _ h
      | resumed hstack h =>
          obtain ⟨pc', rfl, hscope, hplain⟩ := Frame.resume_task h
          have hok := hI l.1 j pc' (by simp [hstack])
          exact ⟨fun r hr => hok.ticket r (hscope ▸ hr), fun hpc => hok.plain ((hplain (.inl hpc)).trans hpc)⟩
      | @called f rest q hstack h =>
          unfold Frame.call at h
          split at h <;> (try split at h) <;> cases h
      | @answered f rest res hstack h =>
          unfold Frame.answer at h
          split at h <;> (try split at h) <;>
            simp only [List.mem_cons, List.not_mem_nil, or_false, reduceCtorEq, Frame.task.injEq] at h
          all_goals
            first
              | (obtain ⟨rfl, rfl⟩ := h; exact ⟨by simp [TaskPc.scope], by simp⟩)
              | (subst h; exact hI l.1 j pc (by simp [hstack]))
      | @stepped f rest ctx' fs hstack hf _ h =>
          obtain ⟨pc', rfl, hcase⟩ := Frame.step_task hf h
          have hin : Frame.task j pc' ∈ (s.threads l.1).stack := by simp [hstack]
          have hlt : pc' = .start → j < s.mem.nextJob := by
            rintro rfl
            exact (waits_of_carries hs hin (by simp [Frame.carries])).1
          obtain ⟨hscope, hplain, -⟩ | rfl | ⟨hstart, ⟨r, hr, rfl⟩ | ⟨p, hp, rfl⟩⟩ := hcase
          · exact ⟨fun r hr => (hI _ _ _ hin).ticket r (hscope ▸ hr), fun h => absurd h hplain⟩
          · exact ⟨by simp [TaskPc.scope], by simp⟩
          · refine ⟨fun r' hr' => ?_, by simp⟩
            cases hr'
            exact ⟨hlt hstart, hr⟩
          · exact ⟨by simp [TaskPc.scope], fun _ => ⟨hlt hstart, p, hp⟩⟩
    · rw [hothers t ht] at hmem
      exact hI t j pc hmem

/-- A job whose wrapper holds a ticket is one of the ticket's scope. -/
theorem jobOf_of_task (hs : poolMachine.Reachable s) (hmem : .task j pc ∈ (s.threads t).stack)
    (hpc : pc.scope = some r) : s.mem.JobOf r j :=
  (taskOk hs hmem).ticket r hpc

end Tasks

/-! ## What a step does to the tickets -/

/-- The jobs a thread has started whose ticket it has not given back. -/
def PoolState.busy (s : PoolState) (t : Tid) : List Nat :=
  (s.threads t).stack.flatMap Frame.runs

/-- What one step of thread {lit}`t` does to the jobs and to their tickets. -/
inductive TicketChange (s s' : PoolState) (t : Tid) : Prop
  /-- Nothing changes. -/
  | same (hm : s.mem.SameJobs s'.mem) (hbusy : s'.busy t = s.busy t) : TicketChange s s' t
  /-- A job is made for a pool. -/
  | pushed (p : Nat) (ht : s.mem.SameTickets s'.mem)
      (hjobs : s'.mem.jobs = Function.update s.mem.jobs s.mem.nextJob (.fresh (.pool p)))
      (hnext : s'.mem.nextJob = s.mem.nextJob + 1) (hbusy : s'.busy t = s.busy t) :
      TicketChange s s' t
  /-- A job is made for a scope, and takes a ticket. -/
  | made (r : Nat) (hmakes : ∃ f ∈ (s.threads t).stack, f.Makes r) (hm : s'.mem = newJob s.mem r)
      (hbusy : s'.busy t = s.busy t) : TicketChange s s' t
  /-- A job is started. -/
  | started (j : Nat) (hwaits : s.mem.Waits j)
      (htop : ∃ rest, (s.threads t).stack = .task j .start :: rest)
      (hother : ∀ k, k ≠ j → s'.mem.jobs k = s.mem.jobs k)
      (hfate : (s'.mem.jobs j).fate =
        { (s.mem.jobs j).fate with starts := (s.mem.jobs j).starts + 1, runner := some t })
      (hscopes : s'.mem.scopes = s.mem.scopes) (hnext : s'.mem.nextScope = s.mem.nextScope)
      (hnextJob : s'.mem.nextJob = s.mem.nextJob)
      (hbusy : s'.busy t =
        (match (s.mem.jobs j).home with
          | .pool _ => []
          | .scope _ => [j]) ++ s.busy t) : TicketChange s s' t
  /-- A job that was started gives back its ticket. -/
  | finished (j r : Nat) (hj : s.mem.JobOf r j)
      (htop : ∃ pc rest, (pc = .dropTicket r ∨ pc = .dropTicketCanceled r) ∧
        (s.threads t).stack = .task j pc :: rest)
      (hm : s'.mem = dropTicket s.mem r j)
      (hbusy : s.busy t = j :: s'.busy t) : TicketChange s s' t
  /-- A job that was not started is dropped. -/
  | dropped (j : Nat) (hwaits : s.mem.Waits j)
      (htop : ∃ js rest, (s.threads t).stack = .dropJobs (j :: js) :: rest)
      (hm : s'.mem = s.mem.dropJob j) (hbusy : s'.busy t = s.busy t) : TicketChange s s' t

section Changes

variable {s s' : PoolState} {l : Tid × Choice} {j r : Nat}

/-- Where a job was published is no part of what becomes of it. -/
theorem trackOrigins_fate {jobs : Nat → Job} {before after : List Nat} {place : Option Place} :
    (trackOrigins jobs before after place j).fate = (jobs j).fate := by
  unfold trackOrigins
  (repeat' split) <;> rfl

/-- Every step is one of the listed changes. -/
theorem ticketChange (hs : poolMachine.Reachable s) (hstep : poolMachine.step s l = some s') :
    TicketChange s s' l.1 := by
  have hlocal := (thread_step hstep).1
  have hbefore : s.busy l.1 = (s.threads l.1).stack.flatMap Frame.runs := rfl
  have hafter : s'.busy l.1 = (s'.threads l.1).stack.flatMap Frame.runs := rfl
  generalize hthread : s.threads l.1 = th₀ at hlocal hbefore
  generalize s'.threads l.1 = th₁ at hlocal hafter
  generalize hmem : s'.mem = m' at hlocal
  cases hlocal with
  | resume =>
      refine .same (hmem ▸ .refl _) ?_
      rw [hbefore, hafter, List.flatMap_append, (Frame.resume_carries _ _).2]
      simp [Frame.runs]
  | call hc =>
      refine .same (hmem ▸ .refl _) ?_
      rw [hbefore, hafter, List.flatMap_cons, List.flatMap_cons,
        (Frame.call_carries hc s.mem.queues).2.2]
  | @answer ctx f rest res =>
      refine .same (hmem ▸ .refl _) ?_
      obtain h | ⟨f', rest', q, h, hwaits, hwithin⟩ := calling hs l.1
      · rw [hthread] at h
        cases h
      · rw [hthread] at h hwaits hwithin
        cases h
        obtain ⟨-, -, hrest, hf⟩ := Frame.answer_carries hwaits hwithin
        rw [hbefore, hafter, List.flatMap_append, hrest, List.flatMap_cons, hf]
  | @tick ctx stack o o' queues i hi hx =>
      refine .same ⟨hmem ▸ .of_scopes rfl rfl, fun j => ?_, by rw [hmem]⟩ (hafter.trans hbefore.symm)
      rw [hmem]
      exact trackOrigins_fate
  | @frame ctx ctx' f rest fs m' hf =>
      have hstack : (s.threads l.1).stack = f :: rest := by rw [hthread]
      have hin : f ∈ (s.threads l.1).stack := by simp [hstack]
      rw [List.flatMap_cons] at hbefore
      rw [List.flatMap_append] at hafter
      have hkept : fs.flatMap Frame.runs = f.runs → s'.busy l.1 = s.busy l.1 := fun h => by
        rw [hbefore, hafter, h]
      have hnone : f.runs = [] → fs.flatMap Frame.runs = [] → s'.busy l.1 = s.busy l.1 :=
        fun h h' => hkept (h'.trans h.symm)
      cases step_jobs hs hstack hf with
      | quiet _ hm _ hr => exact .same (hmem ▸ hm) (hkept hr)
      | push p _ ht hjobs hnext hf' _ hr =>
          exact .pushed p (hmem ▸ ht) (hmem ▸ hjobs) (hmem ▸ hnext) (hnone hf'.2 hr)
      | spawn r hf' hmakes _ hr => exact .made r ⟨f, hin, hmakes⟩ hmem (hnone hf'.2 hr)
      | start j change hf' hfate _ hr =>
          subst hf'
          refine .started j (waits_of_carries hs hin (by simp [Frame.carries])) ⟨rest, hstack⟩ ?_ ?_ ?_
            ?_ ?_ ?_
          · intro k hk
            rw [hmem, Mem.modJob_jobs, Function.update_of_ne hk]
          · rw [hmem, Mem.modJob_jobs, Function.update_self]
            exact hfate
          · rw [hmem]
            rfl
          · rw [hmem]
            rfl
          · rw [hmem]
            rfl
          · rw [hafter, hbefore, hr]
            cases (s.mem.jobs j).home <;> rfl
      | finish j r hf' _ hr =>
          refine .finished j r ?_ ?_ hmem ?_
          · rcases hf' with rfl | rfl <;> exact jobOf_of_task hs hin rfl
          · rcases hf' with rfl | rfl
            · exact ⟨_, rest, .inl rfl, hstack⟩
            · exact ⟨_, rest, .inr rfl, hstack⟩
          · rw [hafter, hbefore, hr]
            rcases hf' with rfl | rfl <;> simp [Frame.runs]
      | drop j js hf' =>
          subst hf'
          exact .dropped j (waits_of_carries hs hin (by simp [Frame.carries])) ⟨js, rest, hstack⟩ hmem
            (hkept rfl)
      | relock q b _ _ _ hr => exact .same (hmem ▸ .of_eq rfl rfl rfl rfl) (hkept hr)
      | truncate q n _ hf' _ hr => exact .same (hmem ▸ .of_eq rfl rfl rfl rfl) (hnone hf'.2 hr)
      | place p r caller index j hf' _ hr =>
          subst hf'
          exact .same (hmem ▸ .of_eq rfl rfl rfl rfl) (hnone rfl hr)
      | clear xs _ _ hm _ _ _ _ hf' _ hr => exact .same (hmem ▸ hm) (hnone hf'.2 hr)

end Changes

/-! ## Whose tickets are live -/

/-- The jobs of scopes that have been started and not finished run, each on one thread, and a
job that was dropped has no ticket. -/
structure BusyOk (s : PoolState) : Prop where
  once : HeldOnce s.busy
  busy : ∀ j, (∃ t, j ∈ s.busy t) ↔
    (∃ r, s.mem.JobOf r j) ∧ (s.mem.jobs j).starts = 1 ∧ (s.mem.jobs j).released = false
  dropped : ∀ r j, s.mem.JobOf r j → (s.mem.jobs j).drops = 1 → (s.mem.jobs j).released = true
  gone : ∀ j, (s.mem.jobs j).released = true → (s.mem.jobs j).starts + (s.mem.jobs j).drops = 1

/-- The tickets of a scope are those of its jobs that have not given theirs back, and its latch
counts them. -/
structure Mem.TicketsOk (m : Mem) (r : Nat) : Prop where
  nodup : (m.scopes r).tickets.Nodup
  live : ∀ j, j ∈ (m.scopes r).tickets ↔ m.JobOf r j ∧ (m.jobs j).released = false
  remaining : (m.scopes r).latch.remaining = 1 + (m.scopes r).tickets.length

section Books

variable {s s' : PoolState} {t : Tid} {l : Tid × Choice} {m m' : Mem} {j r : Nat}

/-- A job is of the same scope as before. -/
theorem Mem.SameFates.jobOf (h : m.SameFates m') : m'.JobOf r j ↔ m.JobOf r j := by
  simp only [Mem.JobOf, h.home, h.next]

/-- A step that is no matter of jobs keeps the books of the threads. -/
theorem BusyOk.congr (h : BusyOk s) (hbusy : s'.busy = s.busy) (hm : s.mem.SameFates s'.mem) :
    BusyOk s' := by
  refine ⟨hbusy ▸ h.once, fun j => ?_, fun r j hj => ?_, fun j hj => ?_⟩
  · simp only [hbusy, hm.jobOf, hm.starts, hm.released, h.busy]
  · rw [hm.drops, hm.released]
    exact h.dropped r j (hm.jobOf.mp hj)
  · rw [hm.starts, hm.drops]
    exact h.gone j (hm.released j ▸ hj)

/-- A new job keeps the books of the threads. -/
theorem BusyOk.made {home : Home} (h : BusyOk s) (hs : poolMachine.Reachable s)
    (hbusy : s'.busy = s.busy)
    (hjobs : s'.mem.jobs = Function.update s.mem.jobs s.mem.nextJob (.fresh home))
    (hnext : s'.mem.nextJob = s.mem.nextJob + 1) : BusyOk s' := by
  have hself : s'.mem.jobs s.mem.nextJob = .fresh home := by rw [hjobs, Function.update_self]
  have hother : ∀ j, j ≠ s.mem.nextJob → s'.mem.jobs j = s.mem.jobs j := fun j hj => by
    rw [hjobs, Function.update_of_ne hj]
  have hold : ∀ {r j}, j ≠ s.mem.nextJob → (s'.mem.JobOf r j ↔ s.mem.JobOf r j) := by
    intro r j hj
    simp only [Mem.JobOf, hother j hj, hnext]
    exact and_congr_left' ⟨fun h => by omega, fun h => by omega⟩
  have hfresh := (jobsOk hs).fresh s.mem.nextJob le_rfl
  refine ⟨hbusy ▸ h.once, fun j => ?_, fun r j hj hdrops => ?_, fun j hj => ?_⟩
  · rw [hbusy, h.busy]
    rcases eq_or_ne j s.mem.nextJob with rfl | hne
    · simp [hself, hfresh.1, Job.fresh]
    · simp [hold hne, hother j hne]
  · rcases eq_or_ne j s.mem.nextJob with rfl | hne
    · simp [hself, Job.fresh] at hdrops
    · rw [hother j hne] at hdrops ⊢
      exact h.dropped r j ((hold hne).mp hj) hdrops
  · rcases eq_or_ne j s.mem.nextJob with rfl | hne
    · simp [hself, Job.fresh] at hj
    · rw [hother j hne] at hj ⊢
      exact h.gone j hj

/-- The books after a job has changed: what is asked of that job, and of the others. -/
theorem BusyOk.update (h : BusyOk s) (honce : HeldOnce s'.busy)
    (hkept : ∀ k, k ≠ j → ((∃ t, k ∈ s'.busy t) ↔ ∃ t, k ∈ s.busy t))
    (hother : ∀ k, k ≠ j → s'.mem.jobs k = s.mem.jobs k) (hnext : s'.mem.nextJob = s.mem.nextJob)
    (hbusy : (∃ t, j ∈ s'.busy t) ↔
      (∃ r, s'.mem.JobOf r j) ∧ (s'.mem.jobs j).starts = 1 ∧ (s'.mem.jobs j).released = false)
    (hdropped : ∀ r, s'.mem.JobOf r j → (s'.mem.jobs j).drops = 1 → (s'.mem.jobs j).released = true)
    (hgone : (s'.mem.jobs j).released = true →
      (s'.mem.jobs j).starts + (s'.mem.jobs j).drops = 1) : BusyOk s' := by
  have hold : ∀ {r k}, k ≠ j → (s'.mem.JobOf r k ↔ s.mem.JobOf r k) := fun hk => by
    simp only [Mem.JobOf, hother _ hk, hnext]
  refine ⟨honce, fun k => ?_, fun r k hk hdrops => ?_, fun k hk => ?_⟩
  · rcases eq_or_ne k j with rfl | hne
    · exact hbusy
    · simp [hkept k hne, h.busy, hold hne, hother k hne]
  · rcases eq_or_ne k j with rfl | hne
    · exact hdropped r hk hdrops
    · rw [hother k hne] at hdrops ⊢
      exact h.dropped r k ((hold hne).mp hk) hdrops
  · rcases eq_or_ne k j with rfl | hne
    · exact hgone hk
    · rw [hother k hne] at hk ⊢
      exact h.gone k hk

/-- A step keeps the books of the threads. -/
theorem BusyOk.step (h : BusyOk s) (hs : poolMachine.Reachable s)
    (hothers : ∀ u, u ≠ t → s'.busy u = s.busy u) (hchange : TicketChange s s' t) : BusyOk s' := by
  have hsame : s'.busy t = s.busy t → s'.busy = s.busy := fun hbusy => funext fun u => by
    rcases eq_or_ne u t with rfl | hu
    · exact hbusy
    · exact hothers u hu
  cases hchange with
  | same hm hbusy => exact h.congr (hsame hbusy) hm.fates
  | pushed p ht hjobs hnext hbusy => exact h.made hs (hsame hbusy) hjobs hnext
  | made r _ hm hbusy => exact h.made hs (hsame hbusy) (by rw [hm]; rfl) (by rw [hm]; rfl)
  | started j hwaits _ hother hfate _ _ hnext hbusy =>
      obtain ⟨hlt, hidle, hkept⟩ := hwaits
      have hfields : ∀ {β : Type} (field : Job → β), field (s'.mem.jobs j).fate =
          field { (s.mem.jobs j).fate with starts := (s.mem.jobs j).starts + 1, runner := some t } :=
        fun field => congrArg field hfate
      have hstarts : (s'.mem.jobs j).starts = (s.mem.jobs j).starts + 1 := hfields Job.starts
      have hdrops : (s'.mem.jobs j).drops = (s.mem.jobs j).drops := hfields Job.drops
      have hhome : (s'.mem.jobs j).home = (s.mem.jobs j).home := hfields Job.home
      have hreleased : (s'.mem.jobs j).released = (s.mem.jobs j).released := hfields Job.released
      have hlive : (s.mem.jobs j).released = false := Bool.eq_false_of_not_eq_true fun hr => by
        have := h.gone j hr
        omega
      have hnew : ∀ u, j ∉ s.busy u := fun u hu => by
        have := ((h.busy j).mp ⟨u, hu⟩).2.1
        omega
      have hexchange : Exchange s.busy s'.busy [t]
          (match (s.mem.jobs j).home with
            | .pool _ => []
            | .scope _ => [j]) [] :=
        .one t hothers (by rw [hbusy]; exact .refl _)
      have hiff := fun k => hexchange.held_iff (a := k)
      refine h.update (j := j) ?_ (fun k hk => ?_) hother hnext ?_ (by omega) (by omega)
      · refine hexchange.heldOnce h.once ?_ ?_
        · cases (s.mem.jobs j).home <;> simp
        · intro k hk
          cases hh : (s.mem.jobs j).home <;> simp only [hh, List.mem_singleton, List.not_mem_nil] at hk
          exact hk ▸ hnew
      · have := hiff k
        cases hh : (s.mem.jobs j).home <;> simpa [hh, hk] using this
      · have := hiff j
        cases hh : (s.mem.jobs j).home with
        | pool p => simpa [hh, hnew, Mem.JobOf, hhome] using this
        | scope r => simpa [hh, Mem.JobOf, hhome, hstarts, hidle, hreleased, hlive, hnext, hlt] using this
  | finished j r hj _ hm hbusy =>
      have hrun : (s.mem.jobs j).starts = 1 :=
        ((h.busy j).mp ⟨t, by simp [hbusy]⟩).2.1
      have hself : s'.mem.jobs j = { s.mem.jobs j with released := true } := by
        rw [hm, Mem.dropTicket_jobs, Function.update_self]
      have hexchange : Exchange s.busy s'.busy [t] [] [j] :=
        .one t hothers (by rw [hbusy]; exact .refl _)
      have hiff := fun k => hexchange.held_iff (a := k)
      have hbound := (jobsOk hs).bound j
      refine h.update (j := j) (hexchange.heldOnce h.once (by simp) (by simp)) (fun k hk => ?_)
        (fun k hk => ?_) (by rw [hm]; rfl) ?_ (by simp [hself]) (fun _ => ?_)
      · simpa [hk] using hiff k
      · rw [hm, Mem.dropTicket_jobs, Function.update_of_ne hk]
      · refine iff_of_false ?_ (by simp [hself])
        rintro ⟨u, hu⟩
        exact hexchange.not_held_of_gone h.once (by simp) (by simp) (by simp) u hu
      · rw [hself]
        simp only
        omega
  | dropped j hwaits _ hm hbusy =>
      have hself := s.mem.dropJob_self j
      have hidle : ∀ u, j ∉ s.busy u := fun u hu => by
        have := ((h.busy j).mp ⟨u, hu⟩).2.1
        have := hwaits.2.1
        omega
      have hbusy' := hsame hbusy
      refine h.update (j := j) (hbusy' ▸ h.once) (fun k _ => by rw [hbusy']) (fun k hk => ?_) ?_ ?_ ?_ ?_
      · rw [hm, s.mem.dropJob_of_ne _ _ hk]
      · rw [hm, Mem.dropJob_nextJob]
      · refine iff_of_false (by simp [hbusy', hidle]) ?_
        rw [hm, hself.1, hwaits.2.1]
        simp
      · intro r hr _
        have hhome : (s.mem.jobs j).home = .scope r := by
          rw [← hself.2.2, ← hm]
          exact hr.2
        rw [hm]
        simp [Mem.dropJob, hhome]
      · intro _
        rw [hm, hself.1, hself.2.1, hwaits.2.1, hwaits.2.2]

/-- A change that leaves the tickets of a scope and its jobs alone. -/
theorem Mem.TicketsOk.congr (h : m.TicketsOk r) (hcount : (m'.scopes r).count = (m.scopes r).count)
    (hjobs : ∀ j, m'.JobOf r j ∧ (m'.jobs j).released = false ↔
      m.JobOf r j ∧ (m.jobs j).released = false) : m'.TicketsOk r := by
  have htickets : (m'.scopes r).tickets = (m.scopes r).tickets := congrArg Prod.fst hcount
  have hremaining : (m'.scopes r).latch.remaining = (m.scopes r).latch.remaining :=
    congrArg Prod.snd hcount
  exact ⟨htickets ▸ h.nodup, fun j => by rw [htickets, h.live, hjobs],
    by rw [hremaining, htickets, h.remaining]⟩

/-- A new scope has no tickets. -/
theorem Mem.TicketsOk.of_new (hcount : (m.scopes r).count = ([], 1)) (hjobs : ∀ j, ¬ m.JobOf r j) :
    m.TicketsOk r := by
  have htickets : (m.scopes r).tickets = [] := congrArg Prod.fst hcount
  have hremaining : (m.scopes r).latch.remaining = 1 := congrArg Prod.snd hcount
  exact ⟨by simp [htickets], fun j => by simp [htickets, hjobs], by simp [htickets, hremaining]⟩

/-- A ticket is taken for a new job. -/
theorem Mem.TicketsOk.newJob (h : m.TicketsOk r) : (newJob m r).TicketsOk r := by
  have hnew : m.nextJob ∉ (m.scopes r).tickets := fun hmem =>
    lt_irrefl _ ((h.live _).mp hmem).1.1
  have hscope : (XynokConcurrency.newJob m r).scopes r =
      { m.scopes r with
        latch := { (m.scopes r).latch with remaining := (m.scopes r).latch.remaining + 1 }
        tickets := (m.scopes r).tickets ++ [m.nextJob] } := by
    simp [XynokConcurrency.newJob]
  refine ⟨?_, fun j => ?_, ?_⟩
  · rw [hscope]
    exact List.nodup_append'.mpr ⟨h.nodup, List.nodup_singleton _, by simpa using hnew⟩
  · rw [hscope, List.mem_append, h.live, List.mem_singleton]
    rcases eq_or_ne j m.nextJob with rfl | hj
    · simp [XynokConcurrency.newJob, Mem.JobOf, Job.fresh]
    · have hlt : j < m.nextJob + 1 ↔ j < m.nextJob := by omega
      simp [XynokConcurrency.newJob, Mem.JobOf, hj, hlt]
  · rw [hscope, List.length_append, List.length_singleton, h.remaining]
    simp only
    omega

/-- A ticket is given back. -/
theorem Mem.TicketsOk.dropTicket (h : m.TicketsOk r) (hj : m.JobOf r j)
    (hlive : (m.jobs j).released = false) : (dropTicket m r j).TicketsOk r := by
  have hmem : j ∈ (m.scopes r).tickets := (h.live j).mpr ⟨hj, hlive⟩
  have hscope : (XynokConcurrency.dropTicket m r j).scopes r =
      { m.scopes r with
        latch := { (m.scopes r).latch with remaining := (m.scopes r).latch.remaining - 1 }
        tickets := (m.scopes r).tickets.erase j } := by
    simp [XynokConcurrency.dropTicket]
  refine ⟨?_, fun k => ?_, ?_⟩
  · rw [hscope]
    exact h.nodup.erase j
  · rw [hscope, h.nodup.mem_erase_iff, h.live]
    rcases eq_or_ne k j with rfl | hk
    · simp
    · simp [Mem.JobOf, hk]
  · have hpos := List.length_pos_of_mem hmem
    rw [hscope, List.length_erase_of_mem hmem, h.remaining]
    simp only
    omega

/-- Tickets of another scope. -/
theorem Mem.newJob_count {k : Nat} (hk : k ≠ r) :
    ((newJob m r).scopes k).count = (m.scopes k).count := by
  simp [newJob, hk]

/-- Tickets of another scope. -/
theorem Mem.dropTicket_count {k : Nat} (hk : k ≠ r) :
    ((dropTicket m r j).scopes k).count = (m.scopes k).count := by
  simp [XynokConcurrency.dropTicket, hk]

/-- A step keeps the books of the scopes. -/
theorem ticketsOk_step (h : ∀ r, r < s.mem.nextScope → s.mem.TicketsOk r) (hbusy : BusyOk s)
    (hs : poolMachine.Reachable s) (hchange : TicketChange s s' t)
    (hr : r < s'.mem.nextScope) : s'.mem.TicketsOk r := by
  -- a new scope has no jobs yet, and an old one is kept if its tickets and its jobs are
  have hquiet : s.mem.SameTickets s'.mem →
      (∀ j, s'.mem.JobOf r j ∧ (s'.mem.jobs j).released = false ↔
        s.mem.JobOf r j ∧ (s.mem.jobs j).released = false) → s'.mem.TicketsOk r := by
    intro ht hjobs
    by_cases hold : r < s.mem.nextScope
    · exact (h r hold).congr (ht.old r hold) hjobs
    · have hnone : ∀ j, ¬ s.mem.JobOf r j := fun j hj =>
        hold ((jobs_stay hs).home j hj.1 r hj.2)
      refine .congr (m := { s'.mem with jobs := s.mem.jobs, nextJob := s.mem.nextJob }) ?_ rfl hjobs
      exact .of_new (ht.fresh r (by omega) hr) hnone
  have hgiven : ∀ {k j : Nat}, s.mem.JobOf k j → (s.mem.jobs j).released = false →
      s'.mem.scopes = (dropTicket s.mem k j).scopes →
      (∀ i, (s'.mem.jobs i).home = (s.mem.jobs i).home) → s'.mem.nextJob = s.mem.nextJob →
      (∀ i, (s'.mem.jobs i).released = if i = j then true else (s.mem.jobs i).released) →
      s'.mem.nextScope = s.mem.nextScope → s'.mem.TicketsOk r := by
    intro k j hj hlive hscopes hhome hnext hreleased hnextScope
    have hjobs : ∀ i, s'.mem.JobOf r i ∧ (s'.mem.jobs i).released = false ↔
        (dropTicket s.mem k j).JobOf r i ∧ ((dropTicket s.mem k j).jobs i).released = false := by
      intro i
      rcases eq_or_ne i j with rfl | hi
      · simp [hreleased]
      · simp [Mem.JobOf, hhome, hnext, hreleased, hi]
    rcases eq_or_ne r k with rfl | hk
    · exact ((h r (hnextScope ▸ hr)).dropTicket hj hlive).congr (by rw [hscopes]) hjobs
    · refine (h r (hnextScope ▸ hr)).congr (by rw [hscopes, Mem.dropTicket_count hk]) fun i => ?_
      rw [hjobs]
      rcases eq_or_ne i j with rfl | hi
      · simp [Mem.JobOf, hj.2, hk.symm]
      · simp [Mem.JobOf, hi]
  cases hchange with
  | same hm => exact hquiet hm.tickets fun j => by rw [hm.fates.jobOf, hm.fates.released]
  | pushed p ht hjobs hnext =>
      refine hquiet ht fun j => ?_
      rcases eq_or_ne j s.mem.nextJob with rfl | hj
      · simp [Mem.JobOf, hjobs, Job.fresh]
      · have hlt : j < s.mem.nextJob + 1 ↔ j < s.mem.nextJob := by omega
        simp [Mem.JobOf, hjobs, hnext, hj, hlt]
  | made k _ hm =>
      rw [hm]
      have hlt : r < s.mem.nextScope := by rwa [hm] at hr
      rcases eq_or_ne r k with rfl | hk
      · exact (h r hlt).newJob
      · refine (h r hlt).congr (Mem.newJob_count hk) fun j => ?_
        rcases eq_or_ne j s.mem.nextJob with rfl | hj
        · simp [newJob, Mem.JobOf, Job.fresh, hk.symm]
        · have hlt : j < s.mem.nextJob + 1 ↔ j < s.mem.nextJob := by omega
          simp [newJob, Mem.JobOf, hj, hlt]
  | started j _ _ hother hfate hscopes hnext hnextJob =>
      refine hquiet (.of_scopes hscopes hnext) fun k => ?_
      have hsame : (s'.mem.jobs k).home = (s.mem.jobs k).home ∧
          (s'.mem.jobs k).released = (s.mem.jobs k).released := by
        rcases eq_or_ne k j with rfl | hk
        · have hhome := congrArg Job.home hfate
          have hreleased := congrArg Job.released hfate
          exact ⟨hhome, hreleased⟩
        · rw [hother k hk]
          exact ⟨rfl, rfl⟩
      simp [Mem.JobOf, hsame, hnextJob]
  | finished j k hj _ hm hbefore =>
      have hlive := ((hbusy.busy j).mp ⟨t, by simp [hbefore]⟩).2.2
      refine hgiven hj hlive (by rw [hm]) (fun i => ?_) (by rw [hm]; rfl) (fun i => ?_) (by rw [hm]; rfl) <;>
        rw [hm, Mem.dropTicket_jobs] <;> rcases eq_or_ne i j with rfl | hi <;> simp_all
  | dropped j hwaits _ hm =>
      cases hhome : (s.mem.jobs j).home with
      | pool p =>
          have hmem : s'.mem = s.mem.modJob j fun job => { job with drops := job.drops + 1 } := by
            rw [hm, Mem.dropJob, hhome]
          refine hquiet (hmem ▸ .of_scopes rfl rfl) fun k => ?_
          rw [hmem]
          rcases eq_or_ne k j with rfl | hk
          · simp [Mem.JobOf]
          · simp [Mem.JobOf, hk]
      | scope k =>
          have hmem : s'.mem = (dropTicket s.mem k j).modJob j fun job =>
              { job with drops := job.drops + 1 } := by
            rw [hm, Mem.dropJob, hhome]
          obtain ⟨hlt, hidle, hkept⟩ := hwaits
          have hlive : (s.mem.jobs j).released = false := Bool.eq_false_of_not_eq_true fun hrel => by
            have := hbusy.gone j hrel
            omega
          refine hgiven ⟨hlt, hhome⟩ hlive (by rw [hmem]; rfl) (fun i => ?_) (by rw [hmem]; rfl)
            (fun i => ?_) (by rw [hmem]; rfl) <;>
            rw [hmem, Mem.modJob_jobs, Mem.dropTicket_jobs] <;> rcases eq_or_ne i j with rfl | hi <;>
            simp_all

end Books

/-- The books are kept in every reachable state. -/
theorem ticketBooks {s : PoolState} (hs : poolMachine.Reachable s) :
    BusyOk s ∧ ∀ r, r < s.mem.nextScope → s.mem.TicketsOk r := by
  refine Machine.Reachable.invariant (I := fun s => BusyOk s ∧ ∀ r, r < s.mem.nextScope →
    s.mem.TicketsOk r) ?_ ?_ hs
  · rintro s rfl
    have hidle : ∀ t, PoolState.busy ⟨.initial, Thread.initial⟩ t = [] := by
      intro t
      cases t <;> rfl
    refine ⟨⟨⟨fun t => ?_, ?_⟩, fun j => ?_, fun r j hj => ?_, fun j hj => ?_⟩, fun r hr => ?_⟩
    · rw [hidle]
      exact List.nodup_nil
    · intro t u j hj
      rw [hidle] at hj
      cases hj
    · refine iff_of_false ?_ ?_
      · rintro ⟨t, ht⟩
        rw [hidle] at ht
        cases ht
      · rintro ⟨-, h, -⟩
        cases h
    · exact absurd hj.1 (Nat.not_lt_zero j)
    · cases hj
    · exact absurd hr (Nat.not_lt_zero r)
  · rintro s l s' hs ⟨hbusy, htickets⟩ hstep
    have hchange := ticketChange hs hstep
    have hothers : ∀ u, u ≠ l.1 → s'.busy u = s.busy u := fun u hu => by
      rw [PoolState.busy, (thread_step hstep).2 u hu, PoolState.busy]
    exact ⟨hbusy.step hs hothers hchange, fun r hr =>
      ticketsOk_step htickets hbusy hs hchange hr⟩

/-- Which jobs of scopes run. -/
theorem busyOk {s : PoolState} (hs : poolMachine.Reachable s) : BusyOk s :=
  (ticketBooks hs).1

/-- Whose tickets are live, and what the latch counts. -/
theorem ticketsOk {s : PoolState} (hs : poolMachine.Reachable s) {r : Nat} (hr : r < s.mem.nextScope) :
    s.mem.TicketsOk r :=
  (ticketBooks hs).2 r hr

end XynokConcurrency
