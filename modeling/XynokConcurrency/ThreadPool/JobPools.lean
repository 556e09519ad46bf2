import XynokConcurrency.ThreadPool.Helpers
import XynokConcurrency.ThreadPool.JobLife

/-!
# A job stays in its pool

A job is made for a pool, or for a scope on a pool.  The containers it can lie in are
those of that pool, and the threads that carry it do so for that pool.

Main results:

- Theorem {lit}`jobs_stay`: every job that waits is at a spot of its own pool.
- Theorem {lit}`jobs_keep_to_their_pool`: the same, container by container and for the threads.

Source: {lit}`thread_pool/worker.rs`, {lit}`thread_pool/scope.rs`,
{lit}`thread_pool/shared.rs`, {lit}`thread_pool/mod.rs`.
-/

namespace XynokConcurrency

/-- Pool a job was made for. -/
def Mem.poolOf (m : Mem) (j : Nat) : Nat :=
  match (m.jobs j).home with
  | .pool p => p
  | .scope s => (m.scopes s).root

/-- Pool a container is of. -/
def Place.pool (m : Mem) : Place → Nat
  | .deque (.slot p _) | .queue (.tasks p) | .queue (.inbox p _) => p
  | .deque (.helper s) | .queue (.helperInbox s) => (m.scopes s).root

/-- Pool a frame does something to. -/
def Frame.ofPool : Frame → Option Nat
  | .scope p _ _ | .shutdown p _ _ _ | .dropPool p _ | .newPool p _ => some p
  | f => f.pool

/-- Pool a frame handles jobs for: its own, or that of the frame below. -/
def Frame.serves (rest : List Frame) : Frame → Option Nat
  | .task _ _ | .dropJobs _ | .dropEnv _ _ => rest.head?.bind Frame.ofPool
  | f => f.ofPool

/-- Pool a thread handles jobs for. -/
def poolServed : List Frame → Option Nat
  | [] => none
  | f :: rest => f.serves rest

/-- Pool a spot is of. -/
def PoolState.poolAt (s : PoolState) : JobSpot → Option Nat
  | .deque d => some ((Place.deque d).pool s.mem)
  | .queue q => some ((Place.queue q).pool s.mem)
  | .hands t => poolServed (s.threads t).stack

theorem PoolState.poolAt_spot (s : PoolState) (x : Place) :
    s.poolAt x.spot = some (x.pool s.mem) := by
  cases x <;> rfl

section Frames

variable {t : Tid} {c : Choice} {m m' : Mem} {ctx ctx' : Context} {f f' g : Frame}
  {rest fs gs : List Frame} {q : QueueCall DequeId QueueId Nat} {p j : Nat} {x : Place}

theorem Frame.serves_of_pool (h : f.pool = some p) : f.serves rest = some p := by
  cases f <;> first | exact h | cases h

/-- A frame that waits carries no job. -/
theorem Frame.carries_of_awaits (h : f.awaits) : f.carries = [] := by
  cases f with
  | spawn p s pc => cases pc <;> first | rfl | cases h
  | assign p s caller index pc => cases pc <;> first | rfl | cases h
  | task j pc => cases pc <;> first | rfl | cases h
  | enqueue | dropJobs | dropEnv => cases h
  | _ => rfl

theorem Frame.call_serves (h : f.call m ctx = some (q, f')) : f'.serves rest = f.serves rest := by
  cases f with
  | enqueue => cases h; rfl
  | spawn p s pc =>
      cases pc <;> simp only [Frame.call, reduceCtorEq] at h
      split at h <;> cases h
      rfl
  | pop w pc | steal w tick pc | sleep p i pc => cases pc <;> cases h <;> rfl
  | _ => cases h

/-- What a frame does with a result it does for the same pool. -/
theorem Frame.answer_serves {r : QueueRes Nat} (hg : f.answer r = g :: gs)
    (hcarries : g.carries ≠ []) : g.serves (gs ++ rest) = f.serves rest := by
  unfold Frame.answer at hg
  split at hg <;> (try split at hg) <;> cases hg <;> first | rfl | exact absurd rfl hcarries

/-- A step of a frame hands on jobs of the same pool, but for the push of a new one. -/
theorem Frame.step_serves (hs : f.step t c m ctx = some (m', ctx', fs))
    (hcarries : fs.flatMap Frame.carries ≠ []) :
    (∀ u, f ≠ .user u) ∧ poolServed (fs ++ rest) = f.serves rest ∨
      ∃ u p, f = .user u ∧ poolServed (fs ++ rest) = some p ∧
        m'.jobs m.nextJob = .fresh (.pool p) := by
  have hnone : fs.flatMap Frame.carries = [] →
      (∀ u, f ≠ .user u) ∧ poolServed (fs ++ rest) = f.serves rest ∨
        ∃ u p, f = .user u ∧ poolServed (fs ++ rest) = some p ∧
          m'.jobs m.nextJob = .fresh (.pool p) := fun h => absurd h hcarries
  have htags := Frame.step_givesWay hs
  obtain ⟨g, hg, hgc⟩ : ∃ g ∈ fs, g.carries ≠ [] := by
    by_contra hno
    exact hcarries (List.flatMap_eq_nil_iff.mpr fun g hg => not_not.mp fun h => hno ⟨g, hg, h⟩)
  have htag := htags g hg
  cases f <;> simp only [Frame.step, keep_eq, keepMem_eq] at hs
  case user u =>
    split at hs
    · rename_i a
      rcases userStep_cases (keep_eq.mp hs).1 with ⟨o, hend⟩ | ⟨fs', hcall, rfl⟩
      · cases u <;> simp only [userEnd] at hend <;> (try split at hend) <;> cases hend <;>
          exact hnone rfl
      · cases a with
        | push p =>
            simp only [userCall] at hcall
            split at hcall <;> cases hcall
            exact .inr ⟨u, p, rfl, rfl, by simp⟩
        | scope p | runBatch p | spawn r | newPool cfg cores | dropPool p =>
            simp only [userCall, enterScope] at hcall
            split at hcall <;> cases hcall <;> exact hnone rfl
        | yield | finish | panic => cases hcall
    · cases hs
  case spawn p s pc =>
    obtain ⟨hs, rfl⟩ := hs
    cases pc <;> simp only [spawnStep] at hs <;> (try split at hs) <;> cases hs <;> exact .inl ⟨(by simp), rfl⟩
  case scope p s pc =>
    cases pc <;> simp only [scopeStep, reduceCtorEq] at hs <;> (try split at hs) <;> cases hs <;>
      first | exact .inl ⟨(by simp), rfl⟩ | exact hnone rfl
  case inboxes p s caller index pc =>
    obtain ⟨hs, rfl⟩ := hs
    cases pc <;> simp only [inboxesStep, reduceCtorEq] at hs <;> (try split at hs) <;> cases hs <;>
      first | exact .inl ⟨(by simp), rfl⟩ | exact hnone rfl
  case assign p s caller index pc =>
    obtain ⟨hs, rfl⟩ := hs
    cases pc <;> simp only [assignStep, reduceCtorEq] at hs <;> cases hs <;>
      first | exact .inl ⟨(by simp), rfl⟩ | exact hnone rfl
  case shutdown p handles count pc =>
    obtain ⟨hs, rfl⟩ := hs
    cases pc <;> simp only [shutdownStep, reduceCtorEq] at hs <;> (repeat' split at hs) <;>
      cases hs <;> first | exact .inl ⟨(by simp), rfl⟩ | exact hnone rfl
  case dropPool p pc =>
    obtain ⟨hs, rfl⟩ := hs
    cases pc <;> simp only [dropPoolStep, reduceCtorEq] at hs <;> cases hs <;>
      first | exact .inl ⟨(by simp), rfl⟩ | exact hnone rfl
  case dropJobs js =>
    obtain ⟨hs, rfl⟩ := hs
    cases js <;> cases hs
    · exact hnone rfl
    · exact .inl ⟨(by simp), rfl⟩
  case dropEnv j js =>
    cases hs
    exact .inl ⟨(by simp), rfl⟩
  case steal w tick pc =>
    obtain ⟨hs, -, -⟩ := hs
    cases pc <;> simp only [stealStep, reduceCtorEq] at hs <;> (repeat' split at hs) <;> cases hs <;>
      exact hnone rfl
  case task j pc =>
    obtain ⟨hs, -⟩ := hs
    cases pc <;> simp only [taskStep, reduceCtorEq] at hs <;> (repeat' split at hs) <;> cases hs <;>
      exact hnone rfl
  all_goals
    first
      | (cases hs; done)
      | (cases g <;> first | exact absurd rfl hgc | simp [FrameTag.next, Frame.tag] at htag)

end Frames

section Steps

variable {s s' : PoolState} {t : Tid} {l : Tid × Choice} {spot : JobSpot} {j : Nat}

/-- A thread that has something in its hands after a step handles jobs for the pool it
handled them for, or just pushed a job. -/
theorem step_served (hs : poolMachine.Reachable s) (hstep : poolMachine.step s l = some s')
    (hhands : s'.held (.hands l.1) ≠ []) :
    poolServed (s'.threads l.1).stack = poolServed (s.threads l.1).stack ∨
      ∃ u rest p, (s.threads l.1).stack = .user u :: rest ∧
        poolServed (s'.threads l.1).stack = some p ∧
        s'.mem.jobs s.mem.nextJob = .fresh (.pool p) := by
  obtain ⟨m, th, hth, rfl⟩ := Machine.ofThreads_step hstep
  have hlocal := threadStep_cases hth
  have hawaits := awaits hs l.1
  simp only [PoolState.held, PoolState.ops, Function.update_self] at hhands
  simp only [Function.update_self]
  revert hlocal
  generalize hthread : s.threads l.1 = th₀
  rw [hthread] at hawaits
  intro hlocal
  have hnone : ∀ fs : List Frame, (∀ f ∈ fs, f.awaits) → fs.flatMap Frame.carries = [] :=
    fun fs h => List.flatMap_eq_nil_iff.mpr fun f hf => Frame.carries_of_awaits (h f hf)
  cases hlocal with
  | @resume ctx o f rest =>
      refine absurd ?_ hhands
      simp only [Thread.carries, List.flatMap_append, (f.resume_carries o).1]
      rw [Frame.carries_of_awaits (hawaits f (by simp)),
        hnone rest fun g hg => hawaits g (by simp [hg])]
      rfl
  | call h => exact .inl (Frame.call_serves h)
  | @answer ctx f rest r =>
      obtain ⟨g, gs, hg⟩ := List.exists_cons_of_ne_nil (f.answer_ne_nil r)
      have hcarries : g.carries ≠ [] := fun h => hhands (by
        have hgs : ∀ x ∈ gs, x.awaits := by simpa [hg] using f.answer_awaits r
        simp only [Thread.carries, hg, List.cons_append, List.flatMap_cons, List.flatMap_append, h,
          hnone gs hgs, hnone rest hawaits]
        rfl)
      exact .inl (by rw [hg]; exact Frame.answer_serves hg hcarries)
  | @frame ctx ctx' f rest fs m' h =>
      have hcarries : fs.flatMap Frame.carries ≠ [] := fun hfs => hhands (by
        simp only [Thread.carries, List.flatMap_append, hfs, hnone rest hawaits]
        rfl)
      rcases Frame.step_serves h hcarries with ⟨-, h⟩ | ⟨u, p, rfl, hp, hjob⟩
      · exact .inl h
      · exact .inr ⟨u, rest, p, rfl, hp, hjob⟩
  | tick => exact .inl rfl

/-- A frame that works on a container, or takes jobs out of it, handles jobs for its
pool. -/
theorem PoolState.Reaches.served (hs : poolMachine.Reachable s) (h : s.Reaches t spot) :
    s.poolAt spot = poolServed (s.threads t).stack := by
  obtain rfl | ⟨x, rfl, f, rest, hstack, h⟩ := h
  · rfl
  rw [PoolState.poolAt_spot, hstack]
  refine Eq.symm (?_ : f.serves rest = _)
  have hhelper : ∀ p r, f.worker = some (.helper p r) → (s.mem.scopes r).root = p := by
    intro p r hf
    obtain ⟨-, above, below, pc, hbelow, hscope⟩ := scope_of_helper hs (show f ∈ (s.threads t).stack by simp [hstack]) hf
    obtain ⟨_, _, _, hfit, _⟩ := ((placed hs t).fits).of_mem
      (show .scope p r pc ∈ _ by rw [hbelow]; simp [hscope])
    exact hfit.2.2.1
  rcases h with h | ⟨h, hne⟩
  · match x, h with
    | .deque (.slot p i), h | .queue (.tasks p), h | .queue (.inbox p i), h =>
        exact Frame.serves_of_pool h
    | .deque (.helper r), ⟨p, h⟩ | .queue (.helperInbox r), ⟨p, h⟩ =>
        exact (Frame.serves_of_pool (Frame.pool_of_worker h)).trans (congrArg some (hhelper p r h).symm)
  · have hcreates : ¬ f.Creates s.mem x := fun hx =>
      hne (lyingIn_untouched hs (hx.untouched hs hstack))
    cases f with
    | scope p r pc =>
        obtain ⟨_, _, _, hfit, _⟩ := ((placed hs t).fits).of_mem (hstack ▸ List.mem_cons_self)
        have hroot : (s.mem.scopes r).root = p := hfit.2.2.1
        rcases h with rfl | rfl <;> exact congrArg some hroot.symm
    | shutdown p handles count pc =>
        cases pc with
        | dropTasks i | dropInbox i => obtain rfl := h; rfl
        | _ => exact absurd h hcreates
    | dropPool p pc =>
        cases pc with
        | tasks => obtain rfl := h; rfl
        | _ => exact absurd h hcreates
    | _ => exact absurd h hcreates

/-- A job that is made is in the hands of a thread that handles jobs for its pool. -/
theorem step_made (hs : poolMachine.Reachable s) (hstep : poolMachine.step s l = some s')
    (hnext : s'.mem.nextJob ≠ s.mem.nextJob) :
    s.mem.nextJob ∈ s'.held (.hands l.1) ∧
      poolServed (s'.threads l.1).stack = some (s'.mem.poolOf s.mem.nextJob) ∧
      ∀ r, (s'.mem.jobs s.mem.nextJob).home = .scope r → r < s'.mem.nextScope := by
  obtain ⟨m, th, hth, rfl⟩ := Machine.ofThreads_step hstep
  have hlocal := threadStep_cases hth
  have hfits := (placed hs l.1).fits
  revert hlocal
  generalize hthread : s.threads l.1 = th₀
  simp only [Function.update_self, PoolState.held, PoolState.ops, hthread] at hfits ⊢
  intro hlocal
  cases hlocal with
  | resume | call | answer | tick => exact absurd rfl hnext
  | @frame ctx ctx' f rest fs m' h =>
      have hstack : (s.threads l.1).stack = f :: rest := by rw [hthread]
      cases step_jobs hs hstack h with
      | quiet _ hm => exact absurd hm.fates.next hnext
      | push p hq ht hjobs hnext' hf hc hr hu =>
          obtain ⟨u, rfl⟩ := hu
          have hhands : fs.flatMap Frame.carries ≠ [] := by simp [hc]
          rcases Frame.step_serves h hhands with ⟨hu, -⟩ | ⟨-, p', -, hp', hjob⟩
          · exact absurd rfl (hu u)
          · refine ⟨?_, hp'.trans (congrArg some ?_), fun r hr => ?_⟩
            · simp [Thread.carries, hc]
            · simp [Mem.poolOf, hjob, Job.fresh]
            · simp [hjob, Job.fresh] at hr
      | spawn r hf hmake hc hr =>
          have hhands : fs.flatMap Frame.carries ≠ [] := by simp [hc]
          have hroot : f.serves rest = some (s.mem.scopes r).root ∧ r < s.mem.nextScope := by
            cases f with
            | spawn p r' pc =>
                cases pc <;> cases hmake
                obtain ⟨-, hlt, hroot⟩ := hfits.1
                exact ⟨congrArg some hroot.symm, hlt⟩
            | assign p r' caller index pc =>
                cases pc <;> cases hmake
                have hl := linked hs l.1
                rw [hthread] at hl
                obtain ⟨role, previous, hscope⟩ := hl.scope_of_publishes List.mem_cons_self rfl
                obtain ⟨_, _, _, hfit, _⟩ := hfits.of_mem hscope
                exact ⟨congrArg some hfit.2.2.1.symm, hfit.2.1⟩
            | _ => cases hmake
          rcases Frame.step_serves h hhands with ⟨-, hsame⟩ | ⟨u, -, rfl, -⟩
          · refine ⟨?_, hsame.trans (hroot.1.trans (congrArg some ?_)), fun r' hr' => ?_⟩
            · simp [Thread.carries, hc]
            · simp [Mem.poolOf, newJob, Job.fresh]
            · simp only [newJob, Function.update_self, Job.fresh, Home.scope.injEq] at hr'
              exact hr' ▸ hroot.2
          · cases hmake
      | start | finish => exact absurd rfl hnext
      | drop j => exact absurd (s.mem.dropJob_nextJob j) hnext
      | relock | truncate | place => exact absurd rfl hnext
      | clear xs _ _ hm => exact absurd hm.fates.next hnext

/-- The jobs of a scope name one that was opened, and every job is at a spot of its
pool. -/
structure JobsStay (s : PoolState) : Prop where
  home : ∀ j, j < s.mem.nextJob → ∀ r, (s.mem.jobs j).home = .scope r → r < s.mem.nextScope
  stays : ∀ l j, j ∈ s.held l → s.poolAt l = some (s.mem.poolOf j)

/-- What a job was made for does not change. -/
theorem JobChange.home {m m' : Mem} {new gone : List Nat} (h : JobChange t m m' new gone)
    (hj : j < m.nextJob) : (m'.jobs j).home = (m.jobs j).home := by
  cases h with
  | stay _ _ hhome => exact hhome j
  | made _ hjobs => rw [hjobs, Function.update_of_ne (by omega)]
  | went k _ hhome hsame =>
      rcases eq_or_ne j k with rfl | hne
      · exact hhome
      · rw [hsame j hne]

/-- A container that holds a job, or that a thread can get at, was there before. -/
theorem not_untouched {x : Place} (hs : poolMachine.Reachable s)
    (hx : j ∈ s.held x.spot ∨ s.Reaches t x.spot) : ¬ s.Untouched x := by
  intro hun
  have hempty := lyingIn_untouched hs hun
  rcases hx with hx | hx
  · exact List.ne_nil_of_mem (s.held_spot_subset x hx) hempty
  · obtain hx | ⟨y, hy, f, rest, hstack, hworks⟩ := hx
    · cases x <;> cases hx
    · obtain rfl := Place.spot_injective hy
      rcases hworks with hworks | ⟨-, hne⟩
      · exact hun.unused hs t f (hstack ▸ List.mem_cons_self) hworks
      · exact hne hempty

/-- The pool of a container that was there before does not change. -/
theorem poolAt_grows {x : Place} (hg : s.mem.Grows s'.mem) (hx : ¬ s.Untouched x) :
    s'.poolAt x.spot = s.poolAt x.spot := by
  rw [PoolState.poolAt_spot, PoolState.poolAt_spot]
  match x, hx with
  | .deque (.slot _ _), _ | .queue (.tasks _), _ | .queue (.inbox _ _), _ => rfl
  | .deque (.helper r), hx | .queue (.helperInbox r), hx =>
      exact congrArg some (hg.scopes r (not_le.mp fun h => hx (.inl h))).1

/-- Every step keeps the jobs in their pools. -/
theorem JobsStay.step (hs : poolMachine.Reachable s) (h : JobsStay s)
    (hstep : poolMachine.step s l = some s') : JobsStay s' := by
  have hs' : poolMachine.Reachable s' := hs.step trivial hstep
  have hg : s.mem.Grows s'.mem := grows_run hs (Machine.run_singleton.mpr hstep)
  obtain ⟨places, new, gone, hexchange, hchange, hreaches⟩ := step_exchange hs hstep
  have hpoolOf : ∀ j, j < s.mem.nextJob → s'.mem.poolOf j = s.mem.poolOf j := by
    intro j hj
    unfold Mem.poolOf
    rw [hchange.home hj]
    split
    · rfl
    · rename_i r hr
      exact (hg.scopes r (h.home j hj r hr)).1
  refine ⟨fun j hj r hr => ?_, fun spot j hj => ?_⟩
  · by_cases hlt : j < s.mem.nextJob
    · exact (h.home j hlt r (hchange.home hlt ▸ hr)).trans_le hg.nextScope
    · have hnext : j = s.mem.nextJob ∧ s'.mem.nextJob ≠ s.mem.nextJob := by
        cases hchange with
        | stay _ _ _ hnext | went _ _ _ _ hnext => omega
        | made _ _ hnext => omega
      obtain ⟨rfl, hne⟩ := hnext
      exact (step_made hs hstep hne).2.2 r hr
  · -- a job that was there stays with its pool, whether its spot changed or not
    have hold : (j ∈ s.held spot ∨ s.Reaches l.1 spot) → (∃ spot, j ∈ s.held spot) →
        s.poolAt spot = some (s.mem.poolOf j) → s'.poolAt spot = some (s'.mem.poolOf j) := by
      rintro hspot ⟨l₀, hl₀⟩ hpool
      rw [hpoolOf j (((jobsOk hs).held j).mp ⟨l₀, hl₀⟩).1, ← hpool]
      rcases spot.cases with ⟨x, rfl⟩ | ⟨u, rfl⟩
      · exact poolAt_grows hg (not_untouched hs hspot)
      · rcases eq_or_ne u l.1 with rfl | hu
        · rcases step_served hs hstep (List.ne_nil_of_mem hj) with h | ⟨u, rest, -, hstack, -⟩
          · exact h
          · simp [PoolState.poolAt, hstack, poolServed, Frame.serves, Frame.ofPool, Frame.pool] at hpool
        · obtain ⟨m, th, -, rfl⟩ := Machine.ofThreads_step hstep
          simp [PoolState.poolAt, hu]
    rcases hexchange.before hj with hkept | ⟨hspot, hnew | ⟨l₀, hl₀, hmoved⟩⟩
    · exact hold (.inl hkept) ⟨spot, hkept⟩ (h.stays spot j hkept)
    · cases hchange with
      | stay | went => cases hnew
      | made home hjobs hnext =>
          obtain rfl := List.mem_singleton.mp hnew
          obtain ⟨hhands, hserved, -⟩ := step_made hs hstep (by omega)
          rw [(jobsOk hs').once.apart hj hhands]
          exact hserved
    · refine hold (.inr (hreaches spot hspot)) ⟨l₀, hmoved⟩ ?_
      rw [(hreaches spot hspot).served hs, ← (hreaches l₀ hl₀).served hs]
      exact h.stays l₀ j hmoved

end Steps

/-- Every job that waits is at a spot of its own pool. -/
theorem jobs_stay {s : PoolState} (hs : poolMachine.Reachable s) : JobsStay s := by
  refine hs.invariant (I := JobsStay) (fun s hinit => ?_) fun s l s' hs h hstep => h.step hs hstep
  subst hinit
  have hok := JobsOk.initial
  exact ⟨fun j hj => absurd hj (Nat.not_lt_zero j),
    fun l j hj => absurd ((hok.held j).mp ⟨l, hj⟩).1 (Nat.not_lt_zero j)⟩

/-- No job changes pools.  What lies in the shared queue, an inbox or a deque of a pool was pushed
to that pool or spawned in one of its scopes, what lies with the helper of a scope belongs to the
pool of the scope, and a thread starts or drops a job only as a worker of the job's pool, in a
scope of it, or while it takes that pool down. -/
theorem jobs_keep_to_their_pool {s : PoolState} (hs : poolMachine.Reachable s) {j : Nat} :
    (∀ p, (∃ i, j ∈ s.held (.deque (.slot p i))) ∨ j ∈ s.held (.queue (.tasks p)) ∨
      (∃ i, j ∈ s.held (.queue (.inbox p i))) → s.mem.poolOf j = p) ∧
    (∀ r, j ∈ s.held (.deque (.helper r)) ∨ j ∈ s.held (.queue (.helperInbox r)) →
      s.mem.poolOf j = (s.mem.scopes r).root) ∧
    ∀ t f g rest, (s.threads t).stack = f :: g :: rest → j ∈ f.carries →
      g.ofPool = some (s.mem.poolOf j) ∨ f.ofPool = some (s.mem.poolOf j) := by
  have hstay := (jobs_stay hs).stays
  refine ⟨fun p hj => ?_, fun r hj => ?_, fun t f g rest hstack hj => ?_⟩
  · rcases hj with ⟨i, hj⟩ | hj | ⟨i, hj⟩ <;> exact (Option.some.inj (hstay _ _ hj)).symm
  · rcases hj with hj | hj <;> exact (Option.some.inj (hstay _ _ hj)).symm
  · have hserved := hstay (.hands t) j
      (List.mem_append_right _ (List.mem_flatMap.mpr ⟨f, by simp [hstack], hj⟩))
    simp only [PoolState.poolAt, hstack, poolServed] at hserved
    cases f <;> first | exact .inr hserved | exact .inl hserved

/-- A pool is built, and a job is pushed to it. -/
def pushedJob : List (Tid × Choice) :=
  hostedScope.take 7 ++ [(.ext 0, .user (.push 1))] ++ List.replicate 13 (.ext 0, .go)

/-- The job lies in the shared queue of its pool. -/
theorem pushed_job_keeps_to_its_pool :
    let s := poolMachine.after poolStart pushedJob
    0 ∈ s.held (.queue (.tasks 1)) ∧ s.mem.poolOf 0 = 1 := by
  have hrun : (poolMachine.run poolStart pushedJob).isSome := by decide +kernel
  have hs := Machine.Reachable.run (.init poolStart_init) (Machine.run_after hrun)
  have hheld : 0 ∈ (poolMachine.after poolStart pushedJob).held (.queue (.tasks 1)) := by
    decide +kernel
  exact ⟨hheld, (jobs_keep_to_their_pool hs).1 1 (.inr (.inl hheld))⟩

end XynokConcurrency
