import XynokConcurrency.ThreadPool.Contexts

/-!
# A call gives the thread back

A call of {lit}`scope` or {lit}`run_batch` ends on the stack it began on, and what
a stack stands for is its context and the host locks of its frames.  So the thread
comes out of a call as it went in, whatever ran on it in between.

Main results:

- Theorem {lit}`holdsHost_of_locked`: the host lock of a pool belongs to a frame
  of the thread that holds it.
- Theorem {lit}`call_gives_the_thread_back`: context and host lock at the end of a
  call are those at its beginning.
-/

namespace XynokConcurrency

/-! ## Who holds a host lock -/

/-- No host lock was taken, though some may have been given back. -/
def Mem.KeepsHosts (m m' : Mem) : Prop :=
  ∀ p, (m'.pools p).hostOwner = (m.pools p).hostOwner ∨ (m'.pools p).hostOwner.locked = none

section HostLocks

variable {t u : Tid} {m m' m'' : Mem} {ctx ctx' : Context} {f : Frame} {fs rest : List Frame}
  {th th' : Thread} {c : Choice} {p s : Nat}

theorem Mem.KeepsHosts.locked (h : m.KeepsHosts m')
    (hl : (m'.pools p).hostOwner.locked = some u) : (m.pools p).hostOwner.locked = some u := by
  rcases h p with heq | hnone
  · rwa [← heq]
  · rw [hnone] at hl
    cases hl

theorem Mem.SameLife.keepsHosts (h : m.SameLife m') : m.KeepsHosts m' :=
  fun p => .inl (h.hostOwner p)

theorem Mem.KeepsHosts.modPool {change : ThreadPoolInner → ThreadPoolInner}
    (h : (change (m.pools p)).hostOwner = (m.pools p).hostOwner ∨
      (change (m.pools p)).hostOwner.locked = none) : m.KeepsHosts (m.modPool p change) := by
  intro q
  rcases eq_or_ne q p with rfl | hq
  · simpa using h
  · simp [hq]

theorem Mem.KeepsHosts.trans (h : m.KeepsHosts m') (h' : m'.SameLife m'') : m.KeepsHosts m'' := by
  intro p
  rw [h'.hostOwner]
  exact h p

/-- Taking a host lock is the only change that is not a step back. -/
theorem CallOp.keepsHosts (ho : CallOp t m m') :
    m.KeepsHosts m' ∨ ∃ p, (m.pools p).hostOwner.locked = none ∧
      m' = m.modPool p fun inner =>
        { inner with hostOwner := { inner.hostOwner with locked := some t } } := by
  cases ho with
  | lockHost p h => exact .inr ⟨p, h, rfl⟩
  | openScope | closeScope | borrow | giveBack => exact .inl fun _ => .inl rfl
  | enter | leave | dropPool => exact .inl (.modPool (.inl rfl))
  | enterScope p isBatch h =>
      refine .inl fun q => ?_
      rcases eq_or_ne q p with rfl | hq
      · simp
      · simp [hq]
  | newPool totalWorker taskCapacity h =>
      refine .inl fun q => ?_
      rcases eq_or_ne q m.nextPool with rfl | hq
      · simp [ThreadPoolInner.new]
      · simp [hq]

theorem OwnerOp.keepsHosts (ho : OwnerOp t m m') : m.KeepsHosts m' := by
  cases ho with
  | unlockHost => exact .modPool (.inr rfl)
  | exit | spawnWorker | writeSlot | initStore | dropSlot => exact .modPool (.inl rfl)

/-- A step never takes a host lock for somebody else. -/
theorem LifeStep.locked (hs : LifeStep t m m') (hu : u ≠ t)
    (hl : (m'.pools p).hostOwner.locked = some u) : (m.pools p).hostOwner.locked = some u := by
  cases hs with
  | same hs => exact hs.keepsHosts.locked hl
  | own ho hs => exact (ho.keepsHosts.trans hs).locked hl
  | call ho hs =>
      rcases ho.keepsHosts with hk | ⟨q, -, rfl⟩
      · exact (hk.trans hs).locked hl
      · rw [hs.hostOwner] at hl
        rcases eq_or_ne p q with rfl | hp
        · simp only [Mem.modPool_pools, Function.update_self, Option.some.injEq] at hl
          exact (hu hl.symm).elim
        · simpa [hp] using hl

/-- Only a scope call takes a host lock. -/
theorem Frame.step_keepsHosts (hf : f.scopeId = none)
    (hs : f.step t c m ctx = some (m', ctx', fs)) : m.KeepsHosts m' := by
  intro p
  have hstep := Frame.step_pool hs p
  generalize m'.pools p = inner' at hstep ⊢
  cases hstep with
  | fresh => exact .inr rfl
  | host htag =>
      cases f with
      | scope => cases hf
      | _ => cases htag
  | _ => exact .inl rfl

/-- A host lock the thread holds is that of a frame on its stack. -/
def HostHeld (t : Tid) (m : Mem) (stack : List Frame) : Prop :=
  ∀ p, (m.pools p).hostOwner.locked = some t → ∃ g ∈ stack, g.holdsHost = some p

theorem HostHeld.replace (h : HostHeld t m (f :: rest)) (hm : m.KeepsHosts m')
    (hf : ∀ p, f.holdsHost = some p → ∃ g ∈ fs, g.holdsHost = some p) :
    HostHeld t m' (fs ++ rest) := by
  intro p hl
  obtain ⟨g, hg, hp⟩ := h p (hm.locked hl)
  rcases List.mem_cons.mp hg with rfl | hg
  · obtain ⟨k, hk, hp⟩ := hf p hp
    exact ⟨k, List.mem_append_left _ hk, hp⟩
  · exact ⟨g, List.mem_append_right _ hg, hp⟩

/-- A scope call keeps the host lock until its end. -/
theorem HostHeld.scopeStep {pc : ScopePc} {spurious : Bool} (h : HostHeld t m (.scope p s pc :: rest))
    (hs : scopeStep t spurious m ctx p s pc = some (m', ctx', fs)) : HostHeld t m' (fs ++ rest) := by
  have hkeep : ∀ pc', fs.getLast? = some (.scope p s pc') → pc'.role = pc.role →
      ∀ q, (Frame.scope p s pc).holdsHost = some q → ∃ g ∈ fs, g.holdsHost = some q := by
    intro pc' hlast hrole q hq
    exact ⟨_, List.mem_of_getLast? hlast, by simpa [Frame.holdsHost, hrole] using hq⟩
  cases pc with
  | start =>
      simp only [XynokConcurrency.scopeStep] at hs
      split at hs <;> cases hs <;> exact h.replace (fun _ => .inl rfl) (by rintro _ ⟨⟩)
  | tryHost previous =>
      simp only [XynokConcurrency.scopeStep] at hs
      split at hs <;> cases hs
      · intro q hl
        rcases eq_or_ne q p with rfl | hq
        · exact ⟨_, List.mem_cons_self, by simp [Frame.holdsHost, ScopePc.role]⟩
        · obtain ⟨g, hg, hp⟩ := h q (by simpa [hq] using hl)
          rcases List.mem_cons.mp hg with rfl | hg
          · cases hp
          · exact ⟨g, List.mem_cons_of_mem _ hg, hp⟩
      · exact h.replace (fun _ => .inl rfl) (by rintro _ ⟨⟩)
  | dropHostOwner role result =>
      simp only [XynokConcurrency.scopeStep] at hs
      split at hs <;> cases hs
      · intro q hl
        rcases eq_or_ne q p with rfl | hq
        · simp at hl
        · obtain ⟨g, hg, hp⟩ := h q (by simpa [hq] using hl)
          rcases List.mem_cons.mp hg with rfl | hg
          · simp only [Frame.holdsHost, ScopePc.role, if_true, Option.some.injEq] at hp
            exact (hq hp.symm).elim
          · exact ⟨g, List.mem_cons_of_mem _ hg, hp⟩
      · rename_i hrole
        refine h.replace (fun _ => .inl rfl) fun q hq => ?_
        simp only [Frame.holdsHost, ScopePc.role, Option.some.injEq] at hq
        split at hq
        · exact (hrole ‹_›).elim
        · cases hq
  | _ =>
      simp only [XynokConcurrency.scopeStep] at hs
      (repeat' split at hs) <;> cases hs <;>
        exact h.replace (fun _ => .inl rfl) (hkeep _ rfl rfl)

/-- Taking a result keeps the host lock. -/
theorem Frame.resume_holdsHost {o : Outcome} (h : f.holdsHost = some p) :
    ∃ g ∈ f.resume o, g.holdsHost = some p := by
  cases f with
  | scope q s pc =>
      cases pc <;>
        first
          | exact ⟨_, List.mem_singleton.mpr rfl, h⟩
          | cases o <;> exact ⟨_, List.mem_singleton.mpr rfl, h⟩
  | _ => cases h

/-- A step of the thread keeps its host locks on its stack. -/
theorem ThreadStep.hostHeld (hs : ThreadStep t c m th m' th') (h : HostHeld t m th.stack) :
    HostHeld t m' th'.stack := by
  cases hs with
  | @resume ctx o f rest =>
      have hret : ∀ p, (Frame.ret o).holdsHost = some p → ∃ g ∈ ([] : List Frame), g.holdsHost = some p := nofun
      have h' : HostHeld t m (f :: rest) := h.replace (fun _ => .inl rfl) hret
      exact h'.replace (fun _ => .inl rfl) fun _ => Frame.resume_holdsHost
  | @call ctx f f' rest q hc =>
      have hf : ∀ p, f.holdsHost = some p → ∃ g ∈ [f'], g.holdsHost = some p := by
        intro p hp
        cases f with
        | scope q s pc => cases hc
        | _ => cases hp
      exact h.replace (fun _ => .inl rfl) hf
  | @frame ctx ctx' f rest fs m' hf =>
      cases hid : f.scopeId with
      | some s =>
          cases f with
          | scope p s pc => exact h.scopeStep hf
          | _ => cases hid
      | none =>
          refine h.replace (Frame.step_keepsHosts hid hf) fun p hp => ?_
          cases f <;> first | cases hp | cases hid
  | @answer ctx f rest r =>
      refine h.replace (fun _ => .inl rfl) fun p hp => ?_
      cases f with
      | scope q s pc => exact ⟨_, List.mem_singleton.mpr rfl, hp⟩
      | _ => cases hp
  | tick hi hx => exact h

end HostLocks

/-- The host lock of a pool belongs to a frame of the thread that holds it. -/
theorem holdsHost_of_locked {s : PoolState} (hs : poolMachine.Reachable s) (t : Tid) :
    HostHeld t s.mem (s.threads t).stack := by
  refine Machine.thread_invariant (A := fun t m th => HostHeld t m th.stack) ?_ ?_ ?_ hs t
  · rintro s rfl t
    exact nofun
  · intro s t ch m th _ _ hA h
    exact (threadStep_cases h).hostHeld (hA t)
  · intro s t ch m th u hr _ hA hu h p hl
    have hlife := (threadStep_cases h).life (placed hr.reachable t) (linked hr.reachable t)
    exact hA u p (hlife.locked hu hl)

/-- A thread holds the host lock of a pool while a frame of its stack does. -/
theorem locked_iff_holdsHost {s : PoolState} (hs : poolMachine.Reachable s) {t : Tid} {p : Nat} :
    (s.mem.pools p).hostOwner.locked = some t ↔
      ∃ g ∈ (s.threads t).stack, g.holdsHost = some p :=
  ⟨holdsHost_of_locked hs t p, fun ⟨_, hg, hp⟩ => holdsHost_locked (placed hs t).fits hg hp⟩

/-! ## What a call stands on -/

/-- The call with scope {lit}`s` stands on {lit}`base`. -/
def StandsOn (s : Nat) (base : List Frame) : List Frame → Prop :=
  Everywhere fun rest f => f.scopeId = some s → rest = base

section Base

variable {t : Tid} {m m' : Mem} {ctx ctx' : Context} {f : Frame} {fs rest base : List Frame}
  {th th' : Thread} {c : Choice} {s : Nat}

/-- A call stands where it stood while its frames come and go above. -/
theorem StandsOn.replace (h : StandsOn s base (f :: rest))
    (hfs : Everywhere (fun above g => g.scopeId = some s → above = [] ∧ f.scopeId = some s) fs) :
    StandsOn s base (fs ++ rest) := by
  refine everywhere_append.mpr ⟨hfs.mono fun g above himp hg => ?_, h.2⟩
  obtain ⟨rfl, hf⟩ := himp hg
  exact h.1 hf

/-- Frames among which the scope call is not. -/
theorem everywhere_of_scopeId (h : ∀ g ∈ fs, g.scopeId ≠ some s) {Q : List Frame → Frame → Prop} :
    Everywhere (fun above g => g.scopeId = some s → Q above g) fs :=
  .of_forall fun g hg _ hid => (h g hg hid).elim

/-- User code opens scopes of its own only. -/
theorem userStep_standsOn {u : UserCode} {a : UserAct} (hs : userStep t m u a = some (m', fs))
    (hlt : s < m.nextScope) :
    Everywhere (fun above g => g.scopeId = some s → above = [] ∧ (Frame.user u).scopeId = some s) fs := by
  have hcall : ∀ fs', userCall t m a = some (m', fs') →
      Everywhere (fun above g => g.scopeId = some s → above = [] ∧ (Frame.user u).scopeId = some s)
        (fs' ++ [.user u]) := by
    intro fs' hc
    cases a <;> simp only [userCall, enterScope] at hc <;> (try split at hc) <;> cases hc <;>
      simp [Frame.scopeId, hlt.ne']
  have hend : ∀ o, userEnd m u o = some (m', fs) → ∀ g ∈ fs, g.scopeId ≠ some s := by
    intro o he
    unfold userEnd at he
    split at he <;> (try split at he) <;> cases he <;> simp [Frame.scopeId]
  unfold userStep at hs
  split at hs
  · split at hs <;> exact everywhere_of_scopeId (hend _ hs)
  · split at hs
    · exact everywhere_of_scopeId (hend _ hs)
    · cases hs
  · exact everywhere_of_scopeId (hend _ hs)
  · split at hs
    · rename_i hc
      cases hs
      exact hcall _ hc
    · cases hs

/-- A step of a frame leaves a call where it stands, and opens others only. -/
theorem Frame.step_standsOn (hs : f.step t c m ctx = some (m', ctx', fs)) (hlt : s < m.nextScope) :
    Everywhere (fun above g => g.scopeId = some s → above = [] ∧ f.scopeId = some s) fs := by
  have hnext := Frame.step_givesWay hs
  cases f with
  | user u =>
      simp only [Frame.step] at hs
      split at hs
      · exact userStep_standsOn (keep_eq.mp hs).1 hlt
      · cases hs
  | scope p r pc =>
      simp only [Frame.step] at hs
      cases pc <;> simp only [scopeStep] at hs <;> (repeat' split at hs) <;> cases hs <;>
        simp [Frame.scopeId]
  | _ =>
      refine everywhere_of_scopeId fun g hg hid => ?_
      have htag := hnext g hg
      cases g with
      | scope => simp [Frame.tag, FrameTag.next] at htag
      | _ => cases hid

/-- A step of the thread leaves a call where it stands. -/
theorem ThreadStep.standsOn (hs : ThreadStep t c m th m' th') (hlt : s < m.nextScope)
    (h : StandsOn s base th.stack) : StandsOn s base th'.stack := by
  cases hs with
  | @resume ctx o f rest =>
      refine StandsOn.replace (f := f) h.2 ?_
      unfold Frame.resume
      split <;> try split
      all_goals simp [Frame.scopeId]
  | @call ctx f f' rest q hc =>
      change StandsOn s base ([f'] ++ rest)
      refine h.replace ?_
      unfold Frame.call at hc
      split at hc <;> (try split at hc) <;> cases hc <;> simp [Frame.scopeId]
  | frame hf => exact h.replace (Frame.step_standsOn hf hlt)
  | @answer ctx f rest r =>
      refine StandsOn.replace (f := f) h ?_
      unfold Frame.answer
      split <;> try split
      all_goals simp [Frame.scopeId]
  | tick => exact h

end Base

/-- A call stands where it stood for the rest of the run. -/
theorem standsOn_run {s₁ s₂ : PoolState} {t : Tid} {s : Nat} {base : List Frame}
    {ls : List (Tid × Choice)} (hr : poolMachine.Reachable s₁) (hlt : s < s₁.mem.nextScope)
    (h : StandsOn s base (s₁.threads t).stack) (hrun : poolMachine.run s₁ ls = some s₂) :
    StandsOn s base (s₂.threads t).stack := by
  have hI : s < s₂.mem.nextScope ∧ StandsOn s base (s₂.threads t).stack := by
    refine Machine.run_invariant
      (I := fun σ => s < σ.mem.nextScope ∧ StandsOn s base (σ.threads t).stack) ?_ hr ⟨hlt, h⟩ hrun
    rintro σ l σ' hσ ⟨hlt, h⟩ hstep
    obtain ⟨m, th, hth, rfl⟩ := Machine.ofThreads_step hstep
    have hcases := threadStep_cases hth
    have hgrows := (hcases.life (placed hσ l.1) (linked hσ l.1)).grows
    refine ⟨hlt.trans_le hgrows.nextScope, ?_⟩
    by_cases ht : t = l.1
    · subst ht
      simpa using hcases.standsOn hlt h
    · simpa [Function.update_of_ne ht] using h
  exact hI.2

/-- Facts that never change back do not do so over a run. -/
theorem grows_run {s₁ s₂ : PoolState} {ls : List (Tid × Choice)} (hr : poolMachine.Reachable s₁)
    (hrun : poolMachine.run s₁ ls = some s₂) : s₁.mem.Grows s₂.mem := by
  refine Machine.run_invariant (I := fun σ => s₁.mem.Grows σ.mem) ?_ hr (.refl _) hrun
  rintro σ l σ' hσ h hstep
  obtain ⟨m, th, hth, rfl⟩ := Machine.ofThreads_step hstep
  exact h.trans ((threadStep_cases hth).life (placed hσ l.1) (linked hσ l.1)).grows

/-! ## The end of a call -/

/-- A call of {lit}`scope` or {lit}`run_batch` by user code. -/
theorem scope_call {s₀ s₁ : PoolState} {t : Tid} {p : Nat} {a : UserAct} {u : UserCode}
    {below : List Frame} (hs : poolMachine.Reachable s₀)
    (hstack : (s₀.threads t).stack = .user u :: below) (ha : a = .scope p ∨ a = .runBatch p)
    (hcall : poolMachine.step s₀ (t, .user a) = some s₁) :
    (s₁.threads t).stack = .scope p s₀.mem.nextScope .start :: .callEnd p :: .user u :: below ∧
      s₁.mem.nextScope = s₀.mem.nextScope + 1 := by
  have hop : (s₀.threads t).op = .idle := by
    rcases calling hs t with hop | ⟨f, rest, q, heq, hwaits, -⟩
    · exact hop
    · rw [hstack] at heq
      cases heq
      exact hwaits.elim
  obtain ⟨m, th, hth, rfl⟩ := Machine.ofThreads_step hcall
  have hlocal := threadStep_cases hth
  simp only [Function.update_self]
  revert hlocal
  generalize s₀.threads t = th₀ at hstack hop
  intro hlocal
  cases hlocal with
  | call h => cases hstack; cases h
  | resume => cases hstack
  | answer => cases hop
  | tick hi =>
      simp only at hop
      subst hop
      cases hi
  | frame h =>
      obtain ⟨rfl, rfl⟩ := List.cons.inj hstack
      simp only [Frame.step] at h
      obtain ⟨hu, -⟩ := keep_eq.mp h
      obtain rfl | rfl := ha <;> simp only [userStep, userCall, enterScope] at hu
      all_goals
        split at hu
        · rename_i hen
          split at hen <;> cases hen
          cases hu
          exact ⟨rfl, rfl⟩
        · cases hu

/-- The end of a call of {lit}`scope` or {lit}`run_batch`, on whatever way, finds
the thread on the stack and with the context it had at the call, and in possession
of the host lock exactly if it was then. -/
theorem call_gives_the_thread_back {s₀ s₁ s₂ s₃ : PoolState} {t : Tid} {p : Nat} {a : UserAct}
    {u : UserCode} {c : Choice} {ls : List (Tid × Choice)} {pc : ScopePc} {o : Outcome}
    {below rest : List Frame} (hs : poolMachine.Reachable s₀)
    (hstack : (s₀.threads t).stack = .user u :: below) (ha : a = .scope p ∨ a = .runBatch p)
    (hcall : poolMachine.step s₀ (t, .user a) = some s₁) (hrun : poolMachine.run s₁ ls = some s₂)
    (hend : poolMachine.step s₂ (t, c) = some s₃)
    (hframe : (s₂.threads t).stack = .scope p s₀.mem.nextScope pc :: rest)
    (hret : (s₃.threads t).stack = .ret o :: rest) :
    rest = .callEnd p :: (s₀.threads t).stack ∧ (s₃.threads t).ctx = (s₀.threads t).ctx ∧
      ((s₃.mem.pools p).hostOwner.locked = some t ↔
        (s₀.mem.pools p).hostOwner.locked = some t) := by
  have h₁ : poolMachine.Reachable s₁ := .step hs trivial hcall
  have h₂ : poolMachine.Reachable s₂ := h₁.run hrun
  have h₃ : poolMachine.Reachable s₃ := .step h₂ trivial hend
  obtain ⟨hstack₁, hnext⟩ := scope_call hs hstack ha hcall
  have hplaced := placed hs t
  have hbase : rest = .callEnd p :: (s₀.threads t).stack := by
    have hstands : StandsOn s₀.mem.nextScope (.callEnd p :: (s₀.threads t).stack)
        (s₁.threads t).stack := by
      rw [hstack₁, hstack]
      refine ⟨fun _ => rfl, nofun, nofun, everywhere_of_scopeId fun g hg hid => ?_⟩
      exact (scopeId_lt hplaced.fits (hstack ▸ List.mem_cons_of_mem _ hg) hid).false
    have hstands₂ := standsOn_run h₁ (hnext ▸ Nat.lt_succ_self _) hstands hrun
    rw [hframe] at hstands₂
    exact hstands₂.1 rfl
  have hgrows : s₀.mem.Grows s₃.mem := by
    have hfirst : poolMachine.run s₀ [(t, .user a)] = some s₁ := by simp [Machine.run, hcall]
    have hlast : poolMachine.run s₂ [(t, c)] = some s₃ := by simp [Machine.run, hend]
    exact ((grows_run hs hfirst).trans (grows_run h₁ hrun)).trans (grows_run h₂ hlast)
  refine ⟨hbase, ?_, ?_⟩
  · rw [(placed h₃ t).context, hret, hbase, hplaced.context]
    have hsame : contextOf s₃.mem (s₀.threads t).stack = contextOf s₀.mem (s₀.threads t).stack :=
      contextOf_grows hgrows hplaced.fits
    exact hsame
  · rw [locked_iff_holdsHost h₃, locked_iff_holdsHost hs, hret, hbase]
    simp [Frame.holdsHost]

/-- A pool of one worker is built, and nothing runs on it. -/
def builtPool : List (Tid × Choice) :=
  hostedScope.take 7

/-- A scope is opened on it. -/
def openedScope : List (Tid × Choice) :=
  builtPool ++ [(.ext 0, .user (.scope 1))]

/-- Its closure ends, and the caller waits for no jobs. -/
def endingScope : List (Tid × Choice) :=
  List.replicate 3 (.ext 0, .go) ++ [(.ext 0, .user .finish)] ++ List.replicate 10 (.ext 0, .go)

/-- The caller of a hosted scope comes out of it with neither the host's context nor
its lock. -/
theorem hosted_scope_gives_the_thread_back :
    let s₀ := poolMachine.after poolStart builtPool
    let s₃ := poolMachine.after poolStart (openedScope ++ endingScope ++ [(.ext 0, .go)])
    (s₃.threads (.ext 0)).ctx = (s₀.threads (.ext 0)).ctx ∧
      ((s₃.mem.pools 1).hostOwner.locked = some (.ext 0) ↔
        (s₀.mem.pools 1).hostOwner.locked = some (.ext 0)) := by
  have hrun₀ : (poolMachine.run poolStart builtPool).isSome := by decide +kernel
  have hrun₁ : (poolMachine.run poolStart openedScope).isSome := by decide +kernel
  have hrun₂ : (poolMachine.run poolStart (openedScope ++ endingScope)).isSome := by decide +kernel
  have hrun₃ : (poolMachine.run poolStart
      (openedScope ++ endingScope ++ [(.ext 0, .go)])).isSome := by
    decide +kernel
  have hstack₀ : ((poolMachine.after poolStart builtPool).threads (.ext 0)).stack = [.user .main] := by
    decide +kernel
  have hstack₂ : ((poolMachine.after poolStart (openedScope ++ endingScope)).threads (.ext 0)).stack =
      [.scope 1 (poolMachine.after poolStart builtPool).mem.nextScope (.dropHostOwner .host .unit),
        .callEnd 1, .user .main] := by
    decide +kernel
  have hstack₃ : ((poolMachine.after poolStart
      (openedScope ++ endingScope ++ [(.ext 0, .go)])).threads (.ext 0)).stack =
        [.ret .unit, .callEnd 1, .user .main] := by
    decide +kernel
  have hs₀ := Machine.Reachable.run (.init poolStart_init) (Machine.run_after hrun₀)
  have hback := call_gives_the_thread_back hs₀ hstack₀ (.inl rfl)
    (Machine.run_singleton.mp (Machine.run_after_append hrun₁)) (Machine.run_after_append hrun₂)
    (Machine.run_singleton.mp (Machine.run_after_append hrun₃)) hstack₂ hstack₃
  exact hback.2

end XynokConcurrency
