import XynokConcurrency.ThreadPool.BatchStacks
import XynokConcurrency.ThreadPool.JobPools

/-!
# The iterator of a batch

The frames of a batch know whether its iterator has panicked, and what with: those that wait
for it are told by the results that reach them, and all others run only while it has not.

Main results:

- Theorem {lit}`jobOf_before`: a job of a scope is made by a frame that makes jobs of it.
- Theorem {lit}`iterators`: what the frames know of an iterator is true.
- Theorem {lit}`no_jobs_of_early`: a scope that has not begun has no jobs.

Source: {lit}`thread_pool/mod.rs`, {lit}`thread_pool/shared.rs`.
-/

namespace XynokConcurrency

/-! ## The jobs of a scope -/

/-- The jobs that were made for scope {lit}`r`. -/
def Mem.JobOf (m : Mem) (r j : Nat) : Prop :=
  j < m.nextJob ∧ (m.jobs j).home = .scope r

section Jobs

variable {s s' : PoolState} {l : Tid × Choice} {r j : Nat}

/-- A job stays with its scope. -/
theorem Mem.JobOf.step (h : s.mem.JobOf r j) (hs : poolMachine.Reachable s)
    (hstep : poolMachine.step s l = some s') : s'.mem.JobOf r j := by
  obtain ⟨_, _, _, _, hchange, -⟩ := step_exchange hs hstep
  refine ⟨?_, (hchange.home h.1).trans h.2⟩
  cases hchange with
  | stay _ _ _ hnext | went _ _ _ _ hnext => exact hnext ▸ h.1
  | made _ _ hnext => exact hnext ▸ h.1.trans (Nat.lt_succ_self _)

/-- A job of a scope was there before a step, or a frame that makes jobs of the scope has just
made it. -/
theorem jobOf_before (hs : poolMachine.Reachable s) (hstep : poolMachine.step s l = some s')
    (h : s'.mem.JobOf r j) :
    s.mem.JobOf r j ∨
      j = s.mem.nextJob ∧ s'.mem = newJob s.mem r ∧
        ∃ f rest fs ctx', (s.threads l.1).stack = f :: rest ∧ f.Makes r ∧
          f.step l.1 l.2 s.mem (s.threads l.1).ctx = some (s'.mem, ctx', fs) ∧
          (s'.threads l.1).stack = fs ++ rest := by
  obtain ⟨_, _, _, _, hchange, -⟩ := step_exchange hs hstep
  by_cases hold : j < s.mem.nextJob
  · exact .inl ⟨hold, (hchange.home hold).symm.trans h.2⟩
  · have hlocal := (thread_step hstep).1
    revert hlocal
    generalize hthread : s.threads l.1 = th₀
    generalize s'.threads l.1 = th₁
    generalize hmem : s'.mem = m'
    rw [hmem] at h
    intro hlocal
    cases hlocal with
    | resume | call | answer | tick => exact absurd h.1 hold
    | @frame ctx ctx' f rest fs m' hf =>
        have hstack : (s.threads l.1).stack = f :: rest := by rw [hthread]
        have hframe : ∀ hmake : f.Makes r, m' = newJob s.mem r →
            j = s.mem.nextJob ∧ m' = newJob s.mem r ∧
              ∃ f' rest' fs' ctx'', f :: rest = f' :: rest' ∧ f'.Makes r ∧
                f'.step l.1 l.2 s.mem ctx = some (m', ctx'', fs') ∧ fs ++ rest = fs' ++ rest' := by
          intro hmake hm
          have hlt : j < s.mem.nextJob + 1 := by
            have hj := h.1
            rwa [hm] at hj
          exact ⟨by omega, hm, f, rest, fs, ctx', rfl, hmake, hf, rfl⟩
        cases step_jobs hs hstack hf with
        | quiet _ hm => exact absurd (hm.fates.next ▸ h.1) hold
        | push p hq ht hjobs hnext =>
            have hj : j = s.mem.nextJob := by
              have hj := h.1
              rw [hnext] at hj
              omega
            have hhome := h.2
            rw [hjobs, hj, Function.update_self] at hhome
            cases hhome
        | spawn r' _ hmake =>
            have hlt : j < s.mem.nextJob + 1 := h.1
            obtain rfl : j = s.mem.nextJob := by omega
            have hhome := h.2
            simp only [newJob, Function.update_self, Job.fresh, Home.scope.injEq] at hhome
            subst hhome
            exact .inr (hframe hmake rfl)
        | start | finish | relock | truncate | place => exact absurd h.1 hold
        | drop k => exact absurd (s.mem.dropJob_nextJob k ▸ h.1) hold
        | clear xs _ _ hm => exact absurd (hm.fates.next ▸ h.1) hold

end Jobs

/-! ## What is known of the iterator -/

/-- What a result is thrown with. -/
def Outcome.payload : Outcome → Option Nat
  | .panic x => some x
  | _ => none

theorem Outcome.payload_of_returns (o : Outcome) (h : ∀ x, o = .panic x → False) :
    o.payload = none := by
  cases o with
  | panic x => exact (h x rfl).elim
  | _ => rfl

/-- The batch a frame waits for, which comes to nothing when its iterator panics. -/
def Frame.expects : Frame → Option Nat
  | .assign _ r _ _ .waiting | .inboxes _ r _ _ (.nested _ _) | .publish _ r .assigning
  | .batch _ r .publishing => some r
  | _ => none

/-- What a frame knows of the iterator of a batch: that it has not panicked, or what it
panicked with. -/
def Frame.knows (rest : List Frame) : Frame → Option (Nat × Option Nat)
  | .user (.iterNext r) | .user (.closure r) => some (r, none)
  | .scope _ r .start | .scope _ r (.tryHost _) | .scope _ r (.enter _ _) => some (r, none)
  | .batch _ r .intoIter | .batch _ r .caller => some (r, none)
  | .inboxes _ r _ _ pc => match pc with
      | .enter | .lock | .originalLen _ => some (r, none)
      | .nested _ _ => none
      | .truncate _ _ x | .dropping _ x => some (r, some x)
      | .storeLen _ o | .unlock _ o => some (r, o.payload)
  | .assign _ r _ _ pc => match pc with
      | .waiting => none
      | _ => some (r, none)
  | .publish _ r pc => match pc with
      | .assigning => none
      | _ => some (r, none)
  | .ret o => (rest.head?.bind Frame.expects).map fun r => (r, o.payload)
  | _ => none

/-- What a frame knows of an iterator is true. -/
def Frame.Informed (m : Mem) (rest : List Frame) (f : Frame) : Prop :=
  ∀ r v, f.knows rest = some (r, v) → (m.scopes r).iterPanic = v

section Iterators

variable {t u : Tid} {c : Choice} {m m' : Mem} {ctx ctx' : Context} {f f' g : Frame}
  {fs rest stack : List Frame} {th th' : Thread} {p q r : Nat} {o : Outcome}

theorem Frame.informed_of_knows (h : f.knows rest = none) : f.Informed m rest := by
  intro r v hv
  rw [h] at hv
  cases hv

/-- What was known stays true while the iterators do nothing. -/
theorem Frame.Informed.congr (h : f.Informed m rest)
    (hm : ∀ r, (m'.scopes r).iterPanic = (m.scopes r).iterPanic) : f.Informed m' rest :=
  fun r v hv => (hm r).trans (h r v hv)

/-- A frame that expects the batch is told what the iterator did. -/
theorem Frame.Informed.of_ret (h : (Frame.ret o).Informed m (f :: rest)) (hf : f.expects = some r) :
    (m.scopes r).iterPanic = o.payload :=
  h r o.payload (by simp [Frame.knows, hf])

/-- Nothing is expected of a frame of another function. -/
theorem Linked.unexpected (hl : Linked t (f :: rest)) (hret : f.tag ≠ .ret)
    (hpub : f.publishes = none ∨ f.tag = .batch) (hiter : ∀ r, f ≠ .user (.iterNext r)) :
    rest.head?.bind Frame.expects = none := by
  cases rest with
  | nil => rfl
  | cons g below =>
      have hunder : f.Under g := hl.1
      have htag := hunder.tag_mem.resolve_left hret
      refine Option.eq_none_iff_forall_ne_some.mpr fun r hexp => ?_
      have hother : f.tag ≠ .inboxes ∧ f.tag ≠ .assign ∧ f.tag ≠ .publish := by
        cases f <;> simp_all [Frame.tag, Frame.publishes]
      simp only [List.head?_cons, Option.bind_some] at hexp
      unfold Frame.expects at hexp
      split at hexp <;> simp [Frame.bears, hother] at htag hexp
      -- only the iterator runs on an assignment that waits
      cases f <;> cases htag
      rename_i u
      cases u with
      | iterNext r => exact hiter r rfl
      | main => exact hunder
      | body => rcases hunder with h | ⟨_, h⟩ <;> cases h
      | closure =>
          obtain ⟨_, _, _, h⟩ := hunder
          cases h
      | intoIter =>
          obtain ⟨_, h⟩ := hunder
          cases h

/-- What expects a frame of a batch expects that batch. -/
theorem Linked.expected (hl : Linked t (f :: rest))
    (hf : (∃ p, f.publishes = some (p, r)) ∨ f = .user (.iterNext r))
    (hexp : rest.head?.bind Frame.expects = some q) : q = r := by
  cases rest with
  | nil => cases hexp
  | cons g below =>
      rcases hf with ⟨p, hf⟩ | rfl
      · rcases Frame.Under.below_publishes hl.1 hf with ⟨role, previous, rfl⟩ | hg
        · cases hexp
        · unfold Frame.Publishing at hg
          split at hg <;> first
            | exact hg.elim
            | (obtain ⟨rfl, rfl⟩ := hg; exact (Option.some.inj hexp).symm)
      · obtain ⟨_, _, _, rfl⟩ := hl.1
        exact (Option.some.inj hexp).symm

/-- The result of a frame of which nothing is expected. -/
theorem Linked.ret_informed (hl : Linked t (f :: rest)) (hret : f.tag ≠ .ret)
    (hpub : f.publishes = none ∨ f.tag = .batch) (hiter : ∀ r, f ≠ .user (.iterNext r)) :
    (Frame.ret o).Informed m rest :=
  Frame.informed_of_knows (by simp [Frame.knows, hl.unexpected hret hpub hiter])

/-- The result of a frame of a batch. -/
theorem Linked.ret_of_batch (hl : Linked t (f :: rest))
    (hf : (∃ p, f.publishes = some (p, r)) ∨ f = .user (.iterNext r))
    (h : (m.scopes r).iterPanic = o.payload) : (Frame.ret o).Informed m rest := by
  intro q v hv
  simp only [Frame.knows, Option.map_eq_some_iff, Prod.mk.injEq] at hv
  obtain ⟨q', hexp, rfl, rfl⟩ := hv
  rw [hl.expected hf hexp, h]

/-- Taking a result. -/
theorem Frame.Informed.resume (h : (Frame.ret o).Informed m (f :: rest)) (hl : Linked t (f :: rest))
    (hf : f.Informed m rest) :
    Everywhere (fun above g => g.Informed m (above ++ rest)) (f.resume o) := by
  have hnone : ∀ {g : Frame} {above : List Frame}, g.knows above = none → g.Informed m above :=
    fun h => Frame.informed_of_knows h
  have hsome : ∀ {r : Nat} {g : Frame} {above : List Frame} {v : Option Nat},
      g.knows above = some (r, v) → (m.scopes r).iterPanic = v → g.Informed m above := by
    intro r g above v hg hr r' v' hv
    rw [hg] at hv
    cases hv
    exact hr
  unfold Frame.resume
  split <;> (try split)
  all_goals
    first
      | exact ⟨hf, trivial⟩
      | exact ⟨hnone rfl, trivial⟩
      | exact ⟨hnone rfl, hnone rfl, trivial⟩
      | exact ⟨hl.ret_informed (by simp [Frame.tag]) (.inl rfl) (by simp), trivial⟩
      | exact ⟨hl.ret_informed (by simp [Frame.tag]) (.inr rfl) (by simp), trivial⟩
      | exact ⟨hsome rfl (h.of_ret rfl), trivial⟩
      | exact ⟨hl.ret_of_batch (.inl ⟨_, rfl⟩) (h.of_ret rfl), trivial⟩
      | exact ⟨hl.ret_of_batch (.inl ⟨_, rfl⟩) ((h.of_ret rfl).trans (o.payload_of_returns ‹_›)), trivial⟩
      | exact ⟨hsome rfl ((h.of_ret rfl).trans (o.payload_of_returns ‹_›)), trivial⟩

/-- Starting a queue operation. -/
theorem Frame.Informed.call {q : QueueCall DequeId QueueId Nat} (hc : f.call m ctx = some (q, f')) :
    f'.Informed m rest := by
  unfold Frame.call at hc
  split at hc <;> (try split at hc) <;> cases hc <;> exact informed_of_knows rfl

/-- Taking the result of a queue operation. -/
theorem Frame.Informed.answer {res : QueueRes Nat} (hl : Linked t (f :: rest))
    (hf : f.Informed m rest) :
    Everywhere (fun above g => g.Informed m (above ++ rest)) (f.answer res) := by
  unfold Frame.answer
  split <;> (try split)
  all_goals
    first
      | exact ⟨hf, trivial⟩
      | exact ⟨informed_of_knows rfl, trivial⟩
      | exact ⟨informed_of_knows rfl, informed_of_knows rfl, trivial⟩
      | exact ⟨hl.ret_informed (by simp [Frame.tag]) (.inl rfl) (by simp), trivial⟩

/-- What one step can do to the iterator of a batch. -/
theorem Frame.step_iterPanic (hs : f.step t c m ctx = some (m', ctx', fs)) (r : Nat) :
    (m'.scopes r).iterPanic = (m.scopes r).iterPanic ∨
      (r = m.nextScope ∧ (m'.scopes r).iterPanic = none ∧ ∃ u, f = .user u) ∨
        ∃ x, f = .user (.iterNext r) ∧ fs = [.ret (.panic x)] ∧ (m'.scopes r).iterPanic = some x := by
  have hstep := Frame.step_scope hs r
  revert hstep
  generalize m'.scopes r = scope
  intro hstep
  cases hstep with
  | fresh hf hr => exact .inr (.inl ⟨hr, rfl, hf⟩)
  | iterPanic x hf hfs => exact .inr (.inr ⟨x, hf, hfs, rfl⟩)
  | _ => exact .inl rfl

/-- User code. -/
theorem userStep_informed {v : UserCode} {a : UserAct} (hl : Linked t (.user v :: rest))
    (hs : userStep t m v a = some (m', fs)) (hf : (Frame.user v).Informed m rest)
    (hlt : ∀ r, v = .iterNext r ∨ v = .closure r → r < m.nextScope) :
    Everywhere (fun above g => g.Informed m' (above ++ rest)) fs := by
  have hret : ∀ (o : Outcome), (∀ r, v ≠ .iterNext r) → (Frame.ret o).Informed m' rest :=
    fun o hv => hl.ret_informed (by simp [Frame.tag]) (.inl rfl) fun r h => by
      cases h
      exact hv r rfl
  obtain ⟨o, h⟩ | ⟨fs', h, rfl⟩ := userStep_cases hs
  · cases v with
    | main => cases h; exact trivial
    | body j => cases h; exact ⟨hret o (by simp), trivial⟩
    | closure s =>
        simp only [userEnd] at h
        split at h <;> cases h
        exact ⟨hret o (by simp), trivial⟩
    | intoIter s => cases h; exact ⟨hret o (by simp), trivial⟩
    | iterNext s =>
        have hnone : (m.scopes s).iterPanic = none := hf s none rfl
        cases o <;> cases h <;> refine ⟨hl.ret_of_batch (.inr rfl) ?_, trivial⟩
        · exact hnone
        · exact hnone
        · simp [Outcome.payload]
  · have hself : (Frame.user v).Informed m' rest := by
      intro r w hw
      rw [← hf r w hw]
      have hr : r < m.nextScope := by
        cases v <;> simp only [Frame.knows, reduceCtorEq, Option.some.injEq, Prod.mk.injEq] at hw <;>
          obtain ⟨rfl, -⟩ := hw
        · exact hlt _ (.inr rfl)
        · exact hlt _ (.inl rfl)
      have hstep := userStep_scope (r := r) hs
      revert hstep
      generalize m'.scopes r = scope
      intro hstep
      cases hstep with
      | fresh _ h => exact absurd h hr.ne
      | iterPanic x _ hfs => simpa using congrArg List.getLast? hfs
      | _ => rfl
    have hnone : ∀ {g : Frame} {above : List Frame}, g.knows above = none → g.Informed m' above :=
      fun h => Frame.informed_of_knows h
    have hscope : ∀ (batch : Bool) (q : Nat), enterScope t m q batch = some (m', fs') →
        Everywhere (fun above g => g.Informed m' (above ++ rest)) (fs' ++ [.user v]) := by
      intro batch q h
      unfold enterScope at h
      split at h <;> cases h
      refine ⟨?_, hnone rfl, hself, trivial⟩
      intro r w hw
      simp only [Frame.knows, Option.some.injEq, Prod.mk.injEq] at hw
      obtain ⟨rfl, rfl⟩ := hw
      simp [Scope.new]
    cases a <;> simp only [userCall] at h <;> (try split at h) <;>
      first
        | exact hscope _ _ h
        | (cases h <;>
            first
              | exact ⟨hnone rfl, hself, trivial⟩
              | exact ⟨hnone rfl, hnone rfl, hself, trivial⟩)

/-- A step of a frame. -/
theorem Frame.Informed.step (hl : Linked t (f :: rest))
    (hs : f.step t c m ctx = some (m', ctx', fs)) (hf : f.Informed m rest)
    (hlt : ∀ r, f = .user (.iterNext r) ∨ f = .user (.closure r) → r < m.nextScope) :
    Everywhere (fun above g => g.Informed m' (above ++ rest)) fs := by
  by_cases hu : ∃ v, f = .user v
  · obtain ⟨v, rfl⟩ := hu
    simp only [Frame.step] at hs
    split at hs
    · exact userStep_informed hl (keep_eq.mp hs).1 hf fun r h => hlt r (h.imp (congrArg _) (congrArg _))
    · cases hs
  · have hm : ∀ r, (m'.scopes r).iterPanic = (m.scopes r).iterPanic := by
      intro r
      rcases Frame.step_iterPanic hs r with h | ⟨-, -, h⟩ | ⟨x, h, -⟩
      · exact h
      · exact absurd h hu
      · exact absurd ⟨_, h⟩ hu
    have hnone : ∀ {g : Frame} {above : List Frame}, g.knows above = none → g.Informed m above :=
      fun h => Frame.informed_of_knows h
    have hold : ∀ {r : Nat} {g : Frame} {above : List Frame} {v : Option Nat},
        f.knows rest = some (r, v) → g.knows above = some (r, v) → g.Informed m above := by
      intro r g above v hfv hg r' v' hv
      rw [hg] at hv
      cases hv
      exact hf r v hfv
    refine Everywhere.mono ?_ fun g above (h : g.Informed m (above ++ rest)) => h.congr hm
    cases f <;> simp only [Frame.step, keep_eq, keepMem_eq] at hs
    case user u => exact absurd ⟨u, rfl⟩ hu
    case scope p s pc =>
      cases pc <;> simp only [scopeStep] at hs <;> (repeat' split at hs) <;> cases hs <;>
        first
          | exact ⟨hold rfl rfl, trivial⟩
          | exact ⟨hnone rfl, trivial⟩
          | exact ⟨hnone rfl, hnone rfl, trivial⟩
          | exact ⟨hold rfl rfl, hnone rfl, trivial⟩
          | exact ⟨hnone rfl, hold rfl rfl, hnone rfl, trivial⟩
          | exact ⟨hl.ret_informed (by simp [Frame.tag]) (.inl rfl) (by simp), trivial⟩
    case batch pc =>
      obtain ⟨hs, rfl, rfl⟩ := hs
      cases pc <;> simp only [batchStep, reduceCtorEq] at hs
      cases hs
      exact ⟨hold rfl rfl, hnone rfl, hnone rfl, trivial⟩
    case inboxes p r caller index pc =>
      obtain ⟨hs, rfl⟩ := hs
      cases pc <;> simp only [inboxesStep, reduceCtorEq] at hs <;> (try split at hs) <;> cases hs <;>
        first
          | exact ⟨hold rfl rfl, trivial⟩
          | exact ⟨hold rfl rfl, hnone rfl, trivial⟩
          | exact ⟨hnone rfl, hold rfl rfl, trivial⟩
          | exact ⟨hl.ret_of_batch (.inl ⟨_, rfl⟩) (hf _ _ rfl), trivial⟩
    case assign pc =>
      obtain ⟨hs, rfl⟩ := hs
      cases pc <;> simp only [assignStep, reduceCtorEq] at hs <;> cases hs <;>
        first | exact ⟨hold rfl rfl, trivial⟩ | exact ⟨hold rfl rfl, hnone rfl, trivial⟩
    case publish pc =>
      obtain ⟨hs, rfl⟩ := hs
      rcases pc with _ | _ | ⟨kept, _ | ⟨i, rest'⟩⟩ | _ | _ | _ <;>
        simp only [publishStep, reduceCtorEq] at hs <;> (try split at hs) <;> cases hs <;>
        first
          | exact ⟨hold rfl rfl, trivial⟩
          | exact ⟨hl.ret_of_batch (.inl ⟨_, rfl⟩) (hf _ _ rfl), trivial⟩
    case callDone => cases hs; exact ⟨hl.ret_informed (by simp [Frame.tag]) (.inl rfl) (by simp), trivial⟩
    case spawnDone => cases hs; exact ⟨hl.ret_informed (by simp [Frame.tag]) (.inl rfl) (by simp), trivial⟩
    case wake pc =>
      obtain ⟨hs, rfl⟩ := hs
      cases pc <;> simp only [wakeStep] at hs <;> (try split at hs) <;> cases hs <;>
        first
          | exact ⟨hnone rfl, trivial⟩
          | exact ⟨hl.ret_informed (by simp [Frame.tag]) (.inl rfl) (by simp), trivial⟩
    case spawn pc =>
      obtain ⟨hs, rfl⟩ := hs
      cases pc <;> simp only [spawnStep] at hs <;> (try split at hs) <;> cases hs <;>
        exact ⟨hnone rfl, trivial⟩
    case runUntil pc =>
      obtain ⟨hs, rfl, rfl⟩ := hs
      cases pc <;> simp only [runUntilStep] at hs <;> (try split at hs) <;> cases hs <;>
        first
          | exact ⟨hnone rfl, hnone rfl, trivial⟩
          | exact ⟨hl.ret_informed (by simp [Frame.tag]) (.inl rfl) (by simp), trivial⟩
    case steal pc =>
      obtain ⟨hs, rfl, rfl⟩ := hs
      cases pc <;> simp only [stealStep] at hs <;> (repeat' split at hs) <;> cases hs <;>
        first
          | exact ⟨hnone rfl, trivial⟩
          | exact ⟨hl.ret_informed (by simp [Frame.tag]) (.inl rfl) (by simp), trivial⟩
    case task pc =>
      obtain ⟨hs, rfl⟩ := hs
      cases pc <;> simp only [taskStep] at hs <;> (try split at hs) <;> cases hs <;>
        first
          | exact ⟨hnone rfl, trivial⟩
          | exact ⟨hnone rfl, hnone rfl, trivial⟩
          | exact ⟨hl.ret_informed (by simp [Frame.tag]) (.inl rfl) (by simp), trivial⟩
    case loop pc =>
      cases pc <;> simp only [loopStep] at hs <;> (try split at hs) <;> cases hs <;>
        first
          | exact trivial
          | exact ⟨hnone rfl, trivial⟩
          | exact ⟨hnone rfl, hnone rfl, trivial⟩
    case sleep pc =>
      obtain ⟨hs, rfl⟩ := hs
      cases pc <;> simp only [sleepStep] at hs <;> (repeat' split at hs) <;> cases hs <;>
        first
          | exact ⟨hnone rfl, trivial⟩
          | exact ⟨hl.ret_informed (by simp [Frame.tag]) (.inl rfl) (by simp), trivial⟩
    case newPool pc =>
      obtain ⟨hs, rfl⟩ := hs
      cases pc <;> simp only [newPoolStep] at hs <;> (repeat' split at hs) <;> cases hs <;>
        first
          | exact ⟨hnone rfl, trivial⟩
          | exact ⟨hnone rfl, hnone rfl, trivial⟩
          | exact ⟨hl.ret_informed (by simp [Frame.tag]) (.inl rfl) (by simp), trivial⟩
    case shutdown pc =>
      obtain ⟨hs, rfl⟩ := hs
      cases pc <;> simp only [shutdownStep] at hs <;> (repeat' split at hs) <;> cases hs <;>
        first
          | exact ⟨hnone rfl, trivial⟩
          | exact ⟨hnone rfl, hnone rfl, trivial⟩
          | exact ⟨hl.ret_informed (by simp [Frame.tag]) (.inl rfl) (by simp), trivial⟩
    case dropPool pc =>
      obtain ⟨hs, rfl⟩ := hs
      cases pc <;> simp only [dropPoolStep, reduceCtorEq] at hs <;> cases hs <;>
        first
          | exact ⟨hnone rfl, hnone rfl, trivial⟩
          | exact ⟨hl.ret_informed (by simp [Frame.tag]) (.inl rfl) (by simp), trivial⟩
    case dropJobs js =>
      obtain ⟨hs, rfl⟩ := hs
      cases js <;> simp only [dropJobsStep] at hs <;> cases hs
      · exact ⟨hl.ret_informed (by simp [Frame.tag]) (.inl rfl) (by simp), trivial⟩
      · exact ⟨hnone rfl, trivial⟩
    case dropEnv =>
      cases hs
      exact ⟨hnone rfl, trivial⟩
    all_goals cases hs

/-- Who can know of the iterator of a batch. -/
theorem Frame.knows_cases {v : Option Nat} (h : f.knows rest = some (r, v)) :
    (∃ p pc, f = .scope p r pc ∧ pc.seated = false) ∨ f = .user (.closure r) ∨
      f = .user (.iterNext r) ∨ (∃ p, f.publishes = some (p, r) ∧ f.expects = none) ∨
        ∃ o g below, f = .ret o ∧ rest = g :: below ∧ g.expects = some r := by
  cases f with
  | ret o =>
      simp only [Frame.knows, Option.map_eq_some_iff, Prod.mk.injEq] at h
      obtain ⟨r', hexp, rfl, -⟩ := h
      cases rest with
      | nil => cases hexp
      | cons g below => exact .inr (.inr (.inr (.inr ⟨o, g, below, rfl, rfl, hexp⟩)))
  | user u =>
      cases u <;> cases h
      · exact .inr (.inl rfl)
      · exact .inr (.inr (.inl rfl))
  | scope p s pc => cases pc <;> cases h <;> exact .inl ⟨_, _, rfl, rfl⟩
  | batch p s pc | inboxes p s caller index pc | assign p s caller index pc | publish p s pc =>
      cases pc <;> cases h <;> exact .inr (.inr (.inr (.inl ⟨_, rfl, rfl⟩)))
  | _ => cases h

end Iterators

section Iterators

variable {s s' : PoolState} {t u : Tid} {l : Tid × Choice} {f g : Frame}
  {above below rest : List Frame} {r : Nat} {v : Option Nat}

/-- What expects a batch waits for it. -/
theorem Frame.publishing_of_expects (h : f.expects = some r) : ∃ p, f.Publishing p r ∨
    ∃ caller index, f = .assign p r caller index .waiting := by
  unfold Frame.expects at h
  split at h <;> cases h
  · exact ⟨_, .inr ⟨_, _, rfl⟩⟩
  all_goals exact ⟨_, .inl ⟨rfl, rfl⟩⟩

/-- Who knows of the iterator of a batch is the caller's thread. -/
theorem caller_of_knows (hs : poolMachine.Reachable s) (above : List Frame)
    (hstack : (s.threads t).stack = above ++ f :: rest) (hf : f.knows rest = some (r, v)) :
    (s.mem.scopes r).caller = t ∧ r < s.mem.nextScope := by
  have hmem : f ∈ (s.threads t).stack := by simp [hstack]
  have hpublishes : ∀ {g : Frame} {p : Nat}, g ∈ (s.threads t).stack → g.publishes = some (p, r) →
      (s.mem.scopes r).caller = t ∧ r < s.mem.nextScope := fun hg hp =>
    ⟨(caller_of_publishes hs hg hp).1, (caller_of_publishes hs hg hp).2.1⟩
  obtain ⟨p, pc, rfl, -⟩ | rfl | rfl | ⟨p, hp, -⟩ | ⟨o, g, below, rfl, rfl, hexp⟩ :=
    Frame.knows_cases hf
  · exact ⟨(caller_of_scope hs hmem).1, (caller_of_scope hs hmem).2.1⟩
  · obtain ⟨p, role, previous, hscope⟩ := (linked hs t).scope_of_closure hmem
    exact ⟨(caller_of_scope hs hscope).1, (caller_of_scope hs hscope).2.1⟩
  · have hl := linked hs t
    rw [hstack] at hl
    have hl' : Linked t (.user (.iterNext r) :: rest) := (everywhere_append.mp hl).2
    cases rest with
    | nil => exact hl'.1.elim
    | cons g below =>
        obtain ⟨p, caller, index, rfl⟩ := hl'.1
        exact hpublishes (g := .assign p r caller index .waiting) (by simp [hstack]) rfl
  · exact hpublishes hmem hp
  · have hg : g ∈ (s.threads t).stack := by simp [hstack]
    obtain ⟨p, h | ⟨caller, index, rfl⟩⟩ := Frame.publishing_of_expects hexp
    · exact hpublishes hg h.publishes
    · exact hpublishes hg rfl

/-- While an iterator runs, no other frame knows anything of it. -/
theorem alone_of_iterNext (hs : poolMachine.Reachable s)
    (hstack : (s.threads t).stack = .user (.iterNext r) :: rest)
    (hg : (s.threads u).stack = above ++ g :: below) (hknows : g.knows below = some (r, v)) :
    u = t ∧ above = [] := by
  have ht : (s.mem.scopes r).caller = t :=
    (caller_of_knows hs [] hstack (v := none) rfl).1
  obtain rfl : u = t := (caller_of_knows hs above hg hknows).1.symm.trans ht
  refine ⟨rfl, ?_⟩
  cases above with
  | nil => rfl
  | cons f above =>
      exfalso
      have hl := linked hs u
      have hfits := (placed hs u).fits
      have hrest : rest = above ++ g :: below := by
        rw [hstack] at hg
        exact (List.cons.inj hg).2
      rw [hstack] at hl hfits
      have hgrest : g ∈ rest := by simp [hrest]
      cases rest with
      | nil => exact hl.1
      | cons k lower =>
          obtain ⟨p, caller, index, rfl⟩ := hl.1
          have hmem : .assign p r caller index .waiting ∈ (s.threads u).stack := by simp [hstack]
          have hgmem : g ∈ (s.threads u).stack := by simp [hg]
          obtain ⟨role, previous, hscope⟩ := (linked hs u).scope_of_publishes hmem rfl
          obtain ⟨q, pc, rfl, hpc⟩ | rfl | rfl | ⟨q, hq, hexp⟩ | ⟨o, k, lower', rfl, -⟩ :=
            Frame.knows_cases hknows
          · obtain ⟨-, rfl⟩ := scope_unique (placed hs u).fits hgmem hscope
            cases hpc
          · rcases (linked hs u).batch_of_publishes hmem rfl with ⟨pc, h⟩ | hbatch
            · cases h
            · cases (linked hs u).inScope_unique (placed hs u).fits hgmem hbatch (.inl rfl)
                (.inr ⟨_, _, rfl⟩)
          · -- the iterator called below would have an assignment of the same batch under it
            have hlow : Linked u (.user (.iterNext r) :: below) := by
              rw [hrest] at hl
              exact (everywhere_append.mp hl.2).2
            cases below with
            | nil => exact hlow.1
            | cons k' lower' =>
                obtain ⟨q, caller', index', rfl⟩ := hlow.1
                have hk : .assign q r caller' index' .waiting ∈ lower := by
                  rcases List.append_eq_cons_iff.mp hrest.symm with ⟨-, h⟩ | ⟨as, -, h⟩
                  · cases h
                  · simp [h]
                have hlevel : Linked u (.assign p r caller index .waiting :: lower) := hl.2
                exact hlevel.below_publishes hfits.2 rfl hk rfl
          · rcases publishes_pair hs hmem hgmem rfl hq with rfl | h | h
            · cases hexp
            · exact h
            · unfold Frame.Publishing at h
              split at h <;> first | exact h | cases hexp
          · have hwaits : (Frame.ret o).awaits := awaits hs u _ (by simp [hg])
            cases hwaits

/-- What a frame knows of an iterator stays true while the frame does not step itself. -/
theorem Frame.Informed.stays (hs : poolMachine.Reachable s) (hstep : poolMachine.step s l = some s')
    (hg : (s.threads u).stack = above ++ g :: below) (hne : u ≠ l.1 ∨ above ≠ [])
    (h : g.Informed s.mem below) : g.Informed s'.mem below := by
  intro r v hv
  rw [← h r v hv]
  have hlocal := (thread_step hstep).1
  revert hlocal
  generalize hthread : s.threads l.1 = th₀
  generalize s'.threads l.1 = th₁
  generalize s'.mem = m'
  intro hlocal
  cases hlocal with
  | resume | call | answer | tick => rfl
  | frame hf =>
      rcases Frame.step_iterPanic hf r with heq | ⟨rfl, -⟩ | ⟨x, rfl, -⟩
      · exact heq
      · exact absurd (caller_of_knows hs above hg hv).2 (lt_irrefl _)
      · obtain ⟨hu, habove⟩ := alone_of_iterNext hs (by rw [hthread]) hg hv
        rcases hne with hne | hne
        · exact absurd hu hne
        · exact absurd habove hne

end Iterators

/-- What the frames know of the iterators is true. -/
theorem iterators {s : PoolState} (hs : poolMachine.Reachable s) (t : Tid) :
    Everywhere (Frame.Informed s.mem) (s.threads t).stack := by
  revert t
  refine Machine.Reachable.invariant (I := fun s => ∀ t,
    Everywhere (Frame.Informed s.mem) (s.threads t).stack) ?_ ?_ hs
  · rintro s rfl (e | ⟨p, i⟩) <;> exact ⟨Frame.informed_of_knows rfl, trivial⟩
  · intro s l s' hr hI hstep u
    obtain ⟨hlocal, hothers⟩ := thread_step hstep
    by_cases hu : u = l.1
    · subst hu
      have hself := hI l.1
      have hl := linked hr l.1
      have hbelow : ∀ f rest, (s.threads l.1).stack = f :: rest →
          Everywhere (Frame.Informed s'.mem) rest := by
        intro f rest hstack
        rw [hstack] at hself
        refine everywhere_iff.mpr fun above g below hrest => ?_
        have hstack' : (s.threads l.1).stack = (f :: above) ++ g :: below := by
          rw [hstack, hrest]
          rfl
        exact (everywhere_iff.mp hself.2 above g below hrest).stays hr hstep hstack' (.inr (by simp))
      have hcall : ∀ r f rest, (s.threads l.1).stack = f :: rest →
          f = .user (.iterNext r) ∨ f = .user (.closure r) → r < s.mem.nextScope := by
        intro r f rest hstack hf
        refine (caller_of_knows hr [] hstack (v := none) ?_).2
        rcases hf with rfl | rfl <;> rfl
      revert hlocal hself hl hbelow hcall
      generalize s.threads l.1 = th₀
      generalize s'.threads l.1 = th₁
      generalize s'.mem = m'
      intro hlocal hself hl hbelow hcall
      cases hlocal with
      | resume => exact everywhere_append.mpr ⟨hself.1.resume hl.2 hself.2.1, hself.2.2⟩
      | call hc => exact ⟨.call hc, hself.2⟩
      | answer => exact everywhere_append.mpr ⟨hself.1.answer hl, hself.2⟩
      | tick => exact hself.mono fun g above h => h.congr fun _ => rfl
      | frame hf =>
          exact everywhere_append.mpr
            ⟨Frame.Informed.step hl hf hself.1 fun r h => hcall r _ _ rfl h, hbelow _ _ rfl⟩
    · rw [hothers u hu]
      refine everywhere_iff.mpr fun above g below hstack => ?_
      exact (everywhere_iff.mp (hI u) above g below hstack).stays hr hstep hstack (.inl hu)

section Iterators

variable {s s' : PoolState} {t : Tid} {l : Tid × Choice} {f : Frame} {r x : Nat}

/-- A panic of an iterator was there before a step, or the iterator has just run. -/
theorem iterPanic_before (hstep : poolMachine.step s l = some s')
    (h : (s'.mem.scopes r).iterPanic = some x) :
    (s.mem.scopes r).iterPanic = some x ∨
      ∃ rest, (s.threads l.1).stack = .user (.iterNext r) :: rest := by
  have hlocal := (thread_step hstep).1
  revert hlocal h
  generalize s.threads l.1 = th₀
  generalize s'.threads l.1 = th₁
  generalize s'.mem = m'
  intro h hlocal
  cases hlocal with
  | resume | call | answer | tick => exact .inl h
  | @frame _ _ _ rest _ _ hf =>
      rcases Frame.step_iterPanic hf r with heq | ⟨-, hnone, -⟩ | ⟨y, rfl, -⟩
      · exact .inl (heq ▸ h)
      · rw [hnone] at h
        cases h
      · exact .inr ⟨rest, rfl⟩

/-- While jobs of a scope are made, its iterator has not panicked. -/
theorem iterPanic_of_makes (hs : poolMachine.Reachable s) (hf : f ∈ (s.threads t).stack)
    (hmakes : f.Makes r) : (s.mem.scopes r).iterPanic = none := by
  unfold Frame.Makes at hmakes
  split at hmakes
  · subst hmakes
    obtain ⟨_, _, _, h, -⟩ :=
      (iterators hs _).of_mem (closure_of_spawnEnd hs (spawnEnd_of_spawn hs hf))
    exact h _ none rfl
  · subst hmakes
    obtain ⟨_, _, _, h, -⟩ := (iterators hs t).of_mem hf
    exact h _ none rfl
  · exact hmakes.elim

end Iterators

/-! ## A scope that has not begun -/

section Early

variable {s s' : PoolState} {t u : Tid} {l : Tid × Choice} {c : Choice} {m m' : Mem}
  {ctx ctx' : Context} {f g : Frame} {fs : List Frame} {r : Nat}

theorem Frame.early_of_tag (hscope : f.tag ≠ .scope) (hbatch : f.tag ≠ .batch)
    (hinboxes : f.tag ≠ .inboxes) : ¬ f.Early r := by
  cases f <;> simp_all [Frame.Early, Frame.tag]

/-- Taking a result. -/
theorem Frame.resume_early {o : Outcome} (hg : g ∈ f.resume o) (hearly : g.Early r) : f.Early r := by
  unfold Frame.resume at hg
  split at hg <;> (try split at hg) <;> simp only [List.mem_cons, List.not_mem_nil, or_false] at hg <;>
    (try rcases hg with rfl | rfl) <;> first | exact hearly | exact hearly.elim

/-- Starting a queue operation. -/
theorem Frame.call_early {q : QueueCall DequeId QueueId Nat} (hc : f.call m ctx = some (q, g)) :
    ¬ g.Early r := by
  unfold Frame.call at hc
  split at hc <;> (try split at hc) <;> cases hc <;> exact id

/-- Taking the result of a queue operation. -/
theorem Frame.answer_early {res : QueueRes Nat} (hg : g ∈ f.answer res) (hearly : g.Early r) :
    f.Early r := by
  unfold Frame.answer at hg
  split at hg <;> (try split at hg) <;> simp only [List.mem_cons, List.not_mem_nil, or_false] at hg <;>
    (try rcases hg with rfl | rfl) <;> exact hearly

/-- An early frame replaces one, or begins a call. -/
theorem Frame.step_early (hs : f.step t c m ctx = some (m', ctx', fs)) (hg : g ∈ fs)
    (hearly : g.Early r) : f.Early r ∨ m.nextScope ≤ r := by
  have htag := Frame.step_givesWay hs g hg
  have htags : g.tag = .scope ∨ g.tag = .batch ∨ g.tag = .inboxes := by
    by_contra h
    push Not at h
    exact Frame.early_of_tag h.1 h.2.1 h.2.2 hearly
  have hfrom : f.tag = .user ∨ f.tag = .scope ∨ f.tag = .batch ∨ f.tag = .inboxes := by
    rcases htags with h | h | h <;> rw [h] at htag <;> revert htag <;> cases f.tag <;>
      simp [FrameTag.next]
  cases f with
  | user v =>
      simp only [Frame.step] at hs
      split at hs
      · obtain ⟨o, h⟩ | ⟨fs', h, rfl⟩ := userStep_cases (keep_eq.mp hs).1
        · unfold userEnd at h
          (repeat' split at h) <;> cases h <;> simp_all [Frame.Early]
        · rename_i a
          cases a <;> simp only [userCall, enterScope] at h <;> (try split at h) <;> cases h <;>
            simp only [List.cons_append, List.nil_append, List.mem_cons, List.not_mem_nil, or_false]
              at hg <;>
            (try rcases hg with rfl | rfl | rfl) <;>
            first | exact hearly.elim | exact .inr hearly.le
      · cases hs
  | scope p s pc =>
      simp only [Frame.step] at hs
      cases pc <;> simp only [scopeStep] at hs <;> (repeat' split at hs) <;> cases hs <;>
        simp only [List.mem_cons, List.not_mem_nil, or_false] at hg <;>
        (try rcases hg with rfl | rfl | rfl) <;>
        first | exact hearly.elim | exact .inl hearly
  | batch p s pc =>
      simp only [Frame.step, keepMem_eq] at hs
      obtain ⟨hs, -, -⟩ := hs
      cases pc <;> simp only [batchStep, reduceCtorEq] at hs
      cases hs
      simp only [List.mem_cons, List.not_mem_nil, or_false] at hg
      rcases hg with rfl | rfl | rfl <;> first | exact hearly.elim | exact .inl hearly
  | inboxes p s caller index pc =>
      simp only [Frame.step, keep_eq] at hs
      obtain ⟨hs, -⟩ := hs
      cases pc <;> simp only [inboxesStep, reduceCtorEq] at hs <;> (try split at hs) <;> cases hs <;>
        simp only [List.mem_cons, List.not_mem_nil, or_false] at hg <;>
        (try rcases hg with rfl | rfl) <;>
        first | exact hearly.elim | exact .inl hearly
  | _ => simp [Frame.tag] at hfrom

/-- An early frame was one before the step, or the scope is new. -/
theorem early_before (hstep : poolMachine.step s l = some s') (hg : g ∈ (s'.threads t).stack)
    (hearly : g.Early r) :
    (∃ f ∈ (s.threads t).stack, f.Early r) ∨ s.mem.nextScope ≤ r := by
  obtain ⟨hlocal, hothers⟩ := thread_step hstep
  by_cases ht : t = l.1
  · subst ht
    cases hlocal.of_mem hg with
    | kept h => exact .inl ⟨g, List.mem_of_mem_tail h, hearly⟩
    | waits _ _ h => exact .inl ⟨g, h, hearly⟩
    | @resumed o f rest hstack h => exact .inl ⟨f, by simp [hstack], Frame.resume_early h hearly⟩
    | called _ h => exact absurd hearly (Frame.call_early h)
    | @answered f rest res hstack h => exact .inl ⟨f, by simp [hstack], Frame.answer_early h hearly⟩
    | @stepped f rest ctx' fs hstack hf _ h =>
        exact (Frame.step_early hf h hearly).imp_left fun he => ⟨f, by simp [hstack], he⟩
  · rw [hothers t ht] at hg
    exact .inl ⟨g, hg, hearly⟩

end Early

/-- A scope that has not begun has no jobs. -/
theorem no_jobs_of_early {s : PoolState} (hs : poolMachine.Reachable s) {t : Tid} {f : Frame}
    {r j : Nat} (hf : f ∈ (s.threads t).stack) (hearly : f.Early r) : ¬ s.mem.JobOf r j := by
  revert t f r j
  refine Machine.Reachable.invariant (I := fun s => ∀ {t : Tid} {f : Frame} {r j : Nat},
    f ∈ (s.threads t).stack → f.Early r → ¬ s.mem.JobOf r j) ?_ ?_ hs
  · rintro s rfl t f r j - - ⟨h, -⟩
    exact absurd h (Nat.not_lt_zero j)
  · intro s l s' hr hI hstep t f r j hf hearly hj
    rcases early_before hstep hf hearly with ⟨g, hg, hgearly⟩ | hnew
    · rcases jobOf_before hr hstep hj with hold | ⟨-, -, k, rest, -, -, hstack, hmakes, -⟩
      · exact hI hg hgearly hold
      · exact not_early_of_makes hr hg hgearly (by simp [hstack] : k ∈ (s.threads l.1).stack) hmakes
    · rcases jobOf_before hr hstep hj with hold | ⟨-, -, k, rest, -, -, hstack, hmakes, -⟩
      · exact absurd ((jobs_stay hr).home j hold.1 r hold.2) (by omega)
      · have hk : k ∈ (s.threads l.1).stack := by simp [hstack]
        obtain ⟨g, hg, hscope⟩ := inScope_of_makes hr hk hmakes
        rcases hscope with rfl | ⟨p, rfl⟩
        · obtain ⟨p, role, previous, hp⟩ := (linked hr _).scope_of_closure hg
          exact absurd (caller_of_scope hr hp).2.1 (by omega)
        · exact absurd (caller_of_publishes hr hg rfl).2.1 (by omega)

end XynokConcurrency
