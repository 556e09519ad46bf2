import XynokConcurrency.ThreadPool.ScopeEnd

/-!
# The inbox of the host

A batch puts jobs into the inbox of the host slot only if its caller stands for the host, and
then the scope of the batch is open until all its jobs are over.  So what lies in that inbox
belongs to a scope on the thread that holds the host lock, and a host slot that nobody holds
has an empty inbox.

Main results:

- Theorem {lit}`inbox_step`: what a step does to an inbox.
- Theorem {lit}`free_host_holds_no_work`: whose jobs lie in the inbox of the host slot.

Source: {lit}`thread_pool/mod.rs`, {lit}`thread_pool/shared.rs`, {lit}`thread_pool/worker.rs`.
-/

namespace XynokConcurrency

/-! ## What comes into an inbox -/

section Inbox

variable {s s' : PoolState} {l : Tid × Choice} {t u : Tid} {f : Frame} {ctx : Context} {rest : List Frame}
  {p i j r caller index : Nat}

/-- What is pushed goes to the shared queue of a pool. -/
theorem Frame.Waits.tasks_of_push {q : QueueId} {val : Nat} (h : f.Waits ctx (.queuePush q val)) :
    ∃ p, q = .tasks p := by
  unfold Frame.Waits at h
  split at h
  case h_1 => cases h; exact ⟨_, rfl⟩
  case h_2 => cases h.2
  case h_5 | h_6 | h_7 => obtain ⟨_, h⟩ := h; cases h
  case h_8 => obtain ⟨_, _, h⟩ := h; cases h
  all_goals cases h

/-- What is drained is the shared queue of a pool. -/
theorem Frame.Waits.tasks_of_refill {d : DequeId} {max : Nat} {src : QueueId}
    (h : f.Waits ctx (.pushBatchByTakingFromQueue d max src)) : ∃ p, src = .tasks p := by
  unfold Frame.Waits at h
  split at h
  case h_2 => cases h.2
  case h_5 => obtain ⟨_, h⟩ := h; cases h; exact ⟨_, rfl⟩
  case h_6 | h_7 => obtain ⟨_, h⟩ := h; cases h
  case h_8 => obtain ⟨_, _, h⟩ := h; cases h
  all_goals cases h

/-- No step puts a job into an inbox but the assignment of a batch. -/
theorem inbox_step (hs : poolMachine.Reachable s) (hstep : poolMachine.step s l = some s')
    (hj : j ∈ (s'.mem.queues.queue (.inbox p i)).elements) :
    j ∈ (s.mem.queues.queue (.inbox p i)).elements ∨
      ∃ r caller index rest, (s.threads l.1).stack = .assign p r caller index (.place j) :: rest ∧
        i = batchTarget (s.mem.pools p) caller index := by
  have hlocal := (thread_step hstep).1
  have hcalling := calling hs l.1
  generalize hthread : s.threads l.1 = th₀ at hlocal hcalling
  generalize s'.threads l.1 = th₁ at hlocal
  generalize s'.mem = m' at hlocal hj
  cases hlocal with
  | resume | call | answer => exact .inl hj
  | @tick ctx stack o o' queues instr hi hx =>
      left
      obtain h | ⟨f, rest, q, -, hwaits, hwithin⟩ := hcalling
      · cases h
        cases hi
      · refine QInstr.exec_elements hx ?_ hj
        rintro val k rfl
        obtain rfl := hwithin.of_pushBack hi
        obtain ⟨_, h⟩ := hwaits.tasks_of_push
        cases h
  | @frame ctx ctx' f rest fs m' hf =>
      have hstack : (s.threads l.1).stack = f :: rest := by rw [hthread]
      have hset : ∀ q b, (q = .inbox p i → b.elements ⊆ (s.mem.queues.queue (.inbox p i)).elements) →
          j ∈ ((s.mem.setQueue q b).queues.queue (.inbox p i)).elements →
          j ∈ (s.mem.queues.queue (.inbox p i)).elements := by
        intro q b hb hmem
        rcases eq_or_ne q (.inbox p i) with rfl | hne
        · exact hb rfl (by simpa [Queues.setQueue] using hmem)
        · simpa [Queues.setQueue, hne.symm] using hmem
      cases step_jobs hs hstack hf with
      | quiet hq | push _ hq => exact .inl (hq ▸ hj)
      | spawn | start | finish => exact .inl hj
      | drop k js => exact .inl (by simpa using hj)
      | relock q b hb =>
          refine .inl (hset q b (fun h => ?_) hj)
          subst h
          exact hb ▸ List.Subset.refl _
      | truncate q n =>
          refine .inl (hset q _ (fun h => ?_) hj)
          subst h
          exact List.take_subset _ _
      | place p' r caller index k hf' =>
          subst hf'
          rcases eq_or_ne (QueueId.inbox p i) (.inbox p' (batchTarget (s.mem.pools p') caller index))
            with heq | hne
          · cases heq
            simp only [Mem.setQueue_queues, Queues.setQueue, Function.update_self, List.mem_append,
              List.mem_singleton] at hj
            rcases hj with hj | rfl
            · exact .inl hj
            · exact .inr ⟨r, caller, index, rest, rfl, rfl⟩
          · exact .inl (hset _ _ (fun h => absurd h.symm hne) hj)
      | clear xs hnodup hxs hm hdeque hnew hqueue hempty =>
          by_cases hmem : Place.queue (.inbox p i) ∈ xs
          · rw [hempty _ hmem] at hj
            cases hj
          · exact .inl (hqueue _ hmem ▸ hj)

/-- A job in an inbox waits. -/
theorem waits_of_inbox (hs : poolMachine.Reachable s)
    (hj : j ∈ (s.mem.queues.queue (.inbox p i)).elements) : s.mem.Waits j := by
  refine ((jobsOk hs).held j).mp ⟨.queue (.inbox p i), ?_⟩
  have hdraining : ∀ t, (s.ops t).draining (.inbox p i) = 0 := by
    intro t
    obtain h | ⟨f, rest, c, -, hwaits, hwithin⟩ := calling hs t
    · simp [PoolState.ops, h, Op.draining, Op.drains]
    · have hdrains : ∀ n, (s.ops t).drains ≠ some (.inbox p i, n) := by
        intro n hn
        unfold PoolState.ops at hn
        unfold Op.drains at hn
        split at hn
        case h_3 => cases hn
        all_goals
          rename_i hop
          rw [hop] at hwithin
          cases hn
          obtain ⟨max, rfl⟩ := hwithin
          obtain ⟨_, h⟩ := hwaits.tasks_of_refill
          cases h
      unfold Op.draining
      split
      · rename_i q n hn
        split
        · rename_i h
          exact absurd (h ▸ hn) (hdrains n)
        · rfl
      · rfl
  have havail : s.mem.queues.avail s.ops (.inbox p i) = (s.mem.queues.queue (.inbox p i)).elements := by
    unfold Queues.avail
    split
    · rw [hdraining, List.drop_zero]
    · rfl
  change j ∈ s.mem.queues.avail s.ops (.inbox p i)
  rw [havail]
  exact hj

end Inbox

/-! ## Where a scope stands for the host -/

/-- The call of scope {lit}`r` runs as the host of pool {lit}`p`, by itself or inside of a call
that does. -/
def Frame.Hosted (p r : Nat) (m : Mem) (rest : List Frame) : Frame → Prop
  | .scope _ s pc =>
      s = r → pc.role = some .host ∨ contextOf m rest = ⟨p, (m.pools p).hostIndex⟩
  | _ => True

section Hosted

variable {s s' : PoolState} {l : Tid × Choice} {t u : Tid} {c : Choice} {m m' : Mem}
  {ctx ctx' : Context} {f : Frame} {rest fs stack : List Frame} {p r i j caller index : Nat}

theorem Frame.hosted_of_tag (hf : f.tag ≠ .scope) : f.Hosted p r m rest := by
  cases f <;> trivial

/-- What a call runs as does not change under it. -/
theorem hosted_grows (hg : m.Grows m') (hp : m.PoolId p) (hfits : Everywhere (Frame.Fits u m) stack)
    (h : Everywhere (Frame.Hosted p r m) stack) : Everywhere (Frame.Hosted p r m') stack := by
  induction stack with
  | nil => trivial
  | cons f rest ih =>
      refine ⟨?_, ih hfits.2 h.2⟩
      have hself := h.1
      have htotal := (hg.pools p hp).totalWorker
      cases f with
      | scope q k pc =>
          intro hk
          simp only [contextOf_grows hg hfits.2, ThreadPoolInner.hostIndex, htotal]
          exact hself hk
      | _ => trivial

/-- A step of a frame. -/
theorem Frame.step_hosted (hs : f.step t c m ctx = some (m', ctx', fs)) (hr : r < m.nextScope)
    (hctx : contextOf m' rest = contextOf m rest)
    (htotal : (m'.pools p).totalWorker = (m.pools p).totalWorker) (h : f.Hosted p r m rest) :
    Everywhere (fun above g => g.Hosted p r m' (above ++ rest)) fs := by
  have hnext := Frame.step_givesWay hs
  cases f with
  | user v =>
      simp only [Frame.step] at hs
      split at hs
      · obtain ⟨o, h⟩ | ⟨fs', h, rfl⟩ := userStep_cases (keep_eq.mp hs).1
        · unfold userEnd at h
          (repeat' split at h) <;> cases h <;> first | exact trivial | exact ⟨trivial, trivial⟩
        · rename_i a
          cases a <;> simp only [userCall, enterScope] at h <;> (try split at h) <;> cases h <;>
            first
              | exact ⟨trivial, trivial, trivial⟩
              | exact ⟨trivial, trivial, trivial, trivial⟩
              | exact ⟨fun h => absurd h hr.ne', trivial, trivial, trivial⟩
      · cases hs
  | scope q k pc =>
      have hself : k = r → pc.role = some .host ∨ contextOf m' rest = ⟨p, (m'.pools p).hostIndex⟩ := by
        intro hk
        rw [hctx, ThreadPoolInner.hostIndex, htotal]
        exact h hk
      simp only [Frame.step] at hs
      cases pc <;> simp only [scopeStep] at hs <;> (repeat' split at hs) <;> cases hs <;>
        first
          | exact ⟨trivial, trivial⟩
          | exact ⟨hself, trivial⟩
          | exact ⟨trivial, hself, trivial⟩
          | exact ⟨trivial, trivial, hself, trivial⟩
          | exact ⟨fun hk => .inr ((hself hk).resolve_left (by simp [ScopePc.role])), trivial⟩
  | _ =>
      refine .of_forall fun g hg above => Frame.hosted_of_tag fun htag => ?_
      have hmem := hnext g hg
      rw [htag] at hmem
      simp [Frame.tag, FrameTag.next] at hmem

/-- What a call runs as does not change. -/
theorem hosted_step (hs : poolMachine.Reachable s) (hstep : poolMachine.step s l = some s')
    (hp : s.mem.PoolId p) (hr : r < s.mem.nextScope)
    (h : Everywhere (Frame.Hosted p r s.mem) (s.threads u).stack) :
    Everywhere (Frame.Hosted p r s'.mem) (s'.threads u).stack := by
  obtain ⟨hlocal, hothers⟩ := thread_step hstep
  have hg : s.mem.Grows s'.mem := grows_run hs (Machine.run_singleton.mpr hstep)
  have hfits := (placed hs u).fits
  by_cases hu : u = l.1
  · subst hu
    refine hlocal.everywhere (Q := fun m rest f => f.Hosted p r m rest) h ?_ ?_ ?_ ?_ ?_
    · intro o f rest h
      unfold Frame.resume
      split <;> (try split) <;>
        first
          | exact ⟨h, trivial⟩
          | exact ⟨trivial, trivial⟩
          | exact ⟨trivial, trivial, trivial⟩
    · intro f f' rest q hc _
      unfold Frame.call at hc
      split at hc <;> (try split at hc) <;> cases hc <;> trivial
    · intro res f rest h
      unfold Frame.answer
      split <;> (try split) <;>
        first
          | exact ⟨h, trivial⟩
          | exact ⟨trivial, trivial⟩
          | exact ⟨trivial, trivial, trivial⟩
    · intro f rest ctx' fs hstack hf h
      rw [hstack] at hfits
      exact Frame.step_hosted hf hr (contextOf_grows hg hfits.2) (hg.pools p hp).totalWorker h
    · intro above rest hstack h
      rw [hstack] at hfits
      exact hosted_grows hg hp (everywhere_append.mp hfits).2 h
  · rw [hothers u hu]
    exact hosted_grows hg hp hfits h

/-- Who runs a call as the host holds the host lock. -/
theorem locked_of_hosted {pc : ScopePc} (hs : poolMachine.Reachable s) (hp : s.mem.PoolId p)
    (h : Everywhere (Frame.Hosted p r s.mem) (s.threads t).stack)
    (hmem : .scope p r pc ∈ (s.threads t).stack) : (s.mem.pools p).hostOwner.locked = some t := by
  have hfits := (placed hs t).fits
  obtain ⟨above, rest, hstack, hself, -⟩ := h.of_mem hmem
  rcases hself rfl with hrole | hctx
  · exact holdsHost_locked hfits hmem (by simp [Frame.holdsHost, hrole])
  · rw [hstack] at hfits
    rcases contextOf_cases (everywhere_append.mp hfits).2.2 with hnone | ⟨f, hf, below, hf', hfit⟩
    · rw [hctx] at hnone
      exact absurd hnone hp.ne_none
    · rw [hctx] at hf'
      cases f with
      | loop q i tick rounds pc =>
          simp only [Frame.context] at hf'
          split at hf' <;> cases hf'
          rename_i hseat
          obtain ⟨-, -, hborn, -⟩ := hfit
          have hne : pc ≠ .unborn := by
            rintro rfl
            cases hseat
          exact absurd (((poolsOk hs).pools p).spawned _ (hborn hne).2) (lt_irrefl _)
      | scope q k pc =>
          simp only [Frame.context] at hf'
          split at hf' <;> cases hf'
          rename_i hseat
          exact hfit.2.2.2.2.2.1 hseat.2
      | _ => cases hf'

/-- A batch that is published on a thread that stands for the host does so in its scope. -/
theorem hosted_of_publishes (hl : Linked t (f :: rest)) (hfits : Everywhere (Frame.Fits t m) (f :: rest))
    (hf : f.publishes = some (p, r))
    (hctx : contextOf m (f :: rest) = ⟨p, (m.pools p).hostIndex⟩) :
    Everywhere (Frame.Hosted p r m) (f :: rest) := by
  have hself : ∀ {f : Frame}, f.publishes = some (p, r) →
      (∀ rest, f.Hosted p r m rest) ∧ f.context m = none := by
    intro f hf
    cases f <;> first | exact ⟨fun _ => trivial, rfl⟩ | cases hf
  induction rest generalizing f with
  | nil => exact ⟨(hself hf).1 _, trivial⟩
  | cons k below ih =>
      refine ⟨(hself hf).1 _, ?_⟩
      rw [contextOf, (hself hf).2, Option.getD_none] at hctx
      rcases Frame.Under.below_publishes hl.1 hf with ⟨role, previous, rfl⟩ | hk
      · obtain ⟨-, -, -, -, -, -, -, hunique, -⟩ := hfits.2.1
        refine ⟨fun _ => ?_, .of_forall fun g hg above => ?_⟩
        · by_cases hrole : role = .host
          · exact .inl (by simp [ScopePc.role, hrole])
          · simp only [contextOf, Frame.context, ScopePc.role, Option.some.injEq, hrole, and_false,
              if_false, Option.getD_none] at hctx
            exact .inr hctx
        · have hne := hunique g hg
          cases g with
          | scope q k pc => exact fun h => absurd (congrArg some h) hne
          | _ => trivial
      · exact ih hl.2 hfits.2 hk.publishes hctx

end Hosted

/-- A job of a batch goes to the inbox of the host slot only if the caller is the host. -/
theorem caller_of_batchTarget {inner : ThreadPoolInner} {caller index : Nat}
    (hcaller : caller ≤ inner.hostIndex) (h : batchTarget inner caller index = inner.hostIndex) :
    caller = inner.hostIndex := by
  by_contra hne
  have hn : 0 < participants inner caller :=
    participants_pos ((Nat.zero_le _).trans_lt (lt_of_le_of_ne hcaller hne))
  have hmem := (batchTarget_bijOn hcaller).mapsTo (Set.mem_Iio.mpr (Nat.mod_lt index hn))
  rw [batchTarget_mod hn] at hmem
  exact hne (hmem.2 h)

/-! ## What lies in the inbox of the host slot -/

/-- Every job in the inbox of the host slot is of a scope that runs as the host. -/
theorem host_inbox {s : PoolState} (hs : poolMachine.Reachable s) {p j : Nat} (hp : s.mem.PoolId p)
    (hj : j ∈ (s.mem.queues.queue (.inbox p (s.mem.pools p).hostIndex)).elements) :
    ∃ r, s.mem.JobOf r j ∧ (s.mem.scopes r).root = p ∧
      Everywhere (Frame.Hosted p r s.mem) (s.threads (s.mem.scopes r).caller).stack := by
  revert p j
  refine Machine.Reachable.invariant (I := fun s => ∀ {p j : Nat}, s.mem.PoolId p →
    j ∈ (s.mem.queues.queue (.inbox p (s.mem.pools p).hostIndex)).elements →
    ∃ r, s.mem.JobOf r j ∧ (s.mem.scopes r).root = p ∧
      Everywhere (Frame.Hosted p r s.mem) (s.threads (s.mem.scopes r).caller).stack) ?_ ?_ hs
  · rintro s rfl p j - hj
    cases hj
  · intro s l s' hs hI hstep p j hp hj
    have hg : s.mem.Grows s'.mem := grows_run hs (Machine.run_singleton.mpr hstep)
    -- the scope, its place and its jobs stay
    have hkept : s.mem.PoolId p → (∃ r, s.mem.JobOf r j ∧ (s.mem.scopes r).root = p ∧
        Everywhere (Frame.Hosted p r s.mem) (s.threads (s.mem.scopes r).caller).stack) →
        ∃ r, s'.mem.JobOf r j ∧ (s'.mem.scopes r).root = p ∧
          Everywhere (Frame.Hosted p r s'.mem) (s'.threads (s'.mem.scopes r).caller).stack := by
      rintro hp ⟨r, hjob, hroot, hhosted⟩
      have hr := (jobs_stay hs).home j hjob.1 r hjob.2
      obtain ⟨hroot', hcaller'⟩ := hg.scopes r hr
      refine ⟨r, hjob.step hs hstep, hroot'.trans hroot, ?_⟩
      rw [hcaller']
      exact hosted_step hs hstep hp hr hhosted
    have hindex : s.mem.PoolId p → (s'.mem.pools p).hostIndex = (s.mem.pools p).hostIndex :=
      fun hp => (hg.pools p hp).totalWorker
    rcases inbox_step hs hstep hj with hold | ⟨r, caller, index, rest, hstack, htarget⟩
    · have hp₀ : s.mem.PoolId p := by
        by_contra hno
        have hempty : (s.mem.queues.queue (.inbox p (s'.mem.pools p).hostIndex)).elements = [] :=
          lyingIn_untouched hs (x := .queue (.inbox p _)) fun h => hno h.1
        rw [hempty] at hold
        cases hold
      rw [hindex hp₀] at hold
      exact hkept hp₀ (hI hp₀ hold)
    · have hin : .assign p r caller index (.place j) ∈ (s.threads l.1).stack := by simp [hstack]
      have hp₀ : s.mem.PoolId p := (live_of_pool hs hin rfl).id
      have hcalls := calls hs l.1
      have hl := linked hs l.1
      have hfits := (placed hs l.1).fits
      rw [hstack] at hcalls hl hfits
      obtain ⟨⟨hle, hctx⟩, -⟩ := hcalls.1
      have hcaller := caller_of_batchTarget hle (htarget.symm.trans (hindex hp₀))
      obtain ⟨hthread, -, hroot⟩ := caller_of_publishes hs hin rfl
      have hhosted : Everywhere (Frame.Hosted p r s.mem) (s.threads (s.mem.scopes r).caller).stack := by
        rw [hthread, hstack]
        refine hosted_of_publishes hl hfits rfl ?_
        change contextOf s.mem rest = _
        rw [hctx hcaller, hcaller]
      exact hkept hp₀ ⟨r, inbox_levels hs l.1 _ hin, hroot, hhosted⟩

/-- A free host holds no assigned work.  Every job in the inbox of a pool's host slot is of a scope
that is open on the thread that holds the host lock, and when nobody holds it the inbox is
empty. -/
theorem free_host_holds_no_work {s : PoolState} (hs : poolMachine.Reachable s) {p : Nat}
    (hp : s.mem.PoolId p) :
    ((s.mem.pools p).hostOwner.locked = none →
      (s.mem.queues.queue (.inbox p (s.mem.pools p).hostIndex)).elements = []) ∧
    ∀ j ∈ (s.mem.queues.queue (.inbox p (s.mem.pools p).hostIndex)).elements,
      ∃ t r pc, (s.mem.pools p).hostOwner.locked = some t ∧ s.mem.JobOf r j ∧
        .scope p r pc ∈ (s.threads t).stack ∧ (s.mem.scopes r).ended = false := by
  have hopen : ∀ j ∈ (s.mem.queues.queue (.inbox p (s.mem.pools p).hostIndex)).elements,
      ∃ t r pc, (s.mem.pools p).hostOwner.locked = some t ∧ s.mem.JobOf r j ∧
        .scope p r pc ∈ (s.threads t).stack ∧ (s.mem.scopes r).ended = false := by
    intro j hj
    obtain ⟨r, hjob, rfl, hhosted⟩ := host_inbox hs hp hj
    obtain ⟨-, hstarts, hdrops⟩ := waits_of_inbox hs hj
    have hlive : (s.mem.jobs j).released = false := Bool.eq_false_of_not_eq_true fun hreleased => by
      have hgone := (busyOk hs).gone j hreleased
      omega
    obtain ⟨pc, hcall, -, -⟩ := live_tickets_keep_the_call hs hjob hlive
    refine ⟨_, r, pc, locked_of_hosted hs hp hhosted hcall, hjob, hcall, ?_⟩
    refine Bool.eq_false_of_not_eq_true fun hended => ?_
    rw [released_of_ended hs hended hjob] at hlive
    cases hlive
  refine ⟨fun hfree => List.eq_nil_iff_forall_not_mem.mpr fun j hj => ?_, hopen⟩
  obtain ⟨t, r, pc, hlocked, -⟩ := hopen j hj
  rw [hfree] at hlocked
  cases hlocked

/-- A host publishes a batch, and its first job lies in the inbox of the host. -/
def hostedBatch : List (Tid × Choice) :=
  hostedScope.take 7 ++ [(.ext 0, .user (.runBatch 1))] ++ List.replicate 3 (.ext 0, .go) ++
    [(.ext 0, .user .finish)] ++ List.replicate 10 (.ext 0, .go) ++
    [(.ext 0, .user .yield)] ++ List.replicate 3 (.ext 0, .go)

/-- The scope of that job is open on the thread that holds the host lock. -/
theorem hosted_batch_is_open :
    let s := poolMachine.after poolStart hostedBatch
    (s.mem.queues.queue (.inbox 1 (s.mem.pools 1).hostIndex)).elements = [0] ∧
      ∃ t r pc, (s.mem.pools 1).hostOwner.locked = some t ∧ s.mem.JobOf r 0 ∧
        .scope 1 r pc ∈ (s.threads t).stack ∧ (s.mem.scopes r).ended = false := by
  have hrun : (poolMachine.run poolStart hostedBatch).isSome := by decide +kernel
  have hs := Machine.Reachable.run (.init poolStart_init) (Machine.run_after hrun)
  have hp : (poolMachine.after poolStart hostedBatch).mem.PoolId 1 := by
    constructor <;> decide +kernel
  have hinbox : ((poolMachine.after poolStart hostedBatch).mem.queues.queue (.inbox 1
      ((poolMachine.after poolStart hostedBatch).mem.pools 1).hostIndex)).elements = [0] := by
    decide +kernel
  exact ⟨hinbox, (free_host_holds_no_work hs hp).2 0 (by simp [hinbox])⟩

end XynokConcurrency
