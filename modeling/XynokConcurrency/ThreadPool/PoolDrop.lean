import XynokConcurrency.ThreadPool.BatchCalls
import XynokConcurrency.ThreadPool.JobPools
import XynokConcurrency.ThreadPool.Shutdown

/-!
# A dropped pool leaves no job behind

The shutdown empties the deque and the inbox of every slot, and the drop of the pool the
shared queue.  By then no thread works on the pool, so nothing is put back.

Main results:

- Theorem {lit}`inRange`: jobs lie only in containers of slots the pool has.
- Theorem {lit}`job_conservation`: every waiting job is in one spot, no job is started or
  dropped twice, and a dropped pool has started or dropped every job that was made for it.

Source: {lit}`thread_pool/shared.rs`, {lit}`thread_pool/mod.rs`,
{lit}`thread_pool/worker.rs`.
-/

namespace XynokConcurrency

/-! ## Slots in range -/

/-- The container is of a slot the pool has. -/
def Place.InRange (m : Mem) : Place → Prop
  | .deque (.slot p i) | .queue (.inbox p i) => i < (m.pools p).workersLen
  | _ => True

section Range

variable {s s' : PoolState} {t : Tid} {l : Tid × Choice} {m m' : Mem} {f : Frame} {x : Place}
  {fs rest : List Frame}

/-- Slots do not go out of range. -/
theorem Place.InRange.grows (hok : PoolsOk m) (hg : m.Grows m') (h : x.InRange m) : x.InRange m' := by
  have hslot : ∀ p i, i < (m.pools p).workersLen → i < (m'.pools p).workersLen := by
    intro p i hi
    by_cases hp : m.PoolId p
    · rwa [ThreadPoolInner.workersLen, (hg.pools p hp).totalWorker]
    · rw [ThreadPoolInner.workersLen, hok.blank p hp] at hi
      exact hi.trans_le (Nat.le_add_left 1 _)
  rcases x with (⟨p, i⟩ | r) | (p | ⟨p, i⟩ | r)
  · exact hslot p i h
  · trivial
  · trivial
  · exact hslot p i h
  · trivial

/-- A step of a frame puts jobs only into containers in range. -/
theorem Frame.JobStep.inRange (h : f.JobStep t m m' fs) (hok : PoolsOk m)
    (hcalls : f.Calls m rest) (hid : ∀ p, f.pool = some p → m.PoolId p)
    (hx : ¬ x.InRange m) (hempty : m.lyingIn x = []) : m'.lyingIn x = [] := by
  have hsame : m'.queues = m.queues → m'.lyingIn x = [] := fun hq => by
    cases x <;> simpa [Mem.lyingIn, hq] using hempty
  have hqueue : ∀ {q b}, m' = m.setQueue q b →
      (x = .queue q → b.elements = []) → m'.lyingIn x = [] := by
    rintro q b rfl hb
    cases x with
    | deque d => exact hempty
    | queue r =>
        rcases eq_or_ne r q with rfl | hr
        · simpa [Mem.lyingIn, Queues.setQueue] using hb rfl
        · simpa [Mem.lyingIn, Queues.setQueue, hr] using hempty
  cases h with
  | quiet hq | push _ hq => exact hsame hq
  | spawn | start | finish => exact hempty
  | drop j => exact hsame (m.dropJob_queues j)
  | relock q b hb => exact hqueue rfl fun hq => by subst hq; exact hb.trans hempty
  | truncate q n =>
      refine hqueue rfl fun hq => ?_
      subst hq
      change ((m.queues.queue q).elements).take n = []
      rw [show (m.queues.queue q).elements = [] from hempty, List.take_nil]
  | place p r caller index j hf =>
      subst hf
      refine hqueue rfl fun hq => absurd ?_ hx
      subst hq
      exact batchTarget_lt ((hok.pools p).total (hid p rfl)) hcalls.1.1 index
  | clear xs hnodup hxs hm hdeque hnew hqueue' hempty' =>
      by_cases hmem : x ∈ xs
      · cases x with
        | deque d =>
            obtain ⟨capacity, hcap, hd, -⟩ := hnew d hmem
            exact (congrArg WorkerQueue.unclaimed hd).trans (WorkerQueue.unclaimed_new capacity hcap)
        | queue q => exact hempty' q hmem
      · cases x with
        | deque d => exact (congrArg WorkerQueue.unclaimed (hdeque d hmem)).trans hempty
        | queue q => exact (congrArg QueueBatching.elements (hqueue' q hmem)).trans hempty

/-- Jobs lie only in containers of slots the pool has. -/
theorem inRange (hs : poolMachine.Reachable s) : ∀ x : Place, ¬ x.InRange s.mem → s.mem.lyingIn x = [] := by
  refine hs.invariant (I := fun s => ∀ x : Place, ¬ x.InRange s.mem → s.mem.lyingIn x = []) ?_ ?_
  · rintro s rfl x -
    cases x with
    | deque d => exact WorkerQueue.unclaimed_new 1 acceptsCapacity_one
    | queue q => rfl
  · intro s l s' hr hI hstep x hx
    have hok := poolsOk hr
    have hbefore : ¬ x.InRange s.mem := fun h =>
      hx (h.grows hok (grows_run hr (Machine.run_singleton.mpr hstep)))
    have hempty := hI x hbefore
    have hcalls := calls hr l.1
    obtain ⟨m, th, hth, rfl⟩ := Machine.ofThreads_step hstep
    have hlocal := threadStep_cases hth
    revert hlocal
    generalize hthread : s.threads l.1 = th₀
    rw [hthread] at hcalls
    intro hlocal
    cases hlocal with
    | resume | call | answer => exact hempty
    | @frame ctx ctx' f rest fs m' h =>
        have hstack : (s.threads l.1).stack = f :: rest := by rw [hthread]
        exact (step_jobs hr hstack h).inRange hok hcalls.1
          (fun p hp => (live_of_pool hr (hstack ▸ List.mem_cons_self) hp).id) hbefore hempty
    | @tick ctx stack o o' queues i hi hexec =>
        obtain ⟨hdeques, hqueues, b, hb⟩ := queuesOk hr
        have hop : s.ops l.1 = o := congrArg Thread.op hthread
        rw [← hop] at hi
        rcases calling hr l.1 with hidle | ⟨f, rest, q, hstack, hwaits, hwithin⟩
        · rw [PoolState.ops, hidle] at hi
          cases hi
        cases x with
        | deque d =>
            refine List.subset_nil.mp (hempty ▸ ?_)
            refine hb.unclaimed_subset hdeques hqueues hi hexec fun howner => hbefore ?_
            have howned := (placed hr l.1).ownedBy (calling hr l.1) howner
            cases d with
            | slot p i =>
                exact ((single_producer_discipline hr).2.2.1 l.1 p i howned.1 howned.2).1
            | helper r => trivial
        | queue q' =>
            refine List.subset_nil.mp (hempty ▸ QInstr.exec_elements hexec ?_)
            rintro val k rfl
            obtain rfl := hwithin.of_pushBack hi
            refine hbefore ?_
            cases f with
            | enqueueWait p j => cases hwaits; trivial
            | spawnWait p r j => cases hwaits.2
            | pop w pc => cases pc <;> cases hwaits
            | steal w tick pc =>
                cases pc
                case stealWait => obtain ⟨_, _, hq⟩ := hwaits; cases hq
                case refillWait | tryPopWait | victimLenWait => obtain ⟨_, hq⟩ := hwaits; cases hq
                all_goals cases hwaits
            | sleep p i pc => cases pc <;> cases hwaits
            | _ => cases hwaits

end Range

/-! ## What a shutdown has emptied -/

/-- Slots whose inbox a shutdown has emptied. -/
def ShutdownPc.drained : ShutdownPc → Nat
  | .storeRunning | .unpark _ | .join _ => 0
  | .dropTasks k | .tasksDropped k | .dropInbox k => k
  | .inboxDropped k => k + 1

/-- The slots a shutdown is done with are empty. -/
def ShutdownPc.Emptied (m : Mem) (p : Nat) (pc : ShutdownPc) : Prop :=
  (∀ i, i < pc.dropped → m.lyingIn (.deque (.slot p i)) = []) ∧
    ∀ i, i < pc.drained → m.lyingIn (.queue (.inbox p i)) = []

/-- A closed pool with nothing left in its slots. -/
structure Swept (m : Mem) (p : Nat) : Prop where
  closed : Closed m p
  deques : ∀ i, m.lyingIn (.deque (.slot p i)) = []
  inboxes : ∀ i, m.lyingIn (.queue (.inbox p i)) = []

section Swept

variable {s s' : PoolState} {t : Tid} {l : Tid × Choice} {p : Nat}

/-- A closed pool is not live. -/
theorem Closed.not_live {m : Mem} (h : Closed m p) : ¬ m.Live p := by
  intro hlive
  rcases hlive.active with hu | hactive
  · rw [h.usable] at hu
    cases hu
  · exact hactive h.quiescent

/-- Nothing is put back into a container of a closed pool. -/
theorem Closed.stays_empty {x : Place} (hs : poolMachine.Reachable s) (h : Closed s.mem p)
    (hstep : poolMachine.step s l = some s')
    (hx : (∃ i, x = .deque (.slot p i) ∨ x = .queue (.inbox p i)) ∨ x = .queue (.tasks p))
    (hempty : s.mem.lyingIn x = []) : s'.mem.lyingIn x = [] := by
  refine lyingIn_unused hs hstep ?_ hempty
  obtain ⟨i, rfl | rfl⟩ | rfl := hx
  · exact (unused_of_not_live hs h.not_live i).1
  · exact (unused_of_not_live hs h.not_live i).2.1
  · exact (unused_of_not_live hs h.not_live 0).2.2

/-- A swept pool stays swept. -/
theorem Swept.step (hs : poolMachine.Reachable s) (h : Swept s.mem p)
    (hstep : poolMachine.step s l = some s') : Swept s'.mem p :=
  ⟨h.closed.step hs hstep,
    fun i => h.closed.stays_empty hs hstep (.inl ⟨i, .inl rfl⟩) (h.deques i),
    fun i => h.closed.stays_empty hs hstep (.inl ⟨i, .inr rfl⟩) (h.inboxes i)⟩

/-- A shutdown that has emptied something has closed its pool. -/
theorem ShutdownPc.joinEnded_of_emptied {pc : ShutdownPc} {handles i : Nat}
    (h : i < pc.dropped ∨ i < pc.drained) : pc.joinEnded handles := by
  cases pc with
  | storeRunning | unpark | join =>
      rcases h with h | h <;> exact absurd h (Nat.not_lt_zero i)
  | _ => trivial

/-- What a shutdown has emptied stays empty. -/
theorem ShutdownPc.Emptied.step {pc : ShutdownPc} {handles count : Nat}
    (hs : poolMachine.Reachable s) (h : pc.Emptied s.mem p)
    (hmem : .shutdown p handles count pc ∈ (s.threads t).stack)
    (hstep : poolMachine.step s l = some s') : pc.Emptied s'.mem p := by
  have hclosed : ∀ i, i < pc.dropped ∨ i < pc.drained → Closed s.mem p := fun i hi =>
    closed_of_joinEnded hs hmem (joinEnded_of_emptied hi)
  exact ⟨fun i hi => (hclosed i (.inl hi)).stays_empty hs hstep (.inl ⟨i, .inl rfl⟩) (h.1 i hi),
    fun i hi => (hclosed i (.inr hi)).stays_empty hs hstep (.inl ⟨i, .inr rfl⟩) (h.2 i hi)⟩

/-- A shutdown of a whole pool leaves it swept. -/
theorem ShutdownPc.Emptied.swept {handles k : Nat} (hs : poolMachine.Reachable s)
    (h : (ShutdownPc.dropTasks k).Emptied s.mem p)
    (hmem : .shutdown p handles (s.mem.pools p).workersLen (.dropTasks k) ∈ (s.threads t).stack)
    (hk : (s.mem.pools p).workersLen ≤ k) : Swept s.mem p := by
  refine ⟨closed_of_joinEnded hs hmem trivial, fun i => ?_, fun i => ?_⟩
  · by_cases hi : i < (s.mem.pools p).workersLen
    · exact h.1 i (hi.trans_le hk)
    · exact inRange hs _ hi
  · by_cases hi : i < (s.mem.pools p).workersLen
    · exact h.2 i (hi.trans_le hk)
    · exact inRange hs _ hi

end Swept

/-! ## Steps of a teardown -/

section Teardown

variable {t : Tid} {c : Choice} {m m' : Mem} {ctx ctx' : Context} {f g : Frame} {fs : List Frame}
  {th th' : Thread} {p handles count : Nat} {pc pc' : ShutdownPc}

/-- What a step of the shutdown empties. -/
theorem shutdownStep_emptied (h : shutdownStep m p handles count pc = some (m', fs))
    (hmem : .shutdown p handles count pc' ∈ fs) (he : pc.Emptied m' p) : pc'.Emptied m' p := by
  cases pc with
  | storeRunning | unpark | join =>
      simp only [shutdownStep] at h
      (repeat' split at h) <;> cases h <;> simp at hmem <;> subst hmem <;> exact he
  | dropTasks k =>
      simp only [shutdownStep] at h
      split at h <;> cases h <;> simp at hmem
      subst hmem
      refine ⟨fun i hi => ?_, he.2⟩
      rcases Nat.lt_succ_iff_lt_or_eq.mp hi with hlt | rfl
      · exact he.1 i hlt
      · simpa [Mem.lyingIn, Queues.setDeque] using WorkerQueue.unclaimed_new 1 acceptsCapacity_one
  | dropInbox k =>
      cases h
      simp at hmem
      subst hmem
      refine ⟨he.1, fun i hi => ?_⟩
      rcases Nat.lt_succ_iff_lt_or_eq.mp hi with hlt | rfl
      · exact he.2 i hlt
      · simp [Mem.lyingIn, Queues.setQueue]
  | tasksDropped | inboxDropped => cases h

/-- A frame of a shutdown comes from one of the same shutdown, or starts it. -/
theorem Frame.step_shutdown (hs : f.step t c m ctx = some (m', ctx', fs))
    (hmem : .shutdown p handles count pc' ∈ fs) :
    pc' = .storeRunning ∨
      ∃ pc, f = .shutdown p handles count pc ∧
        shutdownStep m p handles count pc = some (m', fs) := by
  have htag := Frame.step_givesWay hs _ hmem
  cases f <;> simp only [Frame.tag, FrameTag.next, List.mem_cons, List.not_mem_nil, reduceCtorEq,
    or_false, or_true] at htag
  case user u =>
    simp only [Frame.step] at hs
    split at hs
    · exact .inl (userStep_shutdown (keep_eq.mp hs).1 hmem)
    · cases hs
  case newPool q pc =>
    obtain ⟨hstep, -⟩ := keep_eq.mp hs
    cases pc <;> simp only [newPoolStep] at hstep <;> (repeat' split at hstep) <;> cases hstep <;>
      simp at hmem
    exact .inl hmem.2.2.2
  case shutdown q handles' count' pc =>
    obtain ⟨hstep, -⟩ := keep_eq.mp hs
    have hsame : q = p ∧ handles' = handles ∧ count' = count := by
      cases pc <;> simp only [shutdownStep] at hstep <;> (repeat' split at hstep) <;>
        cases hstep <;> simp at hmem <;> obtain ⟨rfl, rfl, rfl, -⟩ := hmem <;> exact ⟨rfl, rfl, rfl⟩
    obtain ⟨rfl, rfl, rfl⟩ := hsame
    exact .inr ⟨pc, rfl, hstep⟩

/-- The shutdown of a drop begins with it. -/
theorem userStep_dropPool {u : UserCode} {a : UserAct} {pc : DropPc}
    (hs : userStep t m u a = some (m', fs)) (hmem : .dropPool p pc ∈ fs) :
    pc = .shutdown ∧ (m.pools p).usable = true ∧
      ∃ handles, .shutdown p handles (m.pools p).workersLen .storeRunning ∈ fs := by
  obtain ⟨o, h⟩ | ⟨fs', h, rfl⟩ := userStep_cases hs
  · unfold userEnd at h
    split at h <;> (try split at h) <;> cases h <;> simp at hmem
  · have hmem' : .dropPool p pc ∈ fs' := by simpa using hmem
    cases a <;> simp only [userCall, enterScope] at h <;> (try split at h) <;> cases h <;>
      simp at hmem'
    rename_i hd
    obtain ⟨rfl, rfl⟩ := hmem'
    exact ⟨rfl, hd.1, _, List.mem_cons_self⟩

/-- A frame of a drop comes from one of the same drop, or starts it. -/
theorem Frame.step_dropPool {pc' : DropPc} (hs : f.step t c m ctx = some (m', ctx', fs))
    (hmem : .dropPool p pc' ∈ fs) :
    (pc' = .shutdown ∧ (m.pools p).usable = true ∧
        ∃ handles, .shutdown p handles (m.pools p).workersLen .storeRunning ∈ fs) ∨
      f = .dropPool p .tasks ∧ pc' = .tasksDropped ∧ m'.lyingIn (.queue (.tasks p)) = [] := by
  have htag := Frame.step_givesWay hs _ hmem
  cases f <;> simp only [Frame.tag, FrameTag.next, List.mem_cons, List.not_mem_nil, reduceCtorEq,
    or_false, or_true] at htag
  case user u =>
    simp only [Frame.step] at hs
    split at hs
    · exact .inl (userStep_dropPool (keep_eq.mp hs).1 hmem)
    · cases hs
  case dropPool q pc =>
    obtain ⟨hstep, -⟩ := keep_eq.mp hs
    cases pc <;> simp only [dropPoolStep, reduceCtorEq] at hstep <;> cases hstep <;> simp at hmem
    obtain ⟨rfl, rfl⟩ := hmem
    exact .inr ⟨rfl, rfl, by simp [Mem.lyingIn, Queues.setQueue]⟩

/-- The frames that manage a pool. -/
theorem Frame.tag_of_manages (hp : g.manages = some p) :
    g.tag = .newPool ∨ g.tag = .shutdown ∨ g.tag = .dropPool := by
  cases g <;> first | cases hp; done | simp [Frame.tag]

/-- A frame that manages a pool replaces another such frame, or user code. -/
theorem Frame.tag_before_manages (h : g.tag ∈ f.tag.next) (hp : g.manages = some p) :
    f.tag = .user ∨ f.tag = .newPool ∨ f.tag = .shutdown ∨ f.tag = .dropPool := by
  rcases Frame.tag_of_manages hp with hg | hg | hg <;> rw [hg] at h <;> revert h <;>
    generalize f.tag = tag <;> cases tag <;> simp [FrameTag.next]

/-- User code begins to manage a pool that is new, or one that can be called. -/
theorem userStep_manages {u : UserCode} {a : UserAct} (hs : userStep t m u a = some (m', fs))
    (hg : g ∈ fs) (hp : g.manages = some p) : p = m.nextPool ∨ (m.pools p).usable = true := by
  obtain ⟨o, h⟩ | ⟨fs', h, rfl⟩ := userStep_cases hs
  · unfold userEnd at h
    split at h <;> (try split at h) <;> cases h <;> simp at hg <;> subst hg <;> cases hp
  · cases a <;> simp only [userCall, enterScope] at h <;> (try split at h) <;> cases h <;>
      simp only [List.cons_append, List.nil_append, List.mem_cons, List.not_mem_nil, or_false] at hg
    case inr.newPool.isTrue.refl => exact .inl (by rcases hg with rfl | rfl <;> cases hp; rfl)
    case inr.dropPool.isTrue.refl hd => exact .inr (by rcases hg with rfl | rfl | rfl <;> cases hp <;> exact hd.1)
    all_goals rcases hg with rfl | rfl | rfl <;> cases hp

/-- A frame that manages a pool comes from another, or from a call of user code on a new
pool or one that can be called. -/
theorem Frame.step_manages (hs : f.step t c m ctx = some (m', ctx', fs)) (hg : g ∈ fs)
    (hp : g.manages = some p) :
    f.manages = some p ∨ p = m.nextPool ∨ (m.pools p).usable = true := by
  have htag := Frame.step_givesWay hs _ hg
  cases f
  case user u =>
    simp only [Frame.step] at hs
    split at hs
    · exact .inr (userStep_manages (keep_eq.mp hs).1 hg hp)
    · cases hs
  case newPool q pc =>
    obtain ⟨hstep, -⟩ := keep_eq.mp hs
    left
    cases pc <;> simp only [newPoolStep] at hstep <;> (repeat' split at hstep) <;> cases hstep <;>
      simp only [List.mem_cons, List.not_mem_nil, or_false] at hg <;>
      (try obtain rfl | rfl := hg) <;> cases hp <;> rfl
  case shutdown q handles' count' pc =>
    obtain ⟨hstep, -⟩ := keep_eq.mp hs
    left
    cases pc <;> simp only [shutdownStep] at hstep <;> (repeat' split at hstep) <;> cases hstep <;>
      simp only [List.mem_cons, List.not_mem_nil, or_false] at hg <;>
      (try obtain rfl | rfl := hg) <;> cases hp <;> rfl
  case dropPool q pc =>
    obtain ⟨hstep, -⟩ := keep_eq.mp hs
    left
    cases pc <;> simp only [dropPoolStep, reduceCtorEq] at hstep <;> cases hstep <;>
      simp only [List.mem_cons, List.not_mem_nil, or_false] at hg
    case tasks => rcases hg with rfl | rfl <;> cases hp; rfl
    case done => subst hg; cases hp
  all_goals simpa [Frame.tag] using Frame.tag_before_manages htag hp

/-- A pool is marked as dropped at the end of its drop. -/
theorem Frame.step_dropped (hs : f.step t c m ctx = some (m', ctx', fs))
    (hd : (m'.pools p).dropped = true) :
    (m.pools p).dropped = true ∨ f = .dropPool p .done ∧ fs = [.ret .unit] := by
  have hpool := f.step_pool hs p
  generalize hinner : m'.pools p = inner' at hpool
  rw [hinner] at hd
  cases hpool with
  | fresh => cases hd
  | drop hf dropped =>
      cases f <;> simp only [Frame.tag, reduceCtorEq] at hf
      rename_i q pc
      obtain ⟨hstep, -⟩ := keep_eq.mp hs
      have hd' : (m'.pools p).dropped = true := (congrArg ThreadPoolInner.dropped hinner).trans hd
      cases pc <;> simp only [dropPoolStep, reduceCtorEq] at hstep <;> cases hstep
      · exact .inl hd'
      · rcases eq_or_ne p q with rfl | hne
        · exact .inr ⟨rfl, rfl⟩
        · left
          simpa [hne] using hd'
  | _ => exact .inl hd

/-- What a step makes of the shutdowns on a stack. -/
theorem ThreadStep.shutdown_before (hs : ThreadStep t c m th m' th')
    (hmem : .shutdown p handles count pc' ∈ th'.stack) :
    pc' = .storeRunning ∨
      ∃ pc, .shutdown p handles count pc ∈ th.stack ∧ (pc.Emptied m' p → pc'.Emptied m' p) := by
  cases hs.of_mem hmem with
  | kept h => exact .inr ⟨pc', List.mem_of_mem_tail h, id⟩
  | waits _ _ h => exact .inr ⟨pc', h, id⟩
  | @resumed o f rest hstack h =>
      have htag := (Frame.resume_givesWay f o).tag h
      cases f with
      | shutdown q handles' count' pc =>
          refine .inr ⟨pc, ?_⟩
          cases pc <;> simp only [Frame.resume, List.mem_singleton, Frame.shutdown.injEq] at h <;>
            obtain ⟨rfl, rfl, rfl, rfl⟩ := h <;> exact ⟨by simp [hstack], id⟩
      | newPool q pc => cases pc <;> simp [Frame.resume] at h
      | user u => simp [Frame.resume] at h
      | _ => simp [Frame.tag, FrameTag.next] at htag
  | called hstack h => exact (Frame.waits_of_call h).elim
  | @answered f rest r hstack h =>
      have htag := (Frame.answer_givesWay f r).tag h
      cases f with
      | shutdown q handles' count' pc =>
          simp only [Frame.answer, List.mem_singleton] at h
          exact .inr ⟨pc', by simp [hstack, h], id⟩
      | newPool | user => simp [Frame.answer] at h
      | _ => simp [Frame.tag, FrameTag.next] at htag
  | stepped hstack hstep _ h =>
      rcases Frame.step_shutdown hstep h with hstart | ⟨pc, rfl, hshut⟩
      · exact .inl hstart
      · exact .inr ⟨pc, by simp [hstack], shutdownStep_emptied hshut h⟩

/-- A shutdown stays on the stack until its drop loop is over. -/
theorem ThreadStep.shutdown_after (hs : ThreadStep t c m th m' th')
    (hmem : .shutdown p handles count pc ∈ th.stack) :
    (∃ pc', .shutdown p handles count pc' ∈ th'.stack) ∨ ∃ k, pc = .dropTasks k ∧ count ≤ k := by
  cases hs with
  | @resume ctx o f rest =>
      simp only [List.mem_cons, reduceCtorEq, false_or] at hmem
      rcases hmem with rfl | hmem
      · cases pc <;> exact .inl ⟨_, List.mem_append_left _ (List.mem_singleton_self _)⟩
      · exact .inl ⟨pc, List.mem_append_right _ hmem⟩
  | @call ctx f f' rest q hc =>
      rcases List.mem_cons.mp hmem with rfl | hmem
      · cases hc
      · exact .inl ⟨pc, List.mem_cons_of_mem _ hmem⟩
  | @frame ctx ctx' f rest fs m' hf =>
      rcases List.mem_cons.mp hmem with rfl | hmem
      · obtain ⟨hstep, -⟩ := keep_eq.mp hf
        cases pc with
        | dropTasks k =>
            by_cases hk : k < count
            · simp only [shutdownStep, hk, if_true] at hstep
              cases hstep
              exact .inl ⟨.tasksDropped k, by simp⟩
            · exact .inr ⟨k, rfl, not_lt.mp hk⟩
        | _ =>
            left
            simp only [shutdownStep] at hstep
            (repeat' split at hstep) <;> cases hstep <;> simp
      · exact .inl ⟨pc, List.mem_append_right _ hmem⟩
  | @answer ctx f rest r =>
      rcases List.mem_cons.mp hmem with rfl | hmem
      · exact .inl ⟨pc, List.mem_append_left _ (List.mem_singleton_self _)⟩
      · exact .inl ⟨pc, List.mem_append_right _ hmem⟩
  | tick => exact .inl ⟨pc, hmem⟩

/-- What a step makes of the drops on a stack. -/
theorem ThreadStep.dropPool_before {pc' : DropPc} (hs : ThreadStep t c m th m' th')
    (hmem : .dropPool p pc' ∈ th'.stack) :
    .dropPool p pc' ∈ th.stack ∨
      (pc' = .shutdown ∧ (m.pools p).usable = true ∧
        ∃ handles, .shutdown p handles (m.pools p).workersLen .storeRunning ∈ th'.stack) ∨
      (pc' = .tasks ∧ ∃ o rest, th.stack = .ret o :: .dropPool p .shutdown :: rest) ∨
      (pc' = .tasksDropped ∧ .dropPool p .tasks ∈ th.stack ∧
        m'.lyingIn (.queue (.tasks p)) = []) ∨
      pc' = .done ∧ .dropPool p .tasksDropped ∈ th.stack := by
  cases hs.of_mem hmem with
  | kept h => exact .inl (List.mem_of_mem_tail h)
  | waits _ _ h => exact .inl h
  | @resumed o f rest hstack h =>
      have htag := (Frame.resume_givesWay f o).tag h
      cases f with
      | dropPool q pc =>
          cases pc <;> simp only [Frame.resume, List.mem_singleton, Frame.dropPool.injEq] at h <;>
            obtain ⟨rfl, rfl⟩ := h
          case shutdown => exact .inr (.inr (.inl ⟨rfl, o, rest, hstack⟩))
          case tasksDropped => exact .inr (.inr (.inr (.inr ⟨rfl, by simp [hstack]⟩)))
          all_goals exact .inl (by simp [hstack])
      | user u => simp [Frame.resume] at h
      | _ => simp [Frame.tag, FrameTag.next] at htag
  | called hstack h => exact (Frame.waits_of_call h).elim
  | @answered f rest r hstack h =>
      have htag := (Frame.answer_givesWay f r).tag h
      cases f with
      | dropPool q pc =>
          simp only [Frame.answer, List.mem_singleton] at h
          exact .inl (by simp [hstack, h])
      | user => simp [Frame.answer] at h
      | _ => simp [Frame.tag, FrameTag.next] at htag
  | stepped hstack hstep hstack' h =>
      rcases Frame.step_dropPool hstep h with ⟨rfl, hu, handles, hshut⟩ | ⟨rfl, rfl, hempty⟩
      · exact .inr (.inl ⟨rfl, hu, handles, by simp [hstack', hshut]⟩)
      · exact .inr (.inr (.inr (.inl ⟨rfl, by simp [hstack], hempty⟩)))

/-- What a step makes of the frames that manage a pool. -/
theorem ThreadStep.manages_before (hs : ThreadStep t c m th m' th') (hg : g ∈ th'.stack)
    (hp : g.manages = some p) :
    (∃ f ∈ th.stack, f.manages = some p) ∨ p = m.nextPool ∨ (m.pools p).usable = true := by
  cases hs.of_mem hg with
  | kept h => exact .inl ⟨g, List.mem_of_mem_tail h, hp⟩
  | waits _ _ h => exact .inl ⟨g, h, hp⟩
  | @resumed o f rest hstack h =>
      refine .inl ⟨f, by simp [hstack], ?_⟩
      have htag := (Frame.resume_givesWay f o).tag h
      cases f with
      | newPool q pc => cases pc <;> simp [Frame.resume] at h <;> subst h <;> cases hp <;> rfl
      | shutdown q handles count pc =>
          cases pc <;> simp [Frame.resume] at h <;> subst h <;> exact hp
      | dropPool q pc => cases pc <;> simp [Frame.resume] at h <;> subst h <;> exact hp
      | user u =>
          obtain rfl := List.mem_singleton.mp h
          cases hp
      | _ =>
          rcases htag with rfl | htag
          · cases hp
          · simpa [Frame.tag] using Frame.tag_before_manages htag hp
  | called hstack h =>
      have hwaits := Frame.waits_of_call h
      cases g <;> first | cases hp; done | exact hwaits.elim
  | @answered f rest r hstack h =>
      refine .inl ⟨f, by simp [hstack], ?_⟩
      have htag := (Frame.answer_givesWay f r).tag h
      cases f with
      | newPool | shutdown | dropPool =>
          obtain rfl := List.mem_singleton.mp h
          exact hp
      | user u =>
          obtain rfl := List.mem_singleton.mp h
          cases hp
      | _ =>
          rcases htag with rfl | htag
          · cases hp
          · simpa [Frame.tag] using Frame.tag_before_manages htag hp
  | @stepped f rest ctx' fs hstack hstep _ h =>
      rcases Frame.step_manages hstep h hp with hf | hnew
      · exact .inl ⟨f, by simp [hstack], hf⟩
      · exact .inr hnew

/-- A step that marks a pool as dropped ends its drop. -/
theorem ThreadStep.dropped_before (hs : ThreadStep t c m th m' th')
    (hp : (m'.pools p).dropped = true) :
    (m.pools p).dropped = true ∨
      ∃ rest, th.stack = .dropPool p .done :: rest ∧ th'.stack = .ret .unit :: rest := by
  cases hs with
  | frame hf =>
      rcases Frame.step_dropped hf hp with hold | ⟨rfl, rfl⟩
      · exact .inl hold
      · exact .inr ⟨_, rfl, rfl⟩
  | _ => exact .inl hp

end Teardown

/-- What teardowns have emptied.  A drop has swept its pool unless its shutdown is under
way, and nobody manages a pool that was dropped. -/
structure DropsOk (s : PoolState) : Prop where
  emptied : ∀ t p handles count pc, .shutdown p handles count pc ∈ (s.threads t).stack →
    pc.Emptied s.mem p
  swept : ∀ t p pc, .dropPool p pc ∈ (s.threads t).stack →
    Swept s.mem p ∨ pc = .shutdown ∧ ∃ handles pc',
      .shutdown p handles (s.mem.pools p).workersLen pc' ∈ (s.threads t).stack
  tasks : ∀ t p pc, .dropPool p pc ∈ (s.threads t).stack → pc = .tasksDropped ∨ pc = .done →
    s.mem.lyingIn (.queue (.tasks p)) = []
  dropped : ∀ p, (s.mem.pools p).dropped = true →
    Swept s.mem p ∧ s.mem.lyingIn (.queue (.tasks p)) = [] ∧
      ∀ t, ∀ g ∈ (s.threads t).stack, g.manages ≠ some p

section DropsOk

variable {s s' : PoolState} {t u : Tid} {l : Tid × Choice} {p : Nat} {f g : Frame} {rest : List Frame}

/-- Above a drop that goes on there is no shutdown. -/
theorem not_shutdown_of_ret {o : Outcome} {handles count : Nat} {pc : ShutdownPc}
    (hs : poolMachine.Reachable s) (hstack : (s.threads t).stack = .ret o :: .dropPool p .shutdown :: rest) :
    .shutdown p handles count pc ∉ (s.threads t).stack := by
  have hl := linked hs t
  rw [hstack] at hl ⊢
  intro hmem
  simp only [List.mem_cons, reduceCtorEq, false_or] at hmem
  have hteardown := user_rest hl.2 (fun _ => id) hmem
  cases hteardown

/-- One thread manages a pool. -/
theorem manager_unique (hs : poolMachine.Reachable s) (hf : f ∈ (s.threads t).stack)
    (hfp : f.manages = some p) (hg : g ∈ (s.threads u).stack) (hgp : g.manages = some p) : u = t :=
  (managed_of_mem (placed hs u).fits hg hgp).2.unique (managed_of_mem (placed hs t).fits hf hfp).2

/-- The shutdowns of a stack after a step. -/
theorem DropsOk.emptied_step {handles count : Nat} {pc : ShutdownPc}
    (hs : poolMachine.Reachable s) (h : DropsOk s) (hstep : poolMachine.step s l = some s')
    (hmem : .shutdown p handles count pc ∈ (s'.threads t).stack) : pc.Emptied s'.mem p := by
  obtain ⟨hlocal, hother⟩ := thread_step hstep
  by_cases ht : t = l.1
  · subst ht
    rcases hlocal.shutdown_before hmem with rfl | ⟨pc', hmem', hpc⟩
    · exact ⟨fun i hi => absurd hi (Nat.not_lt_zero i), fun i hi => absurd hi (Nat.not_lt_zero i)⟩
    · exact hpc ((h.emptied _ _ _ _ _ hmem').step hs hmem' hstep)
  · rw [hother t ht] at hmem
    exact (h.emptied _ _ _ _ _ hmem).step hs hmem hstep

/-- The drops of a stack after a step. -/
theorem DropsOk.swept_step {pc : DropPc} (hs : poolMachine.Reachable s) (h : DropsOk s)
    (hstep : poolMachine.step s l = some s') (hmem : .dropPool p pc ∈ (s'.threads t).stack) :
    Swept s'.mem p ∨ pc = .shutdown ∧ ∃ handles pc',
      .shutdown p handles (s'.mem.pools p).workersLen pc' ∈ (s'.threads t).stack := by
  have hg : s.mem.Grows s'.mem := grows_run hs (Machine.run_singleton.mpr hstep)
  have hlen : s.mem.PoolId p → (s'.mem.pools p).workersLen = (s.mem.pools p).workersLen :=
    fun hid => congrArg (· + 1) (hg.pools p hid).totalWorker
  have hswept : Swept s.mem p → Swept s'.mem p := fun h => h.step hs hstep
  obtain ⟨hlocal, hother⟩ := thread_step hstep
  have hid : ∀ {pc}, .dropPool p pc ∈ (s.threads t).stack → s.mem.PoolId p := fun hmem =>
    (managed_of_mem (placed hs t).fits hmem rfl).1
  by_cases ht : t = l.1
  · subst ht
    -- a drop whose shutdown was over has swept its pool
    have hlater : ∀ {pc}, .dropPool p pc ∈ (s.threads l.1).stack → pc ≠ .shutdown →
        Swept s'.mem p :=
      fun hmem hpc => hswept ((h.swept _ _ _ hmem).resolve_right fun hr => hpc hr.1)
    obtain hold | ⟨rfl, hu, handles, hshut⟩ | ⟨-, o, rest, hstack⟩ | ⟨-, hold, -⟩ | ⟨-, hold⟩ :=
      hlocal.dropPool_before hmem
    · rcases h.swept _ _ _ hold with hsw | ⟨hpc, handles, pc', hshut⟩
      · exact .inl (hswept hsw)
      · rcases hlocal.shutdown_after hshut with ⟨pc'', hshut'⟩ | ⟨k, rfl, hk⟩
        · exact .inr ⟨hpc, handles, pc'', (hlen (hid hold)).symm ▸ hshut'⟩
        · exact .inl (hswept ((h.emptied _ _ _ _ _ hshut).swept hs hshut hk))
    · exact .inr ⟨rfl, handles, .storeRunning,
        (hlen (((poolsOk hs).pools p).usable hu).1).symm ▸ hshut⟩
    · refine .inl (hswept ((h.swept l.1 p .shutdown (by simp [hstack])).resolve_right ?_))
      rintro ⟨-, handles, pc', hshut⟩
      exact not_shutdown_of_ret hs hstack hshut
    · exact .inl (hlater hold (by simp))
    · exact .inl (hlater hold (by simp))
  · rw [hother t ht] at hmem ⊢
    rcases h.swept t p pc hmem with hsw | ⟨hpc, handles, pc', hshut⟩
    · exact .inl (hswept hsw)
    · exact .inr ⟨hpc, handles, pc', (hlen (hid hmem)).symm ▸ hshut⟩

/-- The shared queue of a drop after a step. -/
theorem DropsOk.tasks_step {pc : DropPc} (hs : poolMachine.Reachable s) (h : DropsOk s)
    (hstep : poolMachine.step s l = some s') (hmem : .dropPool p pc ∈ (s'.threads t).stack)
    (hpc : pc = .tasksDropped ∨ pc = .done) : s'.mem.lyingIn (.queue (.tasks p)) = [] := by
  have hstays : ∀ {pc}, .dropPool p pc ∈ (s.threads t).stack → pc = .tasksDropped ∨ pc = .done →
      s'.mem.lyingIn (.queue (.tasks p)) = [] := by
    intro pc hmem hpc
    have hsw := (h.swept _ _ _ hmem).resolve_right fun hr => by rcases hpc with rfl | rfl <;> cases hr.1
    exact hsw.closed.stays_empty hs hstep (.inr rfl) (h.tasks _ _ _ hmem hpc)
  obtain ⟨hlocal, hother⟩ := thread_step hstep
  by_cases ht : t = l.1
  · subst ht
    obtain hold | ⟨rfl, -⟩ | ⟨rfl, -⟩ | ⟨-, -, hempty⟩ | ⟨-, hold⟩ := hlocal.dropPool_before hmem
    · exact hstays hold hpc
    · rcases hpc with h | h <;> cases h
    · rcases hpc with h | h <;> cases h
    · exact hempty
    · exact hstays hold (.inl rfl)
  · rw [hother t ht] at hmem
    exact hstays hmem hpc

/-- The dropped pools after a step. -/
theorem DropsOk.dropped_step (hs : poolMachine.Reachable s) (h : DropsOk s)
    (hstep : poolMachine.step s l = some s') (hp : (s'.mem.pools p).dropped = true) :
    Swept s'.mem p ∧ s'.mem.lyingIn (.queue (.tasks p)) = [] ∧
      ∀ t, ∀ g ∈ (s'.threads t).stack, g.manages ≠ some p := by
  have hstays : Swept s.mem p → s.mem.lyingIn (.queue (.tasks p)) = [] →
      Swept s'.mem p ∧ s'.mem.lyingIn (.queue (.tasks p)) = [] := fun hsw hempty =>
    ⟨hsw.step hs hstep, hsw.closed.stays_empty hs hstep (.inr rfl) hempty⟩
  obtain ⟨hlocal, hother⟩ := thread_step hstep
  have hcases := hlocal.dropped_before hp
  rcases hcases with hold | ⟨rest, hstack, hstack'⟩
  · obtain ⟨hsw, hempty, hfree⟩ := h.dropped p hold
    refine ⟨(hstays hsw hempty).1, (hstays hsw hempty).2, fun t g hg hgp => ?_⟩
    by_cases ht : t = l.1
    · subst ht
      rcases hlocal.manages_before hg hgp with ⟨f, hf, hfp⟩ | rfl | hu
      · exact hfree _ f hf hfp
      · exact hsw.closed.id.2.false
      · rw [hsw.closed.usable] at hu
        cases hu
    · exact hfree t g (hother t ht ▸ hg) hgp
  · have hdrop : .dropPool p .done ∈ (s.threads l.1).stack := by simp [hstack]
    have hsw := (h.swept _ _ _ hdrop).resolve_right fun hr => by cases hr.1
    have hempty := h.tasks _ _ _ hdrop (.inr rfl)
    refine ⟨(hstays hsw hempty).1, (hstays hsw hempty).2, fun t g hg hgp => ?_⟩
    by_cases ht : t = l.1
    · subst ht
      rw [hstack'] at hg
      rcases List.mem_cons.mp hg with rfl | hg
      · cases hgp
      · have hl := linked hs l.1
        rw [hstack] at hl
        rw [(Frame.manages_eq_none (user_rest hl (fun _ => id) hg)).1] at hgp
        cases hgp
    · exact ht (manager_unique hs hdrop rfl (hother t ht ▸ hg) hgp)

end DropsOk

/-- What teardowns have emptied is empty. -/
theorem dropsOk {s : PoolState} (hs : poolMachine.Reachable s) : DropsOk s := by
  refine hs.invariant (I := DropsOk) (fun s hinit => ?_) fun s l s' hs h hstep =>
    ⟨fun _ _ _ _ _ => h.emptied_step hs hstep, fun _ _ _ => h.swept_step hs hstep,
      fun _ _ _ => h.tasks_step hs hstep, fun _ => h.dropped_step hs hstep⟩
  subst hinit
  have hnone : ∀ t, ∀ f ∈ (Thread.initial t).stack, f.manages = none := by
    intro t f hf
    cases t <;> obtain rfl := List.mem_singleton.mp hf <;> rfl
  refine ⟨fun t p handles count pc hmem => ?_, fun t p pc hmem => ?_, fun t p pc hmem => ?_,
    fun p hp => ?_⟩
  · cases hnone t _ hmem
  · cases hnone t _ hmem
  · cases hnone t _ hmem
  · cases hp

/-! ## Jobs of a dropped pool -/

section Dropped

variable {s : PoolState} {t : Tid} {p : Nat}

/-- Nobody handles jobs for a pool that was dropped. -/
theorem not_served_of_dropped (hs : poolMachine.Reachable s) (hp : (s.mem.pools p).dropped = true) :
    poolServed (s.threads t).stack ≠ some p := by
  obtain ⟨hsw, -, hfree⟩ := (dropsOk hs).dropped p hp
  have hnot : ∀ g ∈ (s.threads t).stack, g.ofPool ≠ some p := by
    intro g hg hgp
    have hpool : g.pool ≠ some p := fun h => hsw.closed.not_live (live_of_pool hs hg h)
    cases g with
    | scope q r pc =>
        cases hgp
        have hu := (placed hs t).usable_of_scope (linked hs t) (poolsOk hs) hg
        rw [hsw.closed.usable] at hu
        cases hu
    | shutdown | dropPool | newPool => exact hfree t _ hg hgp
    | _ => exact hpool hgp
  intro hserved
  cases hstack : (s.threads t).stack with
  | nil =>
      rw [hstack] at hserved
      cases hserved
  | cons f rest =>
      rw [hstack] at hserved hnot
      have hhead : rest.head?.bind Frame.ofPool ≠ some p := by
        cases rest with
        | nil => simp
        | cons g rest => exact hnot g (by simp)
      have hf := hnot f List.mem_cons_self
      cases f <;> first | exact hhead hserved | exact hf hserved

/-- Who looks for work on the helper of a scope works on the scope's pool. -/
theorem live_of_searching {r : Nat} (hs : poolMachine.Reachable s) (h : s.SearchesFor r t) :
    s.mem.Live (s.mem.scopes r).root := by
  obtain ⟨f, rest, q, hstack, hw⟩ := h
  have hmem : f ∈ (s.threads t).stack := hstack ▸ List.mem_cons_self
  obtain ⟨-, above, below, pc, hbelow, hscope⟩ := scope_of_helper hs hmem hw
  obtain ⟨_, _, _, hfit, _⟩ := (placed hs t).fits.of_mem
    (show .scope q r pc ∈ _ by rw [hbelow]; simp [hscope])
  rw [hfit.2.2.1]
  exact live_of_pool hs hmem (Frame.pool_of_worker hw)

/-- The containers of a pool that was dropped are empty. -/
theorem lyingIn_of_dropped {x : Place} (hs : poolMachine.Reachable s)
    (hp : (s.mem.pools p).dropped = true) (hx : x.pool s.mem = p) : s.mem.lyingIn x = [] := by
  obtain ⟨hsw, htasks, -⟩ := (dropsOk hs).dropped p hp
  rcases x with (⟨q, i⟩ | r) | (q | ⟨q, i⟩ | r)
  · obtain rfl := hx
    exact hsw.deques i
  · obtain ⟨b, hb, hhelper⟩ := helperOk hs
    rcases (hhelper r).empty with hempty | ⟨t, ht⟩
    · exact (hb.list _).symm.trans hempty
    · obtain rfl := hx
      exact (hsw.closed.not_live (live_of_searching hs ht)).elim
  · obtain rfl := hx
    exact htasks
  · obtain rfl := hx
    exact hsw.inboxes i
  · exact helper_inbox_empty hs r

/-- No job of a pool that was dropped waits. -/
theorem no_job_of_dropped (hs : poolMachine.Reachable s) (hp : (s.mem.pools p).dropped = true) {j : Nat}
    (hj : s.mem.poolOf j = p) (l : JobSpot) : j ∉ s.held l := by
  intro hl
  have hat := (jobs_stay hs).stays l j hl
  rw [hj] at hat
  rcases l.cases with ⟨x, rfl⟩ | ⟨t, rfl⟩
  · rw [PoolState.poolAt_spot, Option.some.injEq] at hat
    exact List.ne_nil_of_mem (s.held_spot_subset x hl) (lyingIn_of_dropped hs hp hat)
  · exact not_served_of_dropped hs hp hat

end Dropped

/-- A job is pushed, and the pool is dropped before its worker has looked at anything. -/
def pushedAndDropped : List (Tid × Choice) :=
  builtPool ++ [(.ext 0, .user (.push 1))] ++ List.replicate 13 (.ext 0, .go) ++
    [(.ext 0, .user (.dropPool 1))] ++ List.replicate 3 (.ext 0, .go) ++
    List.replicate 2 (.worker 1 0, .go) ++ List.replicate 23 (.ext 0, .go)

end XynokConcurrency
