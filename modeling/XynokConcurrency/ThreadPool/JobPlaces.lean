import XynokConcurrency.ThreadPool.QueueMoves
import XynokConcurrency.ThreadPool.QueueState

/-!
# Where the jobs are

A job nobody has started lies in a deque, in a queue, or is in the hands of a thread:
of the operation it has under way, or of a frame.  A step of the pool moves jobs between
these spots, makes one, or takes one out to start it or to drop it.

Main results:

- Theorem {lit}`step_exchange`: every step is an exchange between spots, and says which
  job came in or went.

Source: {lit}`thread_pool/worker_queue.rs`, {lit}`thread_pool/worker.rs`,
{lit}`thread_pool/scope.rs`.
-/

namespace XynokConcurrency

/-- Where a job can be. -/
abbrev JobSpot := Spot DequeId QueueId Tid

/-- Jobs in the hands of the frames of a thread. -/
def Thread.carries (th : Thread) : List Nat :=
  th.stack.flatMap Frame.carries

/-- Jobs that nobody has started, by the spot they are at. -/
def PoolState.held (s : PoolState) : JobSpot → List Nat
  | .deque d => (s.mem.queues.deque d).unclaimed
  | .queue q => s.mem.queues.avail s.ops q
  | .hands t => (s.ops t).hands s.mem.queues ++ (s.threads t).carries

/-- The spot of a container. -/
def Place.spot : Place → JobSpot
  | .deque d => .deque d
  | .queue q => .queue q

/-- Jobs in the hands of frames, by the spot they are at. -/
def PoolState.inFrames (s : PoolState) : JobSpot → List Nat
  | .hands t => (s.threads t).carries
  | _ => []

/-- A step of a queue operation leaves the frames alone. -/
theorem PoolState.inFrames_update {s : PoolState} {t : Tid} {m : Mem} {th : Thread}
    (h : th.stack = (s.threads t).stack) :
    PoolState.inFrames ⟨m, Function.update s.threads t th⟩ = s.inFrames := by
  funext l
  cases l with
  | hands u =>
      rcases eq_or_ne u t with rfl | hu
      · simp [inFrames, Thread.carries, h]
      · simp [inFrames, hu]
  | _ => rfl

theorem PoolState.held_eq (s : PoolState) :
    s.held = fun l => s.mem.queues.held s.ops l ++ s.inFrames l := by
  funext l
  cases l with
  | hands t => rfl
  | _ => exact (List.append_nil _).symm

theorem Place.spot_injective : Function.Injective Place.spot := by
  rintro (d | q) (e | r) h <;> cases h <;> rfl

/-- What is at the spot of a container lies in it. -/
theorem PoolState.held_spot_subset (s : PoolState) (x : Place) : s.held x.spot ⊆ s.mem.lyingIn x := by
  intro j hj
  cases x with
  | deque d => exact hj
  | queue q =>
      simp only [Place.spot, PoolState.held, Queues.avail] at hj
      split at hj
      · exact List.mem_of_mem_drop hj
      · exact hj

/-- A spot is that of a container, or the hands of a thread. -/
theorem Spot.cases (l : JobSpot) : (∃ x : Place, l = x.spot) ∨ ∃ t, l = .hands t := by
  cases l with
  | deque d => exact .inl ⟨.deque d, rfl⟩
  | queue q => exact .inl ⟨.queue q, rfl⟩
  | hands t => exact .inr ⟨t, rfl⟩

/-- What a step does to the records of the jobs, and which job comes in or goes. -/
inductive JobChange (t : Tid) (m m' : Mem) : List Nat → List Nat → Prop
  /-- No job comes in or goes. -/
  | stay (hstarts : ∀ j, (m'.jobs j).starts = (m.jobs j).starts)
      (hdrops : ∀ j, (m'.jobs j).drops = (m.jobs j).drops)
      (hhome : ∀ j, (m'.jobs j).home = (m.jobs j).home) (hnext : m'.nextJob = m.nextJob) :
      JobChange t m m' [] []
  /-- A job is made. -/
  | made (home : Home) (hjobs : m'.jobs = Function.update m.jobs m.nextJob (.fresh home))
      (hnext : m'.nextJob = m.nextJob + 1) : JobChange t m m' [m.nextJob] []
  /-- A job is started, or dropped without being started. -/
  | went (j : Nat) (h : (m'.jobs j).starts = (m.jobs j).starts + 1 ∧
        (m'.jobs j).drops = (m.jobs j).drops ∨
      (m'.jobs j).starts = (m.jobs j).starts ∧ (m'.jobs j).drops = (m.jobs j).drops + 1)
      (hhome : (m'.jobs j).home = (m.jobs j).home)
      (hsame : ∀ k, k ≠ j → m'.jobs k = m.jobs k) (hnext : m'.nextJob = m.nextJob) :
      JobChange t m m' [] [j]

/-- A spot a thread can get at: its own hands, or a container its innermost frame works on
or finds something in to take out. -/
def PoolState.Reaches (s : PoolState) (t : Tid) (l : JobSpot) : Prop :=
  l = .hands t ∨ ∃ x : Place, l = x.spot ∧ ∃ f rest, (s.threads t).stack = f :: rest ∧
    (f.WorksOn x ∨ f.Clears s.mem x ∧ s.mem.lyingIn x ≠ [])

section Steps

variable {s s' : PoolState} {t : Tid} {c : Choice} {f : Frame} {rest fs : List Frame} {m : Mem}
  {ctx ctx' : Context} {q : QueueId}

/-- What nobody works on is available as it lies. -/
theorem avail_eq_elements {m : Mem} {ops : Tid → Op DequeId QueueId Nat}
    (h : ∀ u, (ops u).holds ≠ some q) : m.queues.avail ops q = (m.queues.queue q).elements := by
  unfold Queues.avail
  split
  · rw [Op.draining_eq_zero (h _), List.drop_zero]
  · rfl

/-- A queue that is free, or locked by a frame, is available as it lies. -/
theorem avail_of_frame (hs : poolMachine.Reachable s) (hf : f ∈ (s.threads t).stack)
    (hidle : (s.threads t).op = .idle)
    (h : (s.mem.queues.queue q).locked = none ∨ f.holds = some (.queue q)) (u : Tid) :
    (s.ops u).holds ≠ some q := by
  intro hq
  have hlocked := locked_of_holds hs hq
  rcases h with h | h
  · rw [hlocked] at h
    cases h
  · have hmine := locked_of_frame hs hf h
    obtain rfl : u = t := Option.some.inj (hlocked.symm.trans hmine)
    simp only [PoolState.ops, hidle, Op.holds, reduceCtorEq] at hq

/-- What is put at the end of a queue is available, whoever drains the front. -/
theorem avail_append (hq : QueuesInv s.mem.queues.queue s.ops) {queues : Queues DequeId QueueId Tid Nat}
    {more : List Nat} (hlock : (queues.queue q).locked = (s.mem.queues.queue q).locked)
    (hmore : (queues.queue q).elements = (s.mem.queues.queue q).elements ++ more) :
    queues.avail s.ops q = s.mem.queues.avail s.ops q ++ more := by
  unfold Queues.avail
  rw [hlock, hmore]
  split
  · rename_i u hu
    refine List.drop_append_of_le_length ?_
    by_cases hholds : (s.ops u).holds = some q
    · exact hq.enough u q hholds
    · rw [Op.draining_eq_zero hholds]
      exact Nat.zero_le _
  · rfl

/-- A container no operation has locked holds what lies in it. -/
theorem held_of_free {x : Place} (hx : ∀ q u, x = .queue q → (s.ops u).holds ≠ some q) :
    s.held x.spot = s.mem.lyingIn x := by
  cases x with
  | deque d => rfl
  | queue q => exact avail_eq_elements fun u => hx q u rfl

/-- State after a step of the innermost frame of a thread. -/
def PoolState.framed (s : PoolState) (t : Tid) (m : Mem) (ctx : Context) (stack : List Frame) :
    PoolState :=
  ⟨m, Function.update s.threads t ⟨ctx, stack, .idle⟩⟩

theorem PoolState.framed_ops (hidle : (s.threads t).op = .idle) (stack : List Frame) :
    (s.framed t m ctx stack).ops = s.ops := by
  rw [PoolState.framed, PoolState.ops_update]
  conv_lhs => rw [show Op.idle = s.ops t from hidle.symm]
  exact Function.update_eq_self ..

/-- Containers with nothing in them add nothing. -/
theorem flatMap_filter_ne_nil {α β : Type} [DecidableEq β] (xs : List α) (g : α → List β) :
    (xs.filter (g · ≠ [])).flatMap g = xs.flatMap g := by
  induction xs with
  | nil => rfl
  | cons x xs ih => by_cases hx : g x = [] <;> simp [hx, ← ih]

section Frames

variable (hs : poolMachine.Reachable s) (hstack : (s.threads t).stack = f :: rest)
  (hidle : (s.threads t).op = .idle) (h : f.step t c s.mem ctx = some (m, ctx', fs))
include hs hstack hidle h

/-- What is in the hands of the threads after a step of a frame. -/
theorem framed_hands (u : Tid) :
    (s.framed t m ctx' (fs ++ rest)).held (.hands u) =
      if u = t then fs.flatMap Frame.carries ++ rest.flatMap Frame.carries
      else s.held (.hands u) := by
  simp only [PoolState.held, PoolState.framed_ops hidle]
  rw [show (s.ops u).hands (s.framed t m ctx' (fs ++ rest)).mem.queues =
    (s.ops u).hands s.mem.queues from step_hands hs (queuesOk hs).queues hstack hidle h u]
  split
  · subst u
    simp only [PoolState.ops, hidle]
    simp [PoolState.framed, Thread.carries]
  · rename_i hu
    simp [PoolState.framed, hu]

omit hs h in
/-- What is in the hands of the thread before a step of its frame. -/
theorem hands_before : s.held (.hands t) = f.carries ++ rest.flatMap Frame.carries := by
  simp [PoolState.held, PoolState.ops, hidle, Thread.carries, hstack]

/-- A step of a frame is an exchange between the containers it changes and the hands of
its thread. -/
theorem framed_exchange {new gone : List Nat} (xs : List Place) (hnodup : xs.Nodup)
    (hsame : ∀ x, x ∉ xs → (s.framed t m ctx' (fs ++ rest)).held x.spot = s.held x.spot)
    (hperm : (gone ++ (xs.flatMap (fun x => (s.framed t m ctx' (fs ++ rest)).held x.spot) ++
      fs.flatMap Frame.carries)).Perm
      (new ++ (xs.flatMap (fun x => s.held x.spot) ++ f.carries))) :
    Exchange s.held (s.framed t m ctx' (fs ++ rest)).held (xs.map Place.spot ++ [.hands t]) new
      gone := by
  refine ⟨?_, fun l hl => ?_, ?_⟩
  · refine List.nodup_append'.mpr ⟨hnodup.map Place.spot_injective, List.nodup_singleton _, ?_⟩
    rintro l hl hl'
    obtain ⟨x, -, rfl⟩ := List.mem_map.mp hl
    cases x <;> simp [Place.spot] at hl'
  · obtain ⟨hxs, ht⟩ := not_or.mp (fun h => hl (List.mem_append.mpr h))
    rcases l.cases with ⟨x, rfl⟩ | ⟨u, rfl⟩
    · exact hsame x fun hx => hxs (List.mem_map_of_mem hx)
    · have hu : u ≠ t := fun hu => ht (by simp [hu])
      rw [framed_hands hs hstack hidle h, if_neg hu]
  · simp only [List.flatMap_append, List.flatMap_map, List.flatMap_singleton]
    rw [framed_hands hs hstack hidle h, if_pos rfl, hands_before hstack hidle]
    simpa only [List.append_assoc] using hperm.append_right (rest.flatMap Frame.carries)

omit hs hstack h in
/-- A container that a step leaves alone holds what it held. -/
theorem framed_held {x : Place} (hx : match x with
      | .deque d => m.queues.deque d = s.mem.queues.deque d
      | .queue q => m.queues.queue q = s.mem.queues.queue q) :
    (s.framed t m ctx' (fs ++ rest)).held x.spot = s.held x.spot := by
  cases x with
  | deque d => exact congrArg WorkerQueue.unclaimed hx
  | queue q =>
      simp only [Place.spot, PoolState.held, PoolState.framed_ops hidle, Queues.avail]
      simp only [PoolState.framed]
      rw [hx]

/-- Every step of a frame is an exchange between spots its thread can get at. -/
theorem framed_step_exchange :
    ∃ places new gone, Exchange s.held (s.framed t m ctx' (fs ++ rest)).held places new gone ∧
      JobChange t s.mem m new gone ∧ ∀ l ∈ places, s.Reaches t l := by
  have hreaches : ∀ xs : List Place,
      (∀ x ∈ xs, f.WorksOn x ∨ f.Clears s.mem x ∧ s.mem.lyingIn x ≠ []) →
      ∀ l ∈ xs.map Place.spot ++ [.hands t], s.Reaches t l := by
    intro xs hxs l hl
    rcases List.mem_append.mp hl with hl | hl
    · obtain ⟨x, hx, rfl⟩ := List.mem_map.mp hl
      exact .inr ⟨x, rfl, f, rest, hstack, hxs x hx⟩
    · exact .inl (List.mem_singleton.mp hl)
  have hsame : m.queues = s.mem.queues →
      ∀ x : Place, (s.framed t m ctx' (fs ++ rest)).held x.spot = s.held x.spot :=
    fun hq x => framed_held hidle (by cases x <;> simp [hq])
  have hthread : ∀ {new gone},
      (∀ x : Place, (s.framed t m ctx' (fs ++ rest)).held x.spot = s.held x.spot) →
      (gone ++ fs.flatMap Frame.carries).Perm (new ++ f.carries) →
      JobChange t s.mem m new gone →
      ∃ places new gone, Exchange s.held (s.framed t m ctx' (fs ++ rest)).held places new gone ∧
        JobChange t s.mem m new gone ∧ ∀ l ∈ places, s.Reaches t l := by
    intro new gone hq hperm hchange
    refine ⟨_, new, gone, framed_exchange hs hstack hidle h [] List.nodup_nil (fun x _ => hq x)
      (by simpa using hperm), hchange, hreaches [] nofun⟩
  have hqueue : ∀ q, (∀ r, r ≠ q → m.queues.queue r = s.mem.queues.queue r) →
      m.queues.deque = s.mem.queues.deque → f.WorksOn (.queue q) →
      ((s.framed t m ctx' (fs ++ rest)).held (.queue q) ++ fs.flatMap Frame.carries).Perm
        (s.held (.queue q) ++ f.carries) → JobChange t s.mem m [] [] →
      ∃ places new gone, Exchange s.held (s.framed t m ctx' (fs ++ rest)).held places new gone ∧
        JobChange t s.mem m new gone ∧ ∀ l ∈ places, s.Reaches t l := by
    intro q hq hd hworks hperm hchange
    refine ⟨_, [], [], framed_exchange hs hstack hidle h [.queue q] (List.nodup_singleton _)
      (fun x hx => ?_) (by simpa [Place.spot] using hperm), hchange,
      hreaches _ fun x hx => .inl (List.mem_singleton.mp hx ▸ hworks)⟩
    refine framed_held hidle ?_
    cases x with
    | deque d => exact congrFun hd d
    | queue r => exact hq r fun hr => hx (by simp [hr])
  have hstay : s.mem.SameFates m → JobChange t s.mem m [] [] := fun hsame =>
    .stay hsame.starts hsame.drops hsame.home hsame.next
  have hlies : ∀ q, (∀ u, (s.ops u).holds ≠ some q) →
      s.held (.queue q) = (s.mem.queues.queue q).elements ∧
        (s.framed t m ctx' (fs ++ rest)).held (.queue q) = (m.queues.queue q).elements := by
    intro q hq
    refine ⟨avail_eq_elements hq, ?_⟩
    simp only [PoolState.held, PoolState.framed_ops hidle]
    exact avail_eq_elements hq
  have hmore : ∀ q more, (m.queues.queue q).locked = (s.mem.queues.queue q).locked →
      (m.queues.queue q).elements = (s.mem.queues.queue q).elements ++ more →
      (s.framed t m ctx' (fs ++ rest)).held (.queue q) = s.held (.queue q) ++ more := by
    intro q more hlock helements
    simp only [PoolState.held, PoolState.framed_ops hidle]
    exact avail_append (queuesOk hs).queues hlock helements
  have hjobs := step_jobs hs hstack h
  cases hjobs with
  | quiet hq hm hc hr => exact hthread (hsame hq) (.of_eq hc) (hstay hm.fates)
  | push p hq ht hjobs hnext hf hc hr =>
      exact hthread (hsame hq) (by simp [hc, hf.1]) (.made _ hjobs hnext)
  | spawn r hf hmake hc hr => exact hthread (hsame rfl) (by simp [hc, hf.1]) (.made (.scope r) rfl rfl)
  | start j change hf hfate hc hr =>
      refine hthread (hsame rfl) (by simp [hc, hf, Frame.carries]) (.went j (.inl ⟨?_, ?_⟩) ?_ ?_ rfl)
      · simpa [Job.fate] using congrArg Job.starts hfate
      · simpa [Job.fate] using congrArg Job.drops hfate
      · simpa [Job.fate] using congrArg Job.home hfate
      · intro k hk
        simp [hk]
  | finish j r hf hc hr =>
      refine hthread (hsame rfl) (.of_eq ?_) (.stay (fun k => ?_) (fun k => ?_) (fun k => ?_) rfl)
      · rcases hf with rfl | rfl <;> exact hc
      all_goals rcases eq_or_ne k j with rfl | hk <;> simp [dropTicket, *]
  | drop j js hf =>
      obtain ⟨hstarts, hdrops, hhome⟩ := s.mem.dropJob_self j
      exact hthread (hsame (s.mem.dropJob_queues j)) (by simp [hf, Frame.carries])
        (.went j (.inr ⟨hstarts, hdrops⟩) hhome (fun k hk => s.mem.dropJob_of_ne j k hk)
          (s.mem.dropJob_nextJob j))
  | relock q b hb hlock hc hr =>
      have hfree := avail_of_frame hs (hstack ▸ List.mem_cons_self) hidle hlock
      refine hthread (fun x => ?_) (.of_eq hc) (hstay (.of_jobs rfl rfl))
      by_cases hx : x = .queue q
      · subst hx
        refine ((hlies q hfree).2.trans ?_).trans (hlies q hfree).1.symm
        simpa [Queues.setQueue] using hb
      · refine framed_held hidle ?_
        cases x with
        | deque d => rfl
        | queue r => simp [Queues.setQueue, show r ≠ q from fun hr => hx (by rw [hr])]
  | truncate q n hlock hf hc hr =>
      have hfree := avail_of_frame hs (hstack ▸ List.mem_cons_self) hidle (.inr hlock)
      refine hqueue q (fun r hr => by simp [Queues.setQueue, hr]) rfl
        (Frame.worksOn_of_holds hlock) ?_ (hstay (.of_jobs rfl rfl))
      rw [(hlies q hfree).1, (hlies q hfree).2, hc, hf.1]
      simp [Queues.setQueue]
  | place p r caller index j hf hc hr =>
      refine hqueue (.inbox p (batchTarget (s.mem.pools p) caller index))
        (fun q hq => by simp [Queues.setQueue, hq]) rfl (by rw [hf]; rfl) ?_
        (hstay (.of_jobs rfl rfl))
      rw [hmore _ [j] (by simp [Queues.setQueue]) (by simp [Queues.setQueue]), hc, hf]
      simp [Frame.carries]
  | clear xs hnodup hxs hm hdeque hnew hqueue hempty hf hc hr =>
      have hfree : ∀ x ∈ xs, ∀ q u, x = .queue q → (s.ops u).holds ≠ some q := by
        rintro x hx q u rfl
        exact ((hxs _ hx).unused hs hstack).queue hs u
      have hafter : ∀ x ∈ xs, (s.framed t m ctx' (fs ++ rest)).held x.spot = [] := by
        intro x hx
        cases x with
        | deque d =>
            obtain ⟨capacity, hcap, hd, -⟩ := hnew d hx
            exact (congrArg WorkerQueue.unclaimed hd).trans (WorkerQueue.unclaimed_new capacity hcap)
        | queue q => exact ((hlies q fun u => hfree _ hx q u rfl).2).trans (hempty q hx)
      -- only containers with something in them take part
      have hfull : ∀ x ∈ xs.filter (s.mem.lyingIn · ≠ []), x ∈ xs ∧ s.mem.lyingIn x ≠ [] := by
        simp
      refine ⟨_, [], [], framed_exchange hs hstack hidle h (xs.filter (s.mem.lyingIn · ≠ []))
        (hnodup.filter _) (fun x hx => ?_) (.of_eq ?_), hstay hm.fates,
        hreaches _ fun x hx => .inr ⟨hxs x (hfull x hx).1, (hfull x hx).2⟩⟩
      · by_cases hmem : x ∈ xs
        · have hempty : s.mem.lyingIn x = [] := by
            by_contra hne
            exact hx (List.mem_filter.mpr ⟨hmem, by simpa using hne⟩)
          rw [hafter x hmem, held_of_free (hfree x hmem), hempty]
        · refine framed_held hidle ?_
          cases x with
          | deque d => exact hdeque d hmem
          | queue q => exact hqueue q hmem
      · rw [List.flatMap_eq_nil_iff.mpr fun x hx => hafter x (hfull x hx).1, hc, hf.1]
        simp only [List.nil_append, List.append_nil]
        rw [← flatMap_filter_ne_nil xs s.mem.lyingIn]
        exact List.flatMap_congr fun x hx => (held_of_free (hfree x (hfull x hx).1)).symm

end Frames

/-- A frame works on every container its queue operation names. -/
theorem Frame.Waits.worksOn_spots {c : QueueCall DequeId QueueId Nat} {l : JobSpot}
    (h : f.Waits ctx c) (hl : l ∈ c.spots) : ∃ x : Place, l = x.spot ∧ f.WorksOn x := by
  rcases List.mem_append.mp hl with hl | hl
  · obtain ⟨d, hd, rfl⟩ := List.mem_map.mp hl
    exact ⟨.deque d, rfl, h.worksOn.1 d hd⟩
  · obtain ⟨q, hq, rfl⟩ := List.mem_map.mp hl
    exact ⟨.queue q, rfl, h.worksOn.2 q hq⟩

/-- A thread that passes jobs between its operation and its frames changes nothing. -/
theorem held_of_passing {th : Thread} (hdrains : (s.ops t).drains = none) (hdrains' : th.op.drains = none)
    (hhands : th.op.hands s.mem.queues ++ th.carries = s.held (.hands t)) :
    PoolState.held ⟨s.mem, Function.update s.threads t th⟩ = s.held := by
  funext l
  cases l with
  | deque d => rfl
  | queue q =>
      simp only [PoolState.held, PoolState.ops_update]
      exact Queues.avail_congr rfl (by rw [Op.draining_of_drains hdrains, Op.draining_of_drains hdrains'])
  | hands u =>
      rcases eq_or_ne u t with rfl | hu
      · simpa [PoolState.held, PoolState.ops] using hhands
      · simp [PoolState.held, PoolState.ops, hu]

/-- Every step of the pool is an exchange between spots, and says which job came in or
went. -/
theorem step_exchange {l : Tid × Choice} (hs : poolMachine.Reachable s)
    (hstep : poolMachine.step s l = some s') :
    ∃ places new gone, Exchange s.held s'.held places new gone ∧
      JobChange l.1 s.mem s'.mem new gone ∧ ∀ spot ∈ places, s.Reaches l.1 spot := by
  obtain ⟨m, th, hth, rfl⟩ := Machine.ofThreads_step hstep
  have hlocal := threadStep_cases hth
  revert hlocal
  generalize hthread : s.threads l.1 = th₀
  intro hlocal
  have hop : s.ops l.1 = th₀.op := congrArg Thread.op hthread
  have hheld : s.held (.hands l.1) = th₀.op.hands s.mem.queues ++ th₀.carries := by
    simp only [PoolState.held, hop, hthread]
  have hpass : m = s.mem → th₀.op.drains = none → th.op.drains = none →
      th.op.hands s.mem.queues ++ th.carries = th₀.op.hands s.mem.queues ++ th₀.carries →
      ∃ places new gone, Exchange s.held
        (PoolState.held ⟨m, Function.update s.threads l.1 th⟩) places new gone ∧
        JobChange l.1 s.mem m new gone ∧ ∀ spot ∈ places, s.Reaches l.1 spot := by
    rintro rfl hdrains hdrains' hhands
    rw [held_of_passing (hop ▸ hdrains) hdrains' (hhands.trans hheld.symm)]
    exact ⟨[], [], [], .refl _, .stay (fun _ => rfl) (fun _ => rfl) (fun _ => rfl) rfl, nofun⟩
  cases hlocal with
  | @resume ctx o f rest =>
      refine hpass rfl rfl rfl ?_
      have hcarries : (Thread.mk ctx (f.resume o ++ rest) .idle).carries =
          (Thread.mk ctx (.ret o :: f :: rest) .idle).carries := by
        simp [Thread.carries, (f.resume_carries o).1, Frame.carries]
      rw [hcarries]
  | @call ctx f f' rest q h =>
      obtain ⟨hstart, hf', -⟩ := Frame.call_carries h s.mem.queues
      refine hpass rfl rfl (Op.drains_start q) ?_
      rw [hstart]
      simp [Thread.carries, hf']
  | @answer ctx f rest r =>
      refine hpass rfl rfl rfl ?_
      rcases calling hs l.1 with hidle | ⟨f', rest', q, hstack, hwaits, hwithin⟩
      · rw [hthread] at hidle
        cases hidle
      · rw [hthread] at hstack hwaits hwithin
        cases hstack
        obtain ⟨hanswer, hf, -, -⟩ := Frame.answer_carries hwaits hwithin
        simp [Thread.carries, hanswer, hf]
  | @frame ctx ctx' f rest fs m' h =>
      exact framed_step_exchange hs (by rw [hthread]) (by rw [hthread]) h
  | @tick ctx stack o o' queues i hi hexec =>
      rcases calling hs l.1 with hidle | ⟨f, rest, q, hstack, hwaits, hwithin⟩
      · rw [hthread] at hidle
        rw [show o = .idle from hidle] at hi
        cases hi
      · obtain ⟨hdeques, hqueues, b, hb⟩ := queuesOk hs
        have hop : s.ops l.1 = o := hop
        rw [← hop] at hi
        obtain ⟨places, hexchange, hplaces⟩ := hb.exchange hdeques hqueues hwithin hi hexec
        refine ⟨places, [], [], ?_, .stay ?_ ?_ ?_ rfl, fun spot hspot => ?_⟩
        rotate_right
        · rcases hplaces spot hspot with rfl | hc
          · exact .inl rfl
          · obtain ⟨x, rfl, hx⟩ := hwaits.worksOn_spots hc
            exact .inr ⟨x, rfl, f, rest, hstack, .inl hx⟩
        · rw [PoolState.held_eq, PoolState.held_eq, PoolState.ops_update]
          rw [PoolState.inFrames_update (by rw [hthread])]
          exact hexchange.beside s.inFrames
        all_goals
          intro j
          simp only [trackOrigins]
          split <;> (try split) <;> (try split) <;> rfl

end Steps

end XynokConcurrency
