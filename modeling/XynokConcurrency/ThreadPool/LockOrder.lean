import XynokConcurrency.ThreadPool.Locks

/-!
# The pool's locks cannot deadlock

{lit}`with_batch_inboxes` holds many locks at once, across user code and its own
recursion, and every other critical section is short.  The order of the inboxes is
the only order there is.

Main results:

- Theorem {lit}`lockTable_ordered`: a thread asks only for locks beyond those it
  holds.
- Theorem {lit}`locks_cannot_deadlock`: the wait-for relation has no cycle, and
  some holder does not wait.
- Theorem {lit}`critical_sections_exclude`: at most one thread is in the critical sections of a
  lock, and in one of them only.

Source: {lit}`thread_pool/shared.rs`, {lit}`utils/queue_batching.rs`.
-/

namespace XynokConcurrency

/-! ## Who asks for a lock -/

/-- The order of the locks: the inboxes of one pool by their index, and nothing
else. -/
inductive LockId.Before : LockId → LockId → Prop
  | inbox {p i j : Nat} (h : i < j) : Before (.queue (.inbox p i)) (.queue (.inbox p j))

instance : IsTrans LockId LockId.Before :=
  ⟨fun _ _ _ h h' => by cases h with | inbox h => cases h' with | inbox h' => exact .inbox (h.trans h')⟩

instance : Std.Irrefl LockId.Before :=
  ⟨fun _ h => by cases h with | inbox h => exact lt_irrefl _ h⟩

/-- The lock an operation is about to take by {lit}`get`; {lit}`try_get` never
waits. -/
def Op.asks {δ κ α : Type} : Op δ κ α → Option κ
  | .drainLock _ src _ _ => some src
  | .queuePushLock q _ => some q
  | .queuePopLock q => some q
  | _ => none

/-- The lock a frame is about to take by {lit}`get`. -/
def Frame.asks : Frame → Option LockId
  | .wake p _ .lock => some (.sleepers p)
  | .inboxes p _ _ index .lock => some (.queue (.inbox p index))
  | .publish p _ .passLock => some (.sleepers p)
  | .sleep p _ .lock | .sleep p _ .relock => some (.sleepers p)
  | _ => none

/-- The lock a thread is about to take by {lit}`get`. -/
def Thread.asks (th : Thread) : Option LockId :=
  match th.op with
  | .idle => th.stack.head?.bind Frame.asks
  | o => o.asks.map .queue

/-- Who holds which lock, and who asks for which. -/
def PoolState.lockTable (s : PoolState) : LockTable Tid LockId where
  holder := s.mem.lockedBy
  asks t := (s.threads t).asks

/-- Only finitely many threads hold a lock. -/
theorem holders_finite {s : PoolState} (hs : poolMachine.Reachable s) :
    s.lockTable.holders.Finite := by
  refine Machine.Reachable.invariant (I := fun s : PoolState => s.lockTable.holders.Finite) ?_ ?_ hs
  · rintro s rfl
    refine Set.finite_empty.subset ?_
    rintro t ⟨q | p, hl⟩ <;> cases hl
  · intro s l s' hr hfinite hstep
    obtain ⟨m, th, h, rfl⟩ := Machine.ofThreads_step hstep
    have hlocks := (threadStep_cases h).locks fun _ hf _ => free_of_renews hr (holdsExactly hr) hf
    refine (hfinite.insert l.1).subset ?_
    rintro u ⟨k, hk⟩
    by_cases hu : u = l.1
    · exact Set.mem_insert_iff.mpr (.inl hu)
    · exact Set.mem_insert_of_mem _ ⟨k, hlocks.named_other hu hk⟩

/-! ## Iterators stay out of the pools -/

/-- The choice calls a method of a pool or of a scope. -/
def Choice.callsPool : Choice → Bool
  | .user (.push _) | .user (.scope _) | .user (.runBatch _) | .user (.spawn _) => true
  | _ => false

/-- The thread is in the iterator of a batch. -/
def Thread.iterates (th : Thread) : Bool :=
  match th.stack with
  | .user (.iterNext _) :: _ => true
  | _ => false

/-- The iterator of a batch does not call into a pool. -/
def IteratorsStayOut (s : PoolState) (l : Tid × Choice) : Prop :=
  (s.threads l.1).iterates = true → l.2.callsPool = false

instance (s : PoolState) (l : Tid × Choice) : Decidable (IteratorsStayOut s l) :=
  inferInstanceAs (Decidable (_ → _))

/-- Frames that stand for a call user code makes. -/
def FrameTag.isCall : FrameTag → Bool
  | .callEnd | .callDone | .spawnEnd | .spawnDone => true
  | _ => false

/-- Only user code starts calls. -/
theorem FrameTag.next_isCall {a : FrameTag} (huser : a ≠ .user) (hcall : a ≠ .callEnd)
    (hspawn : a ≠ .spawnEnd) : ∀ b ∈ a.next, b.isCall = false := by
  cases a <;>
    first
      | exact (huser rfl).elim
      | exact (hcall rfl).elim
      | exact (hspawn rfl).elim
      | decide

/-- A call was not made by the iterator of a batch. -/
def Frame.StaysOut (rest : List Frame) (f : Frame) : Prop :=
  f.tag.isCall = true → ∀ s, rest.head? ≠ some (.user (.iterNext s))

section StaysOut

variable {t : Tid} {c : Choice} {m m' : Mem} {ctx ctx' : Context} {f f' : Frame} {rest fs : List Frame}

/-- Frames that are no calls may be pushed anywhere. -/
theorem staysOut_append (hfs : ∀ g ∈ fs, g.tag.isCall = false) (h : Everywhere Frame.StaysOut rest) :
    Everywhere Frame.StaysOut (fs ++ rest) := by
  refine everywhere_append.mpr ⟨.of_forall fun g hg above hcall => ?_, h⟩
  rw [hfs g hg] at hcall
  cases hcall

theorem staysOut_resume {o : Outcome} (h : Everywhere Frame.StaysOut (f :: rest)) :
    Everywhere Frame.StaysOut (f.resume o ++ rest) := by
  unfold Frame.resume
  split <;> (try split)
  case h_1 | h_2 => exact ⟨fun _ => h.1 rfl, h.2⟩
  all_goals
    first
      | exact h
      | exact ⟨nofun, h.2⟩
      | exact ⟨nofun, nofun, h.2⟩

theorem staysOut_call {q : QueueCall DequeId QueueId Nat} (h : Everywhere Frame.StaysOut (f :: rest))
    (hc : f.call m ctx = some (q, f')) : Everywhere Frame.StaysOut (f' :: rest) := by
  unfold Frame.call at hc
  split at hc <;> (try split at hc) <;> cases hc <;> exact ⟨nofun, h.2⟩

theorem staysOut_answer {r : QueueRes Nat} (h : Everywhere Frame.StaysOut (f :: rest)) :
    Everywhere Frame.StaysOut (f.answer r ++ rest) := by
  unfold Frame.answer
  split <;> (try split)
  all_goals
    first
      | exact h
      | exact ⟨nofun, h.2⟩
      | exact ⟨nofun, nofun, h.2⟩

/-- User code calls into a pool only when it is no iterator. -/
theorem staysOut_userStep {u : UserCode} {a : UserAct} (hs : userStep t m u a = some (m', fs))
    (hok : (∃ s, u = .iterNext s) → Choice.callsPool (.user a) = false)
    (h : Everywhere Frame.StaysOut (.user u :: rest)) : Everywhere Frame.StaysOut (fs ++ rest) := by
  have hcall : ∀ fs', userCall t m a = some (m', fs') →
      Everywhere Frame.StaysOut (fs' ++ .user u :: rest) := by
    intro fs' hc
    have hout : Choice.callsPool (.user a) = true → ∀ s, u ≠ .iterNext s := by
      rintro ha s rfl
      rw [hok ⟨s, rfl⟩] at ha
      cases ha
    have hhead : Choice.callsPool (.user a) = true →
        ∀ s, (Frame.user u :: rest).head? ≠ some (.user (.iterNext s)) :=
      fun ha s heq => hout ha s (Frame.user.inj (Option.some.inj heq))
    cases a <;> simp only [userCall, enterScope] at hc <;> (try split at hc) <;> cases hc
    case push | scope | runBatch | spawn => exact ⟨(by rintro ⟨⟩), fun _ => hhead rfl, h⟩
    all_goals exact staysOut_append (by simp [Frame.tag, FrameTag.isCall]) h
  have hend : ∀ o, userEnd m u o = some (m', fs) → Everywhere Frame.StaysOut (fs ++ rest) := by
    intro o he
    unfold userEnd at he
    split at he <;> (try split at he) <;> cases he <;> first | exact h.2 | exact ⟨(by rintro ⟨⟩), h.2⟩
  unfold userStep at hs
  split at hs
  · split at hs <;> exact hend _ hs
  · split at hs
    · exact hend _ hs
    · cases hs
  · exact hend _ hs
  · split at hs
    · rename_i hc
      cases hs
      simpa using hcall _ hc
    · cases hs

/-- No other frame calls into a pool. -/
theorem staysOut_step (hs : f.step t c m ctx = some (m', ctx', fs))
    (hok : (∃ s, f = .user (.iterNext s)) → c.callsPool = false)
    (h : Everywhere Frame.StaysOut (f :: rest)) : Everywhere Frame.StaysOut (fs ++ rest) := by
  have htags := Frame.step_givesWay hs
  cases f
  case user u =>
    simp only [Frame.step] at hs
    split at hs
    · refine staysOut_userStep (keep_eq.mp hs).1 ?_ h
      rintro ⟨s, rfl⟩
      exact hok ⟨s, rfl⟩
    · cases hs
  case callEnd | spawnEnd => cases hs
  all_goals
    refine staysOut_append (fun g hg => ?_) h.2
    refine FrameTag.next_isCall ?_ ?_ ?_ _ (htags g hg) <;> simp [Frame.tag]

end StaysOut

/-- In a run whose iterators stay out of the pools no call stands on an iterator. -/
theorem staysOut {s : PoolState} (hs : poolMachine.ReachableVia IteratorsStayOut s) (t : Tid) :
    Everywhere Frame.StaysOut (s.threads t).stack := by
  refine Machine.thread_invariant (A := fun _ _ th => Everywhere Frame.StaysOut th.stack) ?_ ?_ ?_ hs t
  · rintro s rfl t
    cases t <;> exact ⟨nofun, trivial⟩
  · intro s t ch m th _ hok hA h
    have hA := hA t
    generalize hth : s.threads t = before at h hA
    cases threadStep_cases h with
    | resume => exact staysOut_resume hA.2
    | call hc => exact staysOut_call hA hc
    | frame hf =>
        refine staysOut_step hf ?_ hA
        rintro ⟨k, rfl⟩
        exact hok (by rw [Thread.iterates, hth])
    | answer => exact staysOut_answer hA
    | tick => exact hA
  · intro s t ch m th u _ _ hA _ _
    exact hA u

/-! ## Nothing is held below a frame that asks -/

/-- What the frames below a frame hold: the smaller inboxes below a level of
{lit}`with_batch_inboxes`, and nothing below any other frame that may ask for a
lock. -/
def Frame.LocksBelow (rest : List Frame) : Frame → Prop
  | .inboxes p _ _ index _ =>
      ∀ g ∈ rest, ∀ l, g.holds = some l → ∃ i, i < index ∧ l = .queue (.inbox p i)
  | .user (.iterNext _) | .assign .. | .ret _ | .newPool .. | .dropPool .. | .shutdown ..
  | .dropJobs _ | .dropEnv .. => True
  | _ => ∀ g ∈ rest, g.holds = none

section LocksBelow

variable {t : Tid} {f g : Frame} {rest : List Frame} {l held : LockId}

/-- A frame that holds nothing, with nothing held below it. -/
theorem holds_cons (hg : g.holds = none) (hrest : ∀ h ∈ rest, h.holds = none) :
    ∀ h ∈ g :: rest, h.holds = none := by
  intro h hh
  rcases List.mem_cons.mp hh with rfl | hh
  · exact hg
  · exact hrest h hh

/-- Nothing is below the bottom frame. -/
theorem Frame.LocksBelow.bottom (f : Frame) : f.LocksBelow [] := by
  have hnone : ∀ g ∈ ([] : List Frame), g.holds = none := fun _ hg => (List.not_mem_nil hg).elim
  cases f
  case user u => cases u <;> first | exact trivial | exact hnone
  case inboxes => exact fun _ hg => (List.not_mem_nil hg).elim
  all_goals first | exact trivial | exact hnone

/-- User code that is not an iterator may call into a pool. -/
theorem locksBelow_call {u : UserCode} (hout : ∀ s, (Frame.user u :: rest).head? ≠ some (.user (.iterNext s)))
    (hbelow : (Frame.user u).LocksBelow rest) : ∀ h ∈ Frame.user u :: rest, h.holds = none := by
  cases u
  case iterNext s => exact (hout s rfl).elim
  all_goals exact holds_cons rfl hbelow

/-- What is held below a frame follows from what is held below its caller. -/
theorem Frame.LocksBelow.above (hunder : f.Under g) (hout : f.StaysOut (g :: rest))
    (hbelow : g.LocksBelow rest) : f.LocksBelow (g :: rest) := by
  cases f
  case user u =>
    cases u
    case main => exact hunder.elim
    case body => obtain rfl | ⟨s, rfl⟩ := hunder <;> exact holds_cons rfl hbelow
    case closure => obtain ⟨p, role, previous, rfl⟩ := hunder; exact holds_cons rfl hbelow
    case intoIter => obtain ⟨p, rfl⟩ := hunder; exact holds_cons rfl hbelow
    case iterNext => trivial
  case callEnd | callDone | spawnEnd | spawnDone =>
    obtain ⟨u, rfl⟩ := hunder
    exact locksBelow_call (hout rfl) hbelow
  case enqueue | enqueueWait | wake => obtain rfl | ⟨s, rfl⟩ := hunder <;> exact holds_cons rfl hbelow
  case spawn | spawnWait | scope | publish => obtain rfl := hunder; exact holds_cons rfl hbelow
  case runUntil => obtain ⟨role, previous, outcome, rfl⟩ := hunder; exact holds_cons rfl hbelow
  case pop =>
    obtain ⟨s, tick, rfl⟩ | ⟨tick, rfl⟩ | ⟨tick, offset, rfl⟩ | ⟨p, i, tick, rounds, -, rfl⟩ := hunder <;>
      exact holds_cons rfl hbelow
  case steal =>
    obtain ⟨s, rfl⟩ | ⟨p, i, rounds, -, rfl⟩ := hunder <;> exact holds_cons rfl hbelow
  case task => obtain ⟨w, rfl⟩ | ⟨w, tick, rfl⟩ := hunder <;> exact holds_cons rfl hbelow
  case batch => obtain ⟨role, previous, rfl⟩ := hunder; exact holds_cons rfl hbelow
  case loop => exact hunder.elim
  case sleep => obtain ⟨tick, rounds, rfl⟩ := hunder; exact holds_cons rfl hbelow
  case inboxes p s caller index pc =>
    obtain ⟨rfl, rfl⟩ | ⟨i, items, len, rfl, rfl⟩ := hunder
    · intro h hh l hl
      rw [holds_cons rfl hbelow h hh] at hl
      cases hl
    · intro h hh l hl
      rcases List.mem_cons.mp hh with rfl | hh
      · exact ⟨i, Nat.lt_succ_self i, (Option.some.inj hl).symm⟩
      · obtain ⟨k, hk, hl⟩ := hbelow h hh l hl
        exact ⟨k, hk.trans (Nat.lt_succ_self i), hl⟩
  all_goals trivial

/-- Linked stacks whose calls were not made by iterators. -/
theorem locksBelow_of_linked {stack : List Frame} (hl : Linked t stack)
    (hout : Everywhere Frame.StaysOut stack) : Everywhere Frame.LocksBelow stack := by
  induction stack with
  | nil => trivial
  | cons f rest ih =>
      have hrest := ih hl.2 hout.2
      refine ⟨?_, hrest⟩
      cases rest with
      | nil => exact .bottom f
      | cons g rest => exact .above hl.1 hout.1 hrest.1

/-- A frame that asks for a lock holds none. -/
theorem Frame.holds_of_asks (h : f.asks = some l) : f.holds = none := by
  unfold Frame.asks at h
  split at h <;> first | rfl | cases h

/-- An operation that asks for a lock holds none. -/
theorem Op.holds_of_asks {δ κ α : Type} {o : Op δ κ α} {q : κ} (h : o.asks = some q) :
    o.holds = none := by
  cases o <;> first | rfl | cases h

/-- An operation asks for locks of the queues of its call only. -/
theorem Op.Within.asks {δ κ α : Type} {c : QueueCall δ κ α} {o : Op δ κ α} {q : κ} (h : o.Within c)
    (hq : o.asks = some q) : q ∈ c.queues := by
  cases o <;> simp only [Op.asks, reduceCtorEq, Option.some.injEq] at hq <;> subst hq
  case drainLock => obtain ⟨max, rfl⟩ := h; exact List.mem_singleton_self _
  all_goals
    rw [show c = _ from h]
    exact List.mem_singleton_self _

/-- A frame that waits for an operation on a batching queue is outside of critical
sections, and nothing is held below it. -/
theorem Frame.Waits.locksBelow {ctx : Context} {c : QueueCall DequeId QueueId Nat}
    (h : f.Waits ctx c) (hc : c.queues ≠ []) (hbelow : f.LocksBelow rest) :
    ∀ g ∈ f :: rest, g.holds = none := by
  unfold Frame.Waits at h
  split at h
  case h_9 => exact (hc (congrArg QueueCall.queues h)).elim
  case h_10 => exact h.elim
  all_goals exact holds_cons rfl hbelow

/-- A frame that asks for a lock has only locks before it held below it. -/
theorem Frame.LocksBelow.before (hbelow : f.LocksBelow rest) (h : f.asks = some l)
    (hg : g ∈ rest) (hheld : g.holds = some held) : LockId.Before held l := by
  unfold Frame.asks at h
  split at h
  case h_2 =>
    cases h
    obtain ⟨i, hi, rfl⟩ := hbelow g hg held hheld
    exact .inbox hi
  case h_6 => cases h
  all_goals
    rw [hbelow g hg] at hheld
    cases hheld

/-- A thread asks only for locks beyond those of its critical sections. -/
theorem Thread.holds_before {th : Thread} (hcall : th.Calling) (hbelow : Everywhere Frame.LocksBelow th.stack)
    (hask : th.asks = some l) (hheld : held ∈ th.held) : LockId.Before held l := by
  obtain ⟨ctx, stack, op⟩ := th
  rcases hcall with hidle | ⟨f, rest, c, hstack, hwaits, hwithin⟩
  · simp only at hidle
    subst hidle
    cases stack with
    | nil => cases hask
    | cons f rest =>
        obtain ⟨g, hg, hg'⟩ := List.mem_filterMap.mp hheld
        rcases List.mem_cons.mp hg with rfl | hg
        · rw [Frame.holds_of_asks hask] at hg'
          cases hg'
        · exact hbelow.1.before hask hg hg'
  · simp only at hstack hwaits hwithin
    subst hstack
    obtain ⟨q, hq⟩ : ∃ q, op.asks = some q := by
      cases op <;> first | exact ⟨_, rfl⟩ | exact hwithin.elim | cases hask
    have hqueues : c.queues ≠ [] := List.ne_nil_of_mem (hwithin.asks hq)
    rcases List.mem_append.mp hheld with hop | hframe
    · rw [Op.holds_of_asks hq] at hop
      cases hop
    · obtain ⟨g, hg, hg'⟩ := List.mem_filterMap.mp hframe
      rw [hwaits.locksBelow hqueues hbelow.1 g hg] at hg'
      cases hg'

end LocksBelow

/-! ## No deadlock -/

/-- A thread asks only for locks beyond those it holds. -/
theorem lockTable_ordered {s : PoolState} (hs : poolMachine.ReachableVia IteratorsStayOut s) :
    s.lockTable.Ordered LockId.Before := by
  intro t l held hask hheld
  have hbelow := locksBelow_of_linked (linked hs.reachable t) (staysOut hs t)
  exact Thread.holds_before (calling hs.reachable t) hbelow hask
    (((holdsExactly hs.reachable t).named held).mp hheld)

/-- The locks of the pools cannot deadlock while batch iterators stay out of the
pools: nobody asks for a lock with the sleepers or a shared queue locked, nor for
anything but a larger inbox of the same pool with an inbox locked; so the wait-for
relation has no cycle, and while a thread waits some holder of a lock does not. -/
theorem locks_cannot_deadlock {s : PoolState} (hs : poolMachine.ReachableVia IteratorsStayOut s) :
    (∀ t, ¬ Relation.TransGen s.lockTable.WaitsFor t t) ∧
    (∀ t, s.lockTable.Waits t → ∃ u l, s.mem.lockedBy l = some u ∧ ¬ s.lockTable.Waits u) ∧
    (∀ t l p, (s.threads t).asks = some l →
      s.mem.lockedBy (.sleepers p) ≠ some t ∧ s.mem.lockedBy (.queue (.tasks p)) ≠ some t) ∧
    ∀ t l p i, (s.threads t).asks = some l → s.mem.lockedBy (.queue (.inbox p i)) = some t →
      ∃ j, i < j ∧ l = .queue (.inbox p j) := by
  have hordered := lockTable_ordered hs
  have hbefore : ∀ t l held, (s.threads t).asks = some l → s.mem.lockedBy held = some t →
      LockId.Before held l := hordered
  refine ⟨hordered.no_cycle, fun t ht => ?_, fun t l p hask => ⟨fun hheld => ?_, fun hheld => ?_⟩,
    fun t l p i hask hheld => ?_⟩
  · obtain ⟨u, ⟨l, hl⟩, hu⟩ := hordered.exists_running (holders_finite hs.reachable) ht
    exact ⟨u, l, hl, hu⟩
  · cases hbefore t l _ hask hheld
  · cases hbefore t l _ hask hheld
  · cases hbefore t l _ hask hheld with
    | inbox hij => exact ⟨_, hij, rfl⟩

/-- Two threads publish a batch to the same pool at once. -/
def twoPublishers : List (Tid × Choice) :=
  hostedScope.take 7 ++
    [(.ext 0, .user (.runBatch 1))] ++ List.replicate 3 (.ext 0, .go) ++
    [(.ext 0, .user .finish)] ++ List.replicate 4 (.ext 0, .go) ++
    [(.ext 1, .user (.runBatch 1))] ++ List.replicate 3 (.ext 1, .go) ++
    [(.ext 1, .user .finish)] ++ List.replicate 3 (.ext 1, .go)

/-- The second of two publishers waits for the first inbox, and the first one does
not wait. -/
theorem no_deadlock_of_two_publishers :
    let s := (poolMachine.restrict IteratorsStayOut).after poolStart twoPublishers
    s.lockTable.Waits (.ext 1) ∧ ∃ u l, s.mem.lockedBy l = some u ∧ ¬ s.lockTable.Waits u := by
  have hrun : ((poolMachine.restrict IteratorsStayOut).run poolStart twoPublishers).isSome := by
    decide +kernel
  have hreach := Machine.ReachableVia.run (.init poolStart_init) (Machine.run_after hrun)
  have hwaits : ((poolMachine.restrict IteratorsStayOut).after poolStart
      twoPublishers).lockTable.Waits (.ext 1) :=
    ⟨.ext 0, .queue (.inbox 1 0), by decide +kernel, by decide +kernel⟩
  exact ⟨hwaits, (locks_cannot_deadlock hreach).2.1 _ hwaits⟩

/-- Every lock has at most one holder: its word names a thread exactly if the thread is in one of
the lock's critical sections, and then it is in one of them only and nobody else is in any. -/
theorem critical_sections_exclude {s : PoolState} (hs : poolMachine.Reachable s) (k : LockId) :
    (∀ t, s.mem.lockedBy k = some t ↔ k ∈ (s.threads t).held) ∧
    (∀ t, (s.threads t).held.count k ≤ 1) ∧
    ∀ t u, k ∈ (s.threads t).held → k ∈ (s.threads u).held → t = u := by
  refine ⟨fun t => (holdsExactly hs t).named k,
    fun t => List.nodup_iff_count_le_one.mp (holdsExactly hs t).nodup k, fun t u ht hu => ?_⟩
  have ht' := ((holdsExactly hs t).named k).mpr ht
  exact Option.some.inj (ht'.symm.trans (((holdsExactly hs u).named k).mpr hu))

/-- The first of two publishers alone is in the critical section of the first inbox. -/
theorem first_inbox_is_held_by_one :
    let s := poolMachine.after poolStart twoPublishers
    .queue (.inbox 1 0) ∈ (s.threads (.ext 0)).held ∧
      ∀ u, .queue (.inbox 1 0) ∈ (s.threads u).held → u = .ext 0 := by
  have hrun : (poolMachine.run poolStart twoPublishers).isSome := by decide +kernel
  have hs := Machine.Reachable.run (.init poolStart_init) (Machine.run_after hrun)
  have hheld : .queue (.inbox 1 0) ∈
      ((poolMachine.after poolStart twoPublishers).threads (.ext 0)).held := by
    decide +kernel
  exact ⟨hheld, fun u hu => (critical_sections_exclude hs _).2.2 u (.ext 0) hu hheld⟩

end XynokConcurrency
