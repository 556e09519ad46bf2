import XynokConcurrency.ThreadPool.Shared

/-!
# The pool's functions as step programs

Every function of the pool that can be suspended between two shared accesses is a
frame: its name, its local variables and its program point.  A thread is a stack
of frames with a thread-local context and at most one queue operation under way.
One step makes one access to shared memory, or none.

User code (the closures of jobs and scopes, the iterators of batches, and what a
thread does outside of the pools) is a frame too: it may call any method that
borrowing allows, return, or panic, as the scheduler chooses.

Source: {lit}`thread_pool/mod.rs`, {lit}`thread_pool/shared.rs`,
{lit}`thread_pool/worker.rs`, {lit}`thread_pool/scope.rs`.

Main definitions:

- Inductive type {lit}`Frame`: every program point.
- Definitions {lit}`Frame.call`, {lit}`Frame.answer` and {lit}`Frame.resume`:
  how a frame starts a queue operation, takes its result, and takes the result
  of a frame it called.
- Definition {lit}`Frame.step`: every other step.
- Definition {lit}`poolMachine`: the machine of all threads.
-/

namespace XynokConcurrency

/-! ## Program points -/

/-- What a call gives back. -/
inductive Outcome
  | unit
  | bool (b : Bool)
  | panic (payload : Nat)
deriving DecidableEq, Repr

/-- Which piece of user code runs. -/
inductive UserCode
  | main
  | body (j : Nat)
  | closure (s : Nat)
  | intoIter (s : Nat)
  | iterNext (s : Nat)
deriving DecidableEq, Repr

/-- {lit}`wake_one`. -/
inductive WakePc
  | lock
  | pop
  | storeLen (r : Option Nat)
  | unlock (r : Option Nat)
  | unpark (i : Nat)
deriving DecidableEq, Repr

/-- {lit}`Scope::spawn`. -/
inductive SpawnPc
  | ticket
  | pushJob (j : Nat)
deriving DecidableEq, Repr

/-- How a thread takes part in the pool it opens a scope on. -/
inductive Role
  | host
  | helper
  | inside
deriving DecidableEq, Repr

/-- {lit}`ThreadPool::scope`. -/
inductive ScopePc
  | start
  | tryHost (previous : Context)
  | enter (role : Role) (previous : Context)
  | closure (role : Role) (previous : Context)
  | cancelLoad (role : Role) (previous : Context) (payload : Nat)
  | cancelCas (role : Role) (previous : Context) (payload : Nat)
  | runUntil (role : Role) (previous : Context) (outcome : Outcome)
  | waiting (role : Role) (previous : Context) (outcome : Outcome)
  | restore (role : Role) (previous : Context) (outcome : Outcome)
  | takeLock (role : Role) (outcome : Outcome)
  | takePanic (role : Role) (outcome : Outcome)
  | takeUnlock (role : Role) (outcome : Outcome) (jobPanic : Option Nat)
  | matchOutcome (role : Role) (outcome : Outcome) (jobPanic : Option Nat)
  | dropHelper (role : Role) (result : Outcome)
  | dropHostOwner (role : Role) (result : Outcome)
deriving DecidableEq, Repr

/-- {lit}`run_until`. -/
inductive UntilPc
  | check
  | popping
  | stealing
deriving DecidableEq, Repr

/-- {lit}`pop_and_run_a_task`. -/
inductive PopPc
  | pop
  | popWait
  | inbox
  | inboxWait
  | running
deriving DecidableEq, Repr

/-- {lit}`steal_and_run_a_task`. -/
inductive StealPc
  | refill
  | refillWait
  | popRefilled
  | scan (offset : Nat)
  | inboxLen (offset : Nat)
  | tryPop (offset : Nat)
  | tryPopWait (offset : Nat)
  | running
  | victimLen (offset : Nat)
  | victimLenWait (offset : Nat)
  | steal (offset amount : Nat)
  | stealWait (offset : Nat)
  | popStolen (offset : Nat)
deriving DecidableEq, Repr

/-- {lit}`run_task`, with the wrapper {lit}`Scope::new_job` puts around the user's
closure. -/
inductive TaskPc
  | start
  | plain
  | isCanceled (s : Nat)
  | scoped (s : Nat)
  | recordTry (s payload : Nat)
  | record (s payload : Nat)
  | recordUnlock (s : Nat)
  | dropTicket (s : Nat)
  | dropTicketCanceled (s : Nat)
  | dropEnv
deriving DecidableEq, Repr

/-- The closure {lit}`run_batch` gives to {lit}`scope`. -/
inductive BatchPc
  | intoIter
  | caller
  | publishing
deriving DecidableEq, Repr

/-- One level of {lit}`with_batch_inboxes`; {lit}`held` is what the inbox held
when it was locked, which no step reads. -/
inductive InboxPc
  | enter
  | lock
  | originalLen (held : List Nat)
  | nested (held : List Nat) (len : Nat)
  | truncate (held : List Nat) (len payload : Nat)
  | dropping (held : List Nat) (payload : Nat)
  | storeLen (held : List Nat) (result : Outcome)
  | unlock (held : List Nat) (result : Outcome)
deriving DecidableEq, Repr

/-- The {lit}`assign` closure of {lit}`publish_batch`. -/
inductive AssignPc
  | next
  | waiting
  | ticket
  | place (j : Nat)
deriving DecidableEq, Repr

/-- {lit}`publish_batch` around its two halves. -/
inductive PublishPc
  | assigning
  | passLock
  | passScan (kept rest : List Nat)
  | passUnpark (i : Nat) (kept rest : List Nat)
  | passStoreLen
  | passUnlock
deriving DecidableEq, Repr

/-- {lit}`Worker::update`. -/
inductive LoopPc
  | unborn
  | warmRunning
  | warmInit
  | setCtx
  | running
  | popping
  | stealing
  | sleeping
deriving DecidableEq, Repr

/-- {lit}`sleep_if_idle`. -/
inductive SleepPc
  | lock
  | isRunning
  | tasks
  | deque (k : Nat)
  | dequeWait (k : Nat)
  | inbox (k : Nat)
  | leaveStoreLen
  | leaveUnlock
  | push
  | storeLen
  | unlock
  | park
  | relock
  | retain
  | restoreLen
  | reunlock
deriving DecidableEq, Repr

/-- {lit}`ThreadPool::new`. -/
inductive NewPc
  | worker (i : Nat)
  | spawn (i : Nat)
  | write (i : Nat)
  | host
  | initStore
  | failed
deriving DecidableEq, Repr

/-- {lit}`shutdown`. -/
inductive ShutdownPc
  | storeRunning
  | unpark (k : Nat)
  | join (k : Nat)
  | dropTasks (k : Nat)
  | tasksDropped (k : Nat)
  | dropInbox (k : Nat)
  | inboxDropped (k : Nat)
deriving DecidableEq, Repr

/-- Dropping {lit}`inner` after the shutdown. -/
inductive DropPc
  | shutdown
  | tasks
  | tasksDropped
  | done
deriving DecidableEq, Repr

/-- One activation of a function of the pool, or of user code. -/
inductive Frame
  | user (u : UserCode)
  /-- A result on its way to the caller. -/
  | ret (o : Outcome)
  /-- End of a method of pool {lit}`p`. -/
  | callEnd (p : Nat)
  | callDone (p : Nat) (o : Outcome)
  /-- {lit}`push_and_wake_one`. -/
  | enqueue (p j : Nat)
  | enqueueWait (p j : Nat)
  /-- {lit}`wake_one`, called by the publisher of job {lit}`j`. -/
  | wake (p j : Nat) (pc : WakePc)
  | spawn (p s : Nat) (pc : SpawnPc)
  | spawnWait (p s j : Nat)
  /-- End of {lit}`spawn` on scope {lit}`s`. -/
  | spawnEnd (s : Nat)
  | spawnDone (s : Nat) (o : Outcome)
  | scope (p s : Nat) (pc : ScopePc)
  | runUntil (w : WorkerRef) (s tick : Nat) (pc : UntilPc)
  | pop (w : WorkerRef) (pc : PopPc)
  | steal (w : WorkerRef) (tick : Nat) (pc : StealPc)
  | task (j : Nat) (pc : TaskPc)
  | batch (p s : Nat) (pc : BatchPc)
  | inboxes (p s caller index : Nat) (pc : InboxPc)
  | assign (p s caller index : Nat) (pc : AssignPc)
  | publish (p s : Nat) (pc : PublishPc)
  | loop (p i tick rounds : Nat) (pc : LoopPc)
  | sleep (p i : Nat) (pc : SleepPc)
  | newPool (p : Nat) (pc : NewPc)
  | shutdown (p handles workerCount : Nat) (pc : ShutdownPc)
  | dropPool (p : Nat) (pc : DropPc)
  /-- Dropping jobs that were never started. -/
  | dropJobs (js : List Nat)
  | dropEnv (j : Nat) (js : List Nat)
deriving DecidableEq, Repr

/-! ## Choices of the scheduler -/

/-- {lit}`CfgThreadPool`, as far as it decides what is built. -/
structure CfgThreadPool where
  perWorkerTaskCapacity : Nat
  workerCount : Nat
deriving DecidableEq, Repr

/-- What user code does next. -/
inductive UserAct
  | push (p : Nat)
  | scope (p : Nat)
  | runBatch (p : Nat)
  | spawn (s : Nat)
  /-- The iterator of a batch gives out a job. -/
  | yield
  | finish
  | panic (payload : Nat)
  | newPool (cfg : CfgThreadPool) (availableCores : Nat)
  | dropPool (p : Nat)
deriving DecidableEq, Repr

/-- A plain step, a step on which the environment does what it may at any time (a
weak CAS fails, {lit}`park` returns, a thread cannot be spawned), or a choice of
user code. -/
inductive Choice
  | go
  | spurious
  | user (a : UserAct)
deriving DecidableEq, Repr

/-! ## Queue operations a frame starts -/

/-- {lit}`YIELD_LIMIT`. -/
def YIELD_LIMIT : Nat := 10

/-- {lit}`Backoff::snooze`, as far as {lit}`is_completed` sees it. -/
def snooze (rounds : Nat) : Nat := if rounds ≤ YIELD_LIMIT then rounds + 1 else rounds

/-- {lit}`wrapping_add` on {lit}`usize`. -/
def wrappingAdd (a b : Nat) : Nat := (a + b) % 2 ^ 64

/-- The victim at an offset of {lit}`steal_and_run_a_task`. -/
def victimIndex (w : WorkerRef) (tick offset count : Nat) : Nat :=
  (wrappingAdd tick w.idx % count + offset) % count

/-- The queue operation a frame starts, and where the frame waits for it. -/
def Frame.call (m : Mem) (ctx : Context) :
    Frame → Option (QueueCall DequeId QueueId Nat × Frame)
  | .enqueue p j => some (.queuePush (.tasks p) j, .enqueueWait p j)
  | .spawn p s (.pushJob j) =>
      if ctx.pool = p then some (.push (.slot p ctx.index) j, .spawnWait p s j) else none
  | .pop w .pop => some (.pop w.tasks, .pop w .popWait)
  | .pop w .inbox => some (.queuePop w.inbox, .pop w .inboxWait)
  | .steal w tick .refill =>
      some (.pushBatchByTakingFromQueue w.tasks (m.queues.deque w.tasks).buffer.capacity
        (.tasks w.root), .steal w tick .refillWait)
  | .steal w tick (.tryPop offset) =>
      let index := victimIndex w tick offset (m.pools w.root).workersLen
      some (.queueTryPop (.inbox w.root index), .steal w tick (.tryPopWait offset))
  | .steal w tick (.victimLen offset) =>
      let index := victimIndex w tick offset (m.pools w.root).workersLen
      some (.len (.slot w.root index), .steal w tick (.victimLenWait offset))
  | .steal w tick (.steal offset amount) =>
      let index := victimIndex w tick offset (m.pools w.root).workersLen
      some (.trySteal (.slot w.root index) amount w.tasks, .steal w tick (.stealWait offset))
  | .sleep p i (.deque k) => some (.len (.slot p k), .sleep p i (.dequeWait k))
  | _ => none

/-- What a frame does with the result of the operation it waited for. -/
def Frame.answer : Frame → QueueRes Nat → List Frame
  | .enqueueWait p j, .pushed => [.wake p j .lock]
  | .spawnWait p _ j, .pushed => [.wake p j .lock]
  | .spawnWait p _ _, .full back => [.enqueue p back]
  | .pop w .popWait, .popped (some j) => [.task j .start, .pop w .running]
  | .pop w .popWait, _ => [.pop w .inbox]
  | .pop w .inboxWait, .popped (some j) => [.task j .start, .pop w .running]
  | .pop _ .inboxWait, _ => [.ret (.bool false)]
  | .steal w tick .refillWait, .moved n =>
      if n > 0 then [.pop w .pop, .steal w tick .popRefilled] else [.steal w tick (.scan 0)]
  | .steal w tick (.tryPopWait _), .popped (some j) => [.task j .start, .steal w tick .running]
  | .steal w tick (.tryPopWait offset), _ => [.steal w tick (.victimLen offset)]
  | .steal w tick (.victimLenWait offset), .length n =>
      [.steal w tick (.steal offset (max ((n + 1) / 2) 1))]
  | .steal w tick (.stealWait offset), .stole (.success _) =>
      [.pop w .pop, .steal w tick (.popStolen offset)]
  | .steal w tick (.stealWait offset), _ => [.steal w tick (.scan (offset + 1))]
  | .sleep p i (.dequeWait k), .length n =>
      if n = 0 then [.sleep p i (.inbox k)] else [.sleep p i .leaveStoreLen]
  | f, _ => [f]

/-- What a frame does with the result of the frame it called. -/
def Frame.resume : Frame → Outcome → List Frame
  | .callEnd p, o => [.callDone p o]
  | .spawnEnd s, o => [.spawnDone s o]
  | .scope p s (.closure role previous), .panic x => [.scope p s (.cancelLoad role previous x)]
  | .scope p s (.closure role previous), _ => [.scope p s (.runUntil role previous .unit)]
  | .scope p s (.waiting role previous outcome), _ => [.scope p s (.restore role previous outcome)]
  | .scope p s (.dropHelper role result), _ => [.scope p s (.dropHostOwner role result)]
  | .runUntil w s tick .popping, .bool true => [.runUntil w s tick .check]
  | .runUntil w s tick .popping, _ => [.steal w tick .refill, .runUntil w s tick .stealing]
  | .runUntil w s tick .stealing, _ => [.runUntil w s tick .check]
  | .pop _ .running, _ => [.ret (.bool true)]
  | .steal _ _ .popRefilled, .bool true => [.ret (.bool true)]
  | .steal w tick .popRefilled, _ => [.steal w tick (.scan 0)]
  | .steal _ _ .running, _ => [.ret (.bool true)]
  | .steal _ _ (.popStolen _), .bool true => [.ret (.bool true)]
  | .steal w tick (.popStolen offset), _ => [.steal w tick (.scan (offset + 1))]
  | .task _ .plain, _ => [.ret .unit]
  | .task j (.scoped s), .panic x => [.task j (.recordTry s x)]
  | .task j (.scoped s), _ => [.task j (.dropTicket s)]
  | .batch _ _ .intoIter, .panic x => [.ret (.panic x)]
  | .batch p s .intoIter, _ => [.batch p s .caller]
  | .batch _ _ .publishing, o => [.ret o]
  | .inboxes p s caller index (.nested held n), .panic x =>
      [.inboxes p s caller index (.truncate held n x)]
  | .inboxes p s caller index (.nested held _), o => [.inboxes p s caller index (.storeLen held o)]
  | .inboxes p s caller index (.dropping held x), _ =>
      [.inboxes p s caller index (.storeLen held (.panic x))]
  | .assign p s caller index .waiting, .bool true => [.assign p s caller index .ticket]
  | .assign _ _ _ _ .waiting, .panic x => [.ret (.panic x)]
  | .assign _ _ _ _ .waiting, _ => [.ret .unit]
  | .publish _ _ .assigning, .panic x => [.ret (.panic x)]
  | .publish p s .assigning, _ => [.publish p s .passLock]
  | .loop p i tick _ .popping, .bool true => [.loop p i (wrappingAdd tick 1) 0 .running]
  | .loop p i tick rounds .popping, _ =>
      [.steal (.slot p i) tick .refill, .loop p i tick rounds .stealing]
  | .loop p i tick _ .stealing, .bool true => [.loop p i (wrappingAdd tick 1) 0 .running]
  | .loop p i tick rounds .stealing, _ =>
      if rounds > YIELD_LIMIT then [.sleep p i .lock, .loop p i tick 0 .sleeping]
      else [.loop p i (wrappingAdd tick 1) (snooze rounds) .running]
  | .loop p i tick rounds .sleeping, _ => [.loop p i (wrappingAdd tick 1) rounds .running]
  | .newPool _ .failed, _ => [.ret (.panic 0)]
  | .shutdown p handles workerCount (.tasksDropped k), _ =>
      [.shutdown p handles workerCount (.dropInbox k)]
  | .shutdown p handles workerCount (.inboxDropped k), _ =>
      [.shutdown p handles workerCount (.dropTasks (k + 1))]
  | .dropPool p .shutdown, _ => [.dropPool p .tasks]
  | .dropPool p .tasksDropped, _ => [.dropPool p .done]
  | f, _ => [f]

/-! ## Steps of the functions

Each definition is one function: the access its program point makes, and the
frames that replace it.  A step is disabled while its thread has to wait. -/

/-- {lit}`wake_one`. -/
def wakeStep (t : Tid) (m : Mem) (p j : Nat) : WakePc → Option (Mem × List Frame)
  | .lock =>
      let b := (m.pools p).sleepers
      match b.locked with
      | none => some (m.setSleepers p { b with locked := some t }, [.wake p j .pop])
      | some _ => none
  | .pop =>
      let b := (m.pools p).sleepers
      some ((m.setSleepers p { b with elements := b.elements.tail }).modJob j
        fun job => { job with announced := true }, [.wake p j (.storeLen b.elements.head?)])
  | .storeLen r =>
      let b := (m.pools p).sleepers
      some (m.setSleepers p { b with len := b.elements.length }, [.wake p j (.unlock r)])
  | .unlock r =>
      let b := (m.pools p).sleepers
      let m' := m.setSleepers p { b with locked := none }
      match r with
      | some i => some (m', [.wake p j (.unpark i)])
      | none => some (m'.modJob j fun job => { job with woken := true }, [.ret .unit])
  | .unpark i =>
      match (m.pools p).workers i with
      | some thread =>
          some ((m.setToken thread true).modJob j fun job => { job with woken := true },
            [.ret .unit])
      | none => none

/-- {lit}`Scope::new_job`: the ticket is taken before the job exists. -/
def newJob (m : Mem) (s : Nat) : Mem :=
  let m' := m.modScope s fun scope =>
    { scope with
      latch := { scope.latch with remaining := scope.latch.remaining + 1 }
      tickets := scope.tickets ++ [m.nextJob] }
  { m' with jobs := Function.update m.jobs m.nextJob (.fresh (.scope s)), nextJob := m.nextJob + 1 }

/-- {lit}`LatchTicket::drop` for the ticket of job {lit}`j`. -/
def dropTicket (m : Mem) (s j : Nat) : Mem :=
  (m.modScope s fun scope =>
    { scope with
      latch := { scope.latch with remaining := scope.latch.remaining - 1 }
      tickets := scope.tickets.erase j }).modJob j fun job => { job with released := true }

/-- {lit}`Scope::spawn`, outside of the queue operation. -/
def spawnStep (m : Mem) (ctx : Context) (p s : Nat) : SpawnPc → Option (Mem × List Frame)
  | .ticket => some (newJob m s, [.spawn p s (.pushJob m.nextJob)])
  | .pushJob j => if ctx.pool = p then none else some (m, [.enqueue p j])

/-- {lit}`current_worker`, as the reference it gives. -/
def currentWorker (ctx : Context) (p : Nat) : Option WorkerRef :=
  if ctx.pool = p then some (.slot p ctx.index) else none

theorem acceptsCapacity_one : acceptsCapacity 1 :=
  ⟨by decide, by decide, 0, rfl⟩

/-- {lit}`ThreadPool::scope`. -/
def scopeStep (t : Tid) (spurious : Bool) (m : Mem) (ctx : Context) (p s : Nat) :
    ScopePc → Option (Mem × Context × List Frame)
  | .start =>
      if ctx.pool ≠ p then some (m, ctx, [.scope p s (.tryHost ctx)])
      else some (m, ctx, [.scope p s (.enter .inside ctx)])
  | .tryHost previous =>
      match (m.pools p).hostOwner.locked with
      | none =>
          some (m.modPool p fun inner =>
              { inner with hostOwner := { inner.hostOwner with locked := some t } },
            ctx, [.scope p s (.enter .host previous)])
      | some _ =>
          -- the helper's private worker, with a deque of one slot
          some ((m.setDeque (.helper s) (.new 1 acceptsCapacity_one)).setQueue (.helperInbox s) .new,
            ctx, [.scope p s (.enter .helper previous)])
  | .enter role previous =>
      let ctx' := match role with
        | .host => ⟨p, (m.pools p).hostIndex⟩
        | _ => ctx
      if (m.scopes s).batch then
        some (m, ctx', [.user (.intoIter s), .batch p s .intoIter, .scope p s (.closure role previous)])
      else
        some (m.modScope s fun scope => { scope with opened := true }, ctx',
          [.user (.closure s), .scope p s (.closure role previous)])
  | .cancelLoad role previous x =>
      if (m.scopes s).latch.canceled then
        some (m, ctx, [.scope p s (.runUntil role previous (.panic x))])
      else some (m, ctx, [.scope p s (.cancelCas role previous x)])
  | .cancelCas role previous x =>
      if spurious ∧ (m.scopes s).latch.canceled = false then
        some (m, ctx, [.scope p s (.cancelCas role previous x)])
      else
        some (m.modScope s fun scope => { scope with latch := { scope.latch with canceled := true } },
          ctx, [.scope p s (.runUntil role previous (.panic x))])
  | .runUntil role previous outcome =>
      let worker := match role with
        | .helper => some (.helper p s)
        | _ => currentWorker ctx p
      match worker with
      | some w =>
          some (m, ctx, [.runUntil w s 0 .check, .scope p s (.waiting role previous outcome)])
      -- `expect("scope must have a worker or an external helper")`
      | none => none
  | .restore role previous outcome =>
      let ctx' := match role with
        | .host => previous
        | _ => ctx
      some (m, ctx', [.scope p s (.takeLock role outcome)])
  | .takeLock role outcome =>
      match (m.scopes s).panic.locked with
      | none =>
          some (m.modScope s fun scope => { scope with panic := { scope.panic with locked := some t } },
            ctx, [.scope p s (.takePanic role outcome)])
      | some _ => none
  | .takePanic role outcome =>
      some (m.modScope s fun scope => { scope with panic := { scope.panic with val := none } },
        ctx, [.scope p s (.takeUnlock role outcome (m.scopes s).panic.val)])
  | .takeUnlock role outcome jobPanic =>
      some (m.modScope s fun scope => { scope with panic := { scope.panic with locked := none } },
        ctx, [.scope p s (.matchOutcome role outcome jobPanic)])
  | .matchOutcome role outcome jobPanic =>
      let result := match outcome, jobPanic with
        | .panic x, _ => .panic x
        | _, some x => .panic x
        | o, none => o
      some (m.modScope s fun scope => { scope with ended := true }, ctx,
        [.scope p s (.dropHelper role result)])
  | .dropHelper role result =>
      match role with
      | .helper =>
          let q := m.queues.deque (.helper s)
          let b := m.queues.queue (.helperInbox s)
          some ((m.setDeque (.helper s) (.new 1 acceptsCapacity_one)).setQueue (.helperInbox s)
              { b with elements := [] },
            ctx, [.dropJobs (q.unclaimed ++ b.elements), .scope p s (.dropHelper role result)])
      | _ => some (m, ctx, [.scope p s (.dropHostOwner role result)])
  | .dropHostOwner role result =>
      match role with
      | .host =>
          some (m.modPool p fun inner =>
              { inner with hostOwner := { inner.hostOwner with locked := none } },
            ctx, [.ret result])
      | _ => some (m, ctx, [.ret result])
  | .closure _ _ | .waiting _ _ _ => none

/-- {lit}`run_until`. -/
def runUntilStep (m : Mem) (w : WorkerRef) (s tick : Nat) : UntilPc → Option (List Frame)
  | .check =>
      if (m.scopes s).latch.remaining ≤ 1 then some [.ret .unit]
      else some [.pop w .pop, .runUntil w s (wrappingAdd tick 1) .popping]
  | .popping | .stealing => none

/-- {lit}`steal_and_run_a_task`, outside of the queue operations. -/
def stealStep (m : Mem) (w : WorkerRef) (tick : Nat) : StealPc → Option (List Frame)
  | .scan offset =>
      let inner := m.pools w.root
      if offset < inner.workersLen then
        if victimIndex w tick offset inner.workersLen = w.idx then
          some [.steal w tick (.scan (offset + 1))]
        else some [.steal w tick (.inboxLen offset)]
      else some [.ret (.bool false)]
  | .inboxLen offset =>
      let index := victimIndex w tick offset (m.pools w.root).workersLen
      if (m.queues.queue (.inbox w.root index)).len = 0 then
        some [.steal w tick (.victimLen offset)]
      else some [.steal w tick (.tryPop offset)]
  | _ => none

/-- {lit}`run_task` on a job: a pushed job is the user's closure, a job of a scope
is the wrapper of {lit}`Scope::new_job`. -/
def taskStep (t : Tid) (m : Mem) (j : Nat) : TaskPc → Option (Mem × List Frame)
  | .start =>
      match (m.jobs j).home with
      | .pool _ =>
          some (m.modJob j fun job =>
              { job with starts := job.starts + 1, runs := job.runs + 1, runner := some t },
            [.user (.body j), .task j .plain])
      | .scope s =>
          some (m.modJob j fun job => { job with starts := job.starts + 1, runner := some t },
            [.task j (.isCanceled s)])
  | .isCanceled s =>
      if (m.scopes s).latch.canceled then some (m, [.task j (.dropTicketCanceled s)])
      else
        some (m.modJob j fun job => { job with runs := job.runs + 1 },
          [.user (.body j), .task j (.scoped s)])
  | .recordTry s x =>
      match (m.scopes s).panic.locked with
      | none =>
          some (m.modScope s fun scope => { scope with panic := { scope.panic with locked := some t } },
            [.task j (.record s x)])
      | some _ => some (m, [.task j (.dropTicket s)])
  | .record s x =>
      some (m.modScope s fun scope =>
          { scope with panic := { scope.panic with val := some (scope.panic.val.getD x) } },
        [.task j (.recordUnlock s)])
  | .recordUnlock s =>
      some (m.modScope s fun scope => { scope with panic := { scope.panic with locked := none } },
        [.task j (.dropTicket s)])
  | .dropTicket s => some (dropTicket m s j, [.ret .unit])
  -- the ticket goes first, the closure with its captures at the end of the wrapper
  | .dropTicketCanceled s => some (dropTicket m s j, [.task j .dropEnv])
  | .dropEnv => some (m.modJob j fun job => { job with captures := false }, [.ret .unit])
  | .plain | .scoped _ => none

/-- Dropping the next of a list of jobs that were never started: its ticket. -/
def dropJobsStep (m : Mem) : List Nat → Mem × List Frame
  | [] => (m, [.ret .unit])
  | j :: js =>
      let m' := match (m.jobs j).home with
        | .pool _ => m
        | .scope s => dropTicket m s j
      (m'.modJob j fun job => { job with drops := job.drops + 1 }, [.dropEnv j js])

/-- The closure of {lit}`run_batch`. -/
def batchStep (ctx : Context) (p s : Nat) : BatchPc → Option (List Frame)
  | .caller =>
      let caller := match currentWorker ctx p with
        | some w => w.idx
        | none => 0
      some [.inboxes p s caller 0 .enter, .publish p s .assigning, .batch p s .publishing]
  | .intoIter | .publishing => none

/-- One level of {lit}`with_batch_inboxes`. -/
def inboxesStep (t : Tid) (m : Mem) (p s caller index : Nat) :
    InboxPc → Option (Mem × List Frame)
  | .enter =>
      if index = (m.pools p).workersLen then some (m, [.assign p s caller 0 .next])
      else some (m, [.inboxes p s caller index .lock])
  | .lock =>
      let q := QueueId.inbox p index
      let b := m.queues.queue q
      match b.locked with
      | none =>
          some (m.setQueue q { b with locked := some t },
            [.inboxes p s caller index (.originalLen b.elements)])
      | some _ => none
  | .originalLen held =>
      let b := m.queues.queue (.inbox p index)
      some (m, [.inboxes p s caller (index + 1) .enter,
        .inboxes p s caller index (.nested held b.elements.length)])
  | .truncate held n x =>
      let q := QueueId.inbox p index
      let b := m.queues.queue q
      some (m.setQueue q { b with elements := b.elements.take n },
        [.dropJobs (b.elements.drop n), .inboxes p s caller index (.dropping held x)])
  | .storeLen held result =>
      let q := QueueId.inbox p index
      let b := m.queues.queue q
      some (m.setQueue q { b with len := b.elements.length },
        [.inboxes p s caller index (.unlock held result)])
  | .unlock _ result =>
      let q := QueueId.inbox p index
      let b := m.queues.queue q
      some (m.setQueue q { b with locked := none }, [.ret result])
  | .nested _ _ | .dropping _ _ => none

/-- Inbox the {lit}`index`th job of a batch goes to. -/
def batchTarget (inner : ThreadPoolInner) (caller index : Nat) : Nat :=
  let participants := inner.totalWorker + (if caller = inner.hostIndex then 1 else 0)
  let turn := index % participants
  if turn = 0 then caller else if turn ≤ caller then turn - 1 else turn

/-- The {lit}`assign` closure of {lit}`publish_batch`. -/
def assignStep (m : Mem) (p s caller index : Nat) : AssignPc → Option (Mem × List Frame)
  | .next => some (m, [.user (.iterNext s), .assign p s caller index .waiting])
  | .ticket => some (newJob m s, [.assign p s caller index (.place m.nextJob)])
  | .place j =>
      let q := QueueId.inbox p (batchTarget (m.pools p) caller index)
      let b := m.queues.queue q
      some (m.setQueue q { b with elements := b.elements ++ [j] },
        [.assign p s caller (index + 1) .next])
  | .waiting => none

/-- The sleepers pass of {lit}`publish_batch`. -/
def publishStep (t : Tid) (m : Mem) (p s : Nat) : PublishPc → Option (Mem × List Frame)
  | .passLock =>
      let b := (m.pools p).sleepers
      match b.locked with
      | none =>
          some (m.setSleepers p { b with locked := some t }, [.publish p s (.passScan [] b.elements)])
      | some _ => none
  | .passScan kept (i :: rest) =>
      if (m.queues.queue (.inbox p i)).len = 0 then
        some (m, [.publish p s (.passScan (kept ++ [i]) rest)])
      else some (m, [.publish p s (.passUnpark i kept rest)])
  | .passScan kept [] =>
      let b := (m.pools p).sleepers
      some (m.setSleepers p { b with elements := kept }, [.publish p s .passStoreLen])
  | .passUnpark i kept rest =>
      match (m.pools p).workers i with
      | some thread => some (m.setToken thread true, [.publish p s (.passScan kept rest)])
      | none => none
  | .passStoreLen =>
      let b := (m.pools p).sleepers
      some (m.setSleepers p { b with len := b.elements.length }, [.publish p s .passUnlock])
  | .passUnlock =>
      let b := (m.pools p).sleepers
      some ((m.setSleepers p { b with locked := none }).modScope s
        fun scope => { scope with passed := true }, [.ret .unit])
  | .assigning => none

/-- {lit}`Worker::update`. -/
def loopStep (m : Mem) (ctx : Context) (p i tick rounds : Nat) :
    LoopPc → Option (Mem × Context × List Frame)
  | .unborn =>
      if (m.pools p).spawned i then some (m, ctx, [.loop p i tick rounds .warmRunning]) else none
  | .warmRunning =>
      if (m.pools p).isRunning then some (m, ctx, [.loop p i tick rounds .warmInit])
      else
        -- the thread ends, and its context with it
        some (m.modPool p fun inner =>
          { inner with exited := Function.update inner.exited i true }, .NONE, [])
  | .warmInit =>
      if (m.pools p).initCompleted then some (m, ctx, [.loop p i tick rounds .setCtx])
      else some (m, ctx, [.loop p i tick rounds .warmRunning])
  | .setCtx => some (m, ⟨p, i⟩, [.loop p i 0 0 .running])
  | .running =>
      if (m.pools p).isRunning then
        some (m, ctx, [.pop (.slot p i) .pop, .loop p i tick rounds .popping])
      else
        some (m.modPool p fun inner =>
          { inner with exited := Function.update inner.exited i true }, .NONE, [])
  | .popping | .stealing | .sleeping => none

/-- {lit}`sleep_if_idle`. -/
def sleepStep (t : Tid) (spurious : Bool) (m : Mem) (p i : Nat) :
    SleepPc → Option (Mem × List Frame)
  | .lock =>
      let b := (m.pools p).sleepers
      match b.locked with
      | none => some (m.setSleepers p { b with locked := some t }, [.sleep p i .isRunning])
      | some _ => none
  | .isRunning =>
      if (m.pools p).isRunning then some (m, [.sleep p i .tasks])
      else some (m, [.sleep p i .leaveStoreLen])
  | .tasks =>
      if (m.queues.queue (.tasks p)).len = 0 then some (m, [.sleep p i (.deque 0)])
      else some (m, [.sleep p i .leaveStoreLen])
  | .inbox k =>
      if (m.queues.queue (.inbox p k)).len = 0 then
        if k + 1 < (m.pools p).workersLen then some (m, [.sleep p i (.deque (k + 1))])
        else some (m, [.sleep p i .push])
      else some (m, [.sleep p i .leaveStoreLen])
  | .leaveStoreLen =>
      let b := (m.pools p).sleepers
      some (m.setSleepers p { b with len := b.elements.length }, [.sleep p i .leaveUnlock])
  | .leaveUnlock =>
      let b := (m.pools p).sleepers
      some (m.setSleepers p { b with locked := none }, [.ret .unit])
  | .push =>
      let b := (m.pools p).sleepers
      some (m.setSleepers p { b with elements := b.elements ++ [i] }, [.sleep p i .storeLen])
  | .storeLen =>
      let b := (m.pools p).sleepers
      some (m.setSleepers p { b with len := b.elements.length }, [.sleep p i .unlock])
  | .unlock =>
      let b := (m.pools p).sleepers
      some (m.setSleepers p { b with locked := none }, [.sleep p i .park])
  | .park =>
      if m.token t then some (m.setToken t false, [.sleep p i .relock])
      else if spurious then some (m, [.sleep p i .relock])
      else none
  | .relock =>
      let b := (m.pools p).sleepers
      match b.locked with
      | none => some (m.setSleepers p { b with locked := some t }, [.sleep p i .retain])
      | some _ => none
  | .retain =>
      let b := (m.pools p).sleepers
      some (m.setSleepers p { b with elements := b.elements.filter (· ≠ i) },
        [.sleep p i .restoreLen])
  | .restoreLen =>
      let b := (m.pools p).sleepers
      some (m.setSleepers p { b with len := b.elements.length }, [.sleep p i .reunlock])
  | .reunlock =>
      let b := (m.pools p).sleepers
      some (m.setSleepers p { b with locked := none }, [.ret .unit])
  | .deque _ | .dequeWait _ => none

/-- {lit}`Worker::new` for one slot of a pool. -/
def newWorker (m : Mem) (p i : Nat) (h : acceptsCapacity (m.pools p).taskCapacity) : Mem :=
  (m.setDeque (.slot p i) (.new (m.pools p).taskCapacity h)).setQueue (.inbox p i) .new

/-- {lit}`ThreadPool::new`, once the pool's memory is there. -/
def newPoolStep (t : Tid) (spurious : Bool) (m : Mem) (p : Nat) : NewPc → Option (Mem × List Frame)
  | .worker i =>
      if h : acceptsCapacity (m.pools p).taskCapacity then
        some (newWorker m p i h, [.newPool p (.spawn i)])
      else none
  | .spawn i =>
      if spurious then some (m, [.shutdown p i i .storeRunning, .newPool p .failed])
      else
        some (m.modPool p fun inner =>
            { inner with spawned := Function.update inner.spawned i true },
          [.newPool p (.write i)])
  | .write i =>
      some (m.modPool p fun inner =>
          { inner with workers := Function.update inner.workers i (some (.worker p i)) },
        if i + 1 < (m.pools p).totalWorker then [.newPool p (.worker (i + 1))]
        else [.newPool p .host])
  | .host =>
      if h : acceptsCapacity (m.pools p).taskCapacity then
        let host := (m.pools p).hostIndex
        some ((newWorker m p host h).modPool p fun inner =>
            { inner with workers := Function.update inner.workers host (some t) },
          [.newPool p .initStore])
      else none
  | .initStore =>
      some (m.modPool p fun inner =>
          { inner with initCompleted := true, usable := true, manager := none },
        [.ret .unit])
  | .failed => none

/-- {lit}`shutdown`. -/
def shutdownStep (m : Mem) (p handles workerCount : Nat) : ShutdownPc → Option (Mem × List Frame)
  | .storeRunning =>
      some (m.modPool p fun inner => { inner with isRunning := false },
        [.shutdown p handles workerCount (.unpark 0)])
  | .unpark k =>
      if k < handles then
        some (m.setToken (.worker p k) true, [.shutdown p handles workerCount (.unpark (k + 1))])
      else some (m, [.shutdown p handles workerCount (.join 0)])
  | .join k =>
      if k < handles then
        if (m.pools p).exited k then
          some (m, [.shutdown p handles workerCount (.join (k + 1))])
        else none
      else some (m, [.shutdown p handles workerCount (.dropTasks 0)])
  | .dropTasks k =>
      if k < workerCount then
        let q := m.queues.deque (.slot p k)
        some ((m.setDeque (.slot p k) (.new 1 acceptsCapacity_one)).modPool p fun inner =>
            { inner with workers := Function.update inner.workers k none },
          [.dropJobs q.unclaimed, .shutdown p handles workerCount (.tasksDropped k)])
      else some (m, [.ret .unit])
  | .dropInbox k =>
      let b := m.queues.queue (.inbox p k)
      some (m.setQueue (.inbox p k) { b with elements := [] },
        [.dropJobs b.elements, .shutdown p handles workerCount (.inboxDropped k)])
  | .tasksDropped _ | .inboxDropped _ => none

/-- Dropping the rest of the pool. -/
def dropPoolStep (m : Mem) (p : Nat) : DropPc → Option (Mem × List Frame)
  | .tasks =>
      let b := m.queues.queue (.tasks p)
      some (m.setQueue (.tasks p) { b with elements := [] },
        [.dropJobs b.elements, .dropPool p .tasksDropped])
  | .done => some (m.modPool p fun inner => { inner with dropped := true }, [.ret .unit])
  | .shutdown | .tasksDropped => none

/-! ## User code -/

/-- The memory of a pool that was just allocated. -/
def ThreadPoolInner.new (totalWorker taskCapacity : Nat) (manager : Option Tid) :
    ThreadPoolInner where
  totalWorker := totalWorker
  taskCapacity := taskCapacity
  workers := fun _ => none
  hostOwner := ⟨(), none⟩
  initCompleted := false
  isRunning := true
  sleepers := .new
  spawned := fun _ => false
  exited := fun _ => false
  usable := false
  manager := manager
  callers := []
  dropped := false

/-- {lit}`scope` or {lit}`run_batch` is called on pool {lit}`p`. -/
def enterScope (t : Tid) (m : Mem) (p : Nat) (isBatch : Bool) : Option (Mem × List Frame) :=
  if (m.pools p).usable then
    let m' := m.modPool p fun inner => { inner with callers := t :: inner.callers }
    some ({ m' with
        scopes := Function.update m.scopes m.nextScope (.new p isBatch t)
        nextScope := m.nextScope + 1 },
      [.scope p m.nextScope .start, .callEnd p])
  else none

/-- The method calls, construction and drop a piece of user code may make.  A
method needs the pool value, {lit}`spawn` a scope whose closure runs, and a drop
the last reference. -/
def userCall (t : Tid) (m : Mem) : UserAct → Option (Mem × List Frame)
  | .push p =>
      if (m.pools p).usable then
        let m' := m.modPool p fun inner => { inner with callers := t :: inner.callers }
        some ({ m' with
            jobs := Function.update m.jobs m.nextJob (.fresh (.pool p)), nextJob := m.nextJob + 1 },
          [.enqueue p m.nextJob, .callEnd p])
      else none
  | .scope p => enterScope t m p false
  | .runBatch p => enterScope t m p true
  | .spawn s =>
      if (m.scopes s).opened then
        some (m.modScope s fun scope => { scope with spawners := t :: scope.spawners },
          [.spawn (m.scopes s).root s .ticket, .spawnEnd s])
      else none
  | .newPool cfg availableCores =>
      let totalWorker := max (min cfg.workerCount availableCores) 1
      let taskCapacity := Nat.nextPowerOfTwo (max cfg.perWorkerTaskCapacity 1)
      if taskCapacity < maxCapacity then
        let m' := m.setQueue (.tasks m.nextPool) .new
        some ({ m' with
            pools := Function.update m.pools m.nextPool (.new totalWorker taskCapacity (some t))
            nextPool := m.nextPool + 1 },
          [.newPool m.nextPool (.worker 0)])
      else some (m, [.ret (.panic 0)])
  | .dropPool p =>
      let inner := m.pools p
      if inner.usable ∧ inner.callers = [] then
        some (m.modPool p fun inner => { inner with usable := false, manager := some t },
          [.shutdown p inner.totalWorker inner.workersLen .storeRunning, .dropPool p .shutdown])
      else none
  | .yield | .finish | .panic _ => none

/-- A piece of user code ends: the closure of a job takes its captures with it,
and the end of a scope's closure is that of the scope's borrow. -/
def userEnd (m : Mem) (u : UserCode) (o : Outcome) : Option (Mem × List Frame) :=
  match u with
  | .main => some (m, [])
  | .body j => some (m.modJob j fun job => { job with captures := false }, [.ret o])
  | .closure s =>
      if (m.scopes s).spawners = [] then
        some (m.modScope s fun scope => { scope with opened := false }, [.ret o])
      else none
  | .intoIter _ => some (m, [.ret o])
  | .iterNext s =>
      match o with
      | .panic x => some (m.modScope s fun scope => { scope with iterPanic := some x }, [.ret o])
      | _ => some (m, [.ret o])

/-- One step of user code. -/
def userStep (t : Tid) (m : Mem) (u : UserCode) : UserAct → Option (Mem × List Frame)
  | .finish =>
      match u with
      | .iterNext _ => userEnd m u (.bool false)
      | _ => userEnd m u .unit
  | .yield =>
      match u with
      | .iterNext _ => userEnd m u (.bool true)
      | _ => none
  | .panic x => userEnd m u (.panic x)
  | a =>
      match userCall t m a with
      | some (m', fs) => some (m', fs ++ [.user u])
      | none => none

/-! ## Frames, threads and the machine -/

/-- Keep the context. -/
def keep (ctx : Context) : Option (Mem × List Frame) → Option (Mem × Context × List Frame)
  | some (m, fs) => some (m, ctx, fs)
  | none => none

/-- Keep the context and the memory. -/
def keepMem (m : Mem) (ctx : Context) : Option (List Frame) → Option (Mem × Context × List Frame)
  | some fs => some (m, ctx, fs)
  | none => none

/-- One step of a frame that waits for nothing. -/
def Frame.step (t : Tid) (c : Choice) (m : Mem) (ctx : Context) :
    Frame → Option (Mem × Context × List Frame)
  | .user u =>
      match c with
      | .user a => keep ctx (userStep t m u a)
      | _ => none
  | .callDone p o =>
      some (m.modPool p fun inner => { inner with callers := inner.callers.erase t }, ctx, [.ret o])
  | .spawnDone s o =>
      some (m.modScope s fun scope => { scope with spawners := scope.spawners.erase t }, ctx,
        [.ret o])
  | .wake p j pc => keep ctx (wakeStep t m p j pc)
  | .spawn p s pc => keep ctx (spawnStep m ctx p s pc)
  | .scope p s pc => scopeStep t (c = .spurious) m ctx p s pc
  | .runUntil w s tick pc => keepMem m ctx (runUntilStep m w s tick pc)
  | .steal w tick pc => keepMem m ctx (stealStep m w tick pc)
  | .task j pc => keep ctx (taskStep t m j pc)
  | .batch p s pc => keepMem m ctx (batchStep ctx p s pc)
  | .inboxes p s caller index pc => keep ctx (inboxesStep t m p s caller index pc)
  | .assign p s caller index pc => keep ctx (assignStep m p s caller index pc)
  | .publish p s pc => keep ctx (publishStep t m p s pc)
  | .loop p i tick rounds pc => loopStep m ctx p i tick rounds pc
  | .sleep p i pc => keep ctx (sleepStep t (c = .spurious) m p i pc)
  | .newPool p pc => keep ctx (newPoolStep t (c = .spurious) m p pc)
  | .shutdown p handles workerCount pc => keep ctx (shutdownStep m p handles workerCount pc)
  | .dropPool p pc => keep ctx (dropPoolStep m p pc)
  | .dropJobs js => keep ctx (some (dropJobsStep m js))
  | .dropEnv j js =>
      some (m.modJob j fun job => { job with captures := false }, ctx, [.dropJobs js])
  | _ => none

/-- A thread: its context, its stack with the innermost frame first, and the
queue operation the innermost frame waits for. -/
structure Thread where
  ctx : Context
  stack : List Frame
  op : Op DequeId QueueId Nat

/-- Container an operation is about to put its job into for the job's publisher. -/
def Op.publishes : Op DequeId QueueId Nat → Option Place
  | .pushAdd d _ => some (.deque d)
  | .queuePushBack q _ => some (.queue q)
  | _ => none

/-- Record that jobs have left the container they were published in, or were
published. -/
def trackOrigins (jobs : Nat → Job) (before after : List Nat) (place : Option Place) :
    Nat → Job :=
  fun j =>
    if j ∈ after then { jobs j with origin := none }
    else
      match place with
      | some x => if j ∈ before then { jobs j with origin := some x } else jobs j
      | none => jobs j

/-- One step of a thread. -/
def threadStep (t : Tid) (c : Choice) (m : Mem) (th : Thread) : Option (Mem × Thread) :=
  match th.op with
  | .idle =>
      match th.stack with
      | [] => none
      | .ret o :: rest =>
          match rest with
          | f :: rest' => some (m, { th with stack := f.resume o ++ rest' })
          | [] => none
      | f :: rest =>
          match f.call m th.ctx with
          | some (call, f') => some (m, { th with stack := f' :: rest, op := .start call })
          | none =>
              match f.step t c m th.ctx with
              | some (m', ctx, fs) => some (m', { th with ctx := ctx, stack := fs ++ rest })
              | none => none
  | .done r =>
      match th.stack with
      | f :: rest => some (m, { th with stack := f.answer r ++ rest, op := .idle })
      | [] => none
  | o =>
      match o.instr (c = .spurious) with
      | some i =>
          match i.exec t m.queues with
          | some (queues, o') =>
              some ({ m with
                  queues := queues
                  jobs := trackOrigins m.jobs (o.hands m.queues) (o'.hands queues) o.publishes },
                { th with op := o' })
          | none => none
      | none => none

/-- The memory before any pool exists. -/
def Mem.initial : Mem where
  queues := ⟨fun _ => .new 1 acceptsCapacity_one, fun _ => .new⟩
  pools := fun _ => .new 0 0 none
  scopes := fun _ => .new 0 false (.ext 0)
  jobs := fun _ => .fresh (.pool 0)
  token := fun _ => false
  nextPool := 1
  nextScope := 0
  nextJob := 0

/-- A thread before its first step: user code, or a worker not yet spawned. -/
def Thread.initial : Tid → Thread
  | .ext _ => ⟨.NONE, [.user .main], .idle⟩
  | .worker p i => ⟨.NONE, [.loop p i 0 0 .unborn], .idle⟩

/-- States of all threads. -/
abbrev PoolState := Machine.Shared Tid Mem Thread

/-- Any number of pools and any number of threads. -/
def poolMachine : Machine PoolState (Tid × Choice) :=
  Machine.ofThreads (fun s => s = ⟨.initial, Thread.initial⟩) threadStep

end XynokConcurrency
