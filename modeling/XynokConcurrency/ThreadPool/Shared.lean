import XynokConcurrency.Utils.Latch
import XynokConcurrency.ThreadPool.QueueContents

/-!
# The shared memory of the thread pools

Everything the threads of a program share through any number of pools: the
queues, the pools with their locks, flags and registrations, the scopes with
their latches, and one record per job.

Each record keeps beside the fields of the source a few that no code reads; they
remember what the borrow checker knows (which calls are under way) and what has
happened to a job so far.

Source: {lit}`thread_pool/shared.rs`, {lit}`thread_pool/scope.rs`,
{lit}`thread_pool/local.rs`, {lit}`utils/spinlock.rs`.
-/

namespace XynokConcurrency

/-! ## Names -/

/-- A thread: the worker of a pool with its index, or one the program made
itself. -/
inductive Tid
  | worker (p i : Nat)
  | ext (e : Nat)
deriving DecidableEq, Repr

/-- A deque: that of a slot of {lit}`workers`, or the private one of the helper
of a scope call. -/
inductive DequeId
  | slot (p i : Nat)
  | helper (scope : Nat)
deriving DecidableEq, Repr

/-- A batching queue of jobs: the shared one of a pool, or an inbox. -/
inductive QueueId
  | tasks (p : Nat)
  | inbox (p i : Nat)
  | helperInbox (scope : Nat)
deriving DecidableEq, Repr

/-- A container a job can lie in. -/
inductive Place
  | deque (d : DequeId)
  | queue (q : QueueId)
deriving DecidableEq, Repr

/-- {lit}`usize::MAX`. -/
def usizeMax : Nat := 2 ^ 64 - 1

/-- The thread-local context: which slot of which pool the thread stands for. -/
structure Context where
  pool : Nat
  index : Nat
deriving DecidableEq, Repr

/-- {lit}`Context::NONE`: no pool has the id zero. -/
def Context.NONE : Context := ⟨0, usizeMax⟩

/-! ## Records -/

/-- A spin lock; the word names the thread that set it. -/
structure SpinLock (α : Type) where
  val : α
  locked : Option Tid

/-- {lit}`ThreadPoolInner`, with the handles of its threads. -/
structure ThreadPoolInner where
  totalWorker : Nat
  taskCapacity : Nat
  /-- {lit}`workers`: the thread handle of each written cell. -/
  workers : Nat → Option Tid
  hostOwner : SpinLock Unit
  initCompleted : Bool
  isRunning : Bool
  sleepers : QueueBatching Tid Nat
  /-- Worker threads that were spawned, and those that have ended. -/
  spawned : Nat → Bool
  exited : Nat → Bool
  /-- The pool value exists: its constructor has returned and its drop has not
  begun. -/
  usable : Bool
  /-- Thread that builds the pool or takes it down. -/
  manager : Option Tid
  /-- Threads inside a method of the pool, once per call. -/
  callers : List Tid
  /-- The drop is over. -/
  dropped : Bool

/-- {lit}`host_index`. -/
def ThreadPoolInner.hostIndex (p : ThreadPoolInner) : Nat := p.totalWorker

/-- {lit}`workers.len()`. -/
def ThreadPoolInner.workersLen (p : ThreadPoolInner) : Nat := p.totalWorker + 1

/-- {lit}`Scope`. -/
structure Scope where
  root : Nat
  latch : Latch
  panic : SpinLock (Option Nat)
  /-- The call is one of {lit}`run_batch`. -/
  batch : Bool
  /-- Thread that called {lit}`scope`. -/
  caller : Tid
  /-- The user's closure runs, so the scope may be borrowed. -/
  opened : Bool
  /-- Threads inside {lit}`spawn`, once per call. -/
  spawners : List Tid
  /-- Jobs whose ticket is live. -/
  tickets : List Nat
  /-- What the iterator of the batch panicked with. -/
  iterPanic : Option Nat
  /-- The sleepers pass of the batch is over. -/
  passed : Bool
  /-- The call has returned or started to unwind. -/
  ended : Bool

/-- What a job was made for. -/
inductive Home
  | pool (p : Nat)
  | scope (s : Nat)
deriving DecidableEq, Repr

/-- What has happened to a job. -/
structure Job where
  home : Home
  /-- How often it was started, how often the user's closure was entered, and how
  often it was dropped without being started. -/
  starts : Nat
  runs : Nat
  drops : Nat
  /-- Thread that started it. -/
  runner : Option Tid
  /-- The ticket of a scope's job was given back. -/
  released : Bool
  /-- The user's closure with its captures still exists. -/
  captures : Bool
  /-- Container its publisher put it into, until it leaves it. -/
  origin : Option Place
  /-- The publisher's {lit}`wake_one` has taken a registration or found none, and
  the publisher's {lit}`wake_one` is over. -/
  announced : Bool
  woken : Bool

/-- The shared memory. -/
structure Mem where
  queues : Queues DequeId QueueId Tid Nat
  pools : Nat → ThreadPoolInner
  scopes : Nat → Scope
  jobs : Nat → Job
  /-- Park tokens. -/
  token : Tid → Bool
  nextPool : Nat
  nextScope : Nat
  nextJob : Nat

namespace Mem

/-- Change one pool. -/
def modPool (m : Mem) (p : Nat) (f : ThreadPoolInner → ThreadPoolInner) : Mem :=
  { m with pools := Function.update m.pools p (f (m.pools p)) }

/-- Change the registrations of one pool. -/
def setSleepers (m : Mem) (p : Nat) (b : QueueBatching Tid Nat) : Mem :=
  m.modPool p fun inner => { inner with sleepers := b }

/-- Change one scope. -/
def modScope (m : Mem) (s : Nat) (f : Scope → Scope) : Mem :=
  { m with scopes := Function.update m.scopes s (f (m.scopes s)) }

/-- Change one job. -/
def modJob (m : Mem) (j : Nat) (f : Job → Job) : Mem :=
  { m with jobs := Function.update m.jobs j (f (m.jobs j)) }

/-- Change one park token. -/
def setToken (m : Mem) (t : Tid) (b : Bool) : Mem :=
  { m with token := Function.update m.token t b }

/-- Change one queue of jobs. -/
def setQueue (m : Mem) (q : QueueId) (b : QueueBatching Tid Nat) : Mem :=
  { m with queues := m.queues.setQueue q b }

/-- Change one deque. -/
def setDeque (m : Mem) (d : DequeId) (q : WorkerQueue Nat) : Mem :=
  { m with queues := m.queues.setDeque d q }

section Fields

variable (m : Mem) (p s j : Nat) (t : Tid) (b : Bool) (d : DequeId) (q : QueueId)
  (f : ThreadPoolInner → ThreadPoolInner) (g : Scope → Scope) (h : Job → Job)
  (deque : WorkerQueue Nat) (queue : QueueBatching Tid Nat)

@[simp] theorem modPool_pools : (m.modPool p f).pools = Function.update m.pools p (f (m.pools p)) :=
  rfl
@[simp] theorem modPool_queues : (m.modPool p f).queues = m.queues := rfl
@[simp] theorem modPool_scopes : (m.modPool p f).scopes = m.scopes := rfl
@[simp] theorem modPool_jobs : (m.modPool p f).jobs = m.jobs := rfl
@[simp] theorem modPool_token : (m.modPool p f).token = m.token := rfl
@[simp] theorem modPool_nextPool : (m.modPool p f).nextPool = m.nextPool := rfl
@[simp] theorem modPool_nextScope : (m.modPool p f).nextScope = m.nextScope := rfl
@[simp] theorem modPool_nextJob : (m.modPool p f).nextJob = m.nextJob := rfl

@[simp] theorem modScope_scopes :
    (m.modScope s g).scopes = Function.update m.scopes s (g (m.scopes s)) := rfl
@[simp] theorem modScope_queues : (m.modScope s g).queues = m.queues := rfl
@[simp] theorem modScope_pools : (m.modScope s g).pools = m.pools := rfl
@[simp] theorem modScope_jobs : (m.modScope s g).jobs = m.jobs := rfl
@[simp] theorem modScope_token : (m.modScope s g).token = m.token := rfl
@[simp] theorem modScope_nextPool : (m.modScope s g).nextPool = m.nextPool := rfl
@[simp] theorem modScope_nextScope : (m.modScope s g).nextScope = m.nextScope := rfl
@[simp] theorem modScope_nextJob : (m.modScope s g).nextJob = m.nextJob := rfl

@[simp] theorem modJob_jobs : (m.modJob j h).jobs = Function.update m.jobs j (h (m.jobs j)) := rfl
@[simp] theorem modJob_queues : (m.modJob j h).queues = m.queues := rfl
@[simp] theorem modJob_pools : (m.modJob j h).pools = m.pools := rfl
@[simp] theorem modJob_scopes : (m.modJob j h).scopes = m.scopes := rfl
@[simp] theorem modJob_token : (m.modJob j h).token = m.token := rfl
@[simp] theorem modJob_nextPool : (m.modJob j h).nextPool = m.nextPool := rfl
@[simp] theorem modJob_nextScope : (m.modJob j h).nextScope = m.nextScope := rfl
@[simp] theorem modJob_nextJob : (m.modJob j h).nextJob = m.nextJob := rfl

@[simp] theorem setToken_token : (m.setToken t b).token = Function.update m.token t b := rfl
@[simp] theorem setToken_queues : (m.setToken t b).queues = m.queues := rfl
@[simp] theorem setToken_pools : (m.setToken t b).pools = m.pools := rfl
@[simp] theorem setToken_scopes : (m.setToken t b).scopes = m.scopes := rfl
@[simp] theorem setToken_jobs : (m.setToken t b).jobs = m.jobs := rfl
@[simp] theorem setToken_nextPool : (m.setToken t b).nextPool = m.nextPool := rfl
@[simp] theorem setToken_nextScope : (m.setToken t b).nextScope = m.nextScope := rfl
@[simp] theorem setToken_nextJob : (m.setToken t b).nextJob = m.nextJob := rfl

@[simp] theorem setDeque_queues : (m.setDeque d deque).queues = m.queues.setDeque d deque := rfl
@[simp] theorem setDeque_pools : (m.setDeque d deque).pools = m.pools := rfl
@[simp] theorem setDeque_scopes : (m.setDeque d deque).scopes = m.scopes := rfl
@[simp] theorem setDeque_jobs : (m.setDeque d deque).jobs = m.jobs := rfl
@[simp] theorem setDeque_token : (m.setDeque d deque).token = m.token := rfl
@[simp] theorem setDeque_nextPool : (m.setDeque d deque).nextPool = m.nextPool := rfl
@[simp] theorem setDeque_nextScope : (m.setDeque d deque).nextScope = m.nextScope := rfl
@[simp] theorem setDeque_nextJob : (m.setDeque d deque).nextJob = m.nextJob := rfl

@[simp] theorem setQueue_queues : (m.setQueue q queue).queues = m.queues.setQueue q queue := rfl
@[simp] theorem setQueue_pools : (m.setQueue q queue).pools = m.pools := rfl
@[simp] theorem setQueue_scopes : (m.setQueue q queue).scopes = m.scopes := rfl
@[simp] theorem setQueue_jobs : (m.setQueue q queue).jobs = m.jobs := rfl
@[simp] theorem setQueue_token : (m.setQueue q queue).token = m.token := rfl
@[simp] theorem setQueue_nextPool : (m.setQueue q queue).nextPool = m.nextPool := rfl
@[simp] theorem setQueue_nextScope : (m.setQueue q queue).nextScope = m.nextScope := rfl
@[simp] theorem setQueue_nextJob : (m.setQueue q queue).nextJob = m.nextJob := rfl

end Fields

end Mem

/-- A job nobody has touched yet. -/
def Job.fresh (home : Home) : Job where
  home := home
  starts := 0
  runs := 0
  drops := 0
  runner := none
  released := false
  captures := true
  origin := none
  announced := false
  woken := false

/-- {lit}`Scope::new`, for a call of thread {lit}`t`. -/
def Scope.new (root : Nat) (batch : Bool) (t : Tid) : Scope where
  root := root
  latch := ⟨1, false⟩
  panic := ⟨none, none⟩
  batch := batch
  caller := t
  opened := false
  spawners := []
  tickets := []
  iterPanic := none
  passed := false
  ended := false

/-! ## Worker references -/

/-- A {lit}`&Worker`: a slot of a pool, or the helper of a scope call on it. -/
inductive WorkerRef
  | slot (p i : Nat)
  | helper (p scope : Nat)
deriving DecidableEq, Repr

namespace WorkerRef

/-- {lit}`worker.root`. -/
def root : WorkerRef → Nat
  | .slot p _ => p
  | .helper p _ => p

/-- {lit}`worker.tasks`. -/
def tasks : WorkerRef → DequeId
  | .slot p i => .slot p i
  | .helper _ s => .helper s

/-- {lit}`worker.inbox`. -/
def inbox : WorkerRef → QueueId
  | .slot p i => .inbox p i
  | .helper _ s => .helperInbox s

/-- {lit}`worker.idx`. -/
def idx : WorkerRef → Nat
  | .slot _ i => i
  | .helper _ _ => usizeMax

end WorkerRef

end XynokConcurrency
