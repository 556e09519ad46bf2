import XynokConcurrency.ThreadPool.Stacks

/-!
# Contexts, locks and the life of a pool

What decides who may do what in a pool: the thread-local contexts, the host lock,
the calls that are under way, and how far a pool has been built or taken down.
Most steps touch none of it.

Main definitions:

- Definition {lit}`contextOf`: the context a thread's stack prescribes.
- Definition {lit}`Frame.Fits`: what a frame knows of the pools while it is on a
  stack.
- Structure {lit}`PoolsOk`: what holds of all pools at any time.

Main results:

- Theorem {lit}`Frame.step_sameLife`: the functions that touch none of it.
-/

namespace XynokConcurrency

/-! ## Contexts -/

namespace ScopePc

/-- How the thread takes part in the pool, once it is decided. -/
def role : ScopePc → Option Role
  | .start | .tryHost _ => none
  | .enter role _ | .closure role _ | .cancelLoad role _ _ | .cancelCas role _ _
  | .runUntil role _ _ | .waiting role _ _ | .restore role _ _ | .takeLock role _
  | .takePanic role _ | .takeUnlock role _ _ | .matchOutcome role _ _ | .dropHelper role _
  | .dropHostOwner role _ => some role

/-- {lit}`previous_ctx`, as long as it is needed. -/
def previous : ScopePc → Option Context
  | .tryHost previous | .enter _ previous | .closure _ previous | .cancelLoad _ previous _
  | .cancelCas _ previous _ | .runUntil _ previous _ | .waiting _ previous _
  | .restore _ previous _ => some previous
  | _ => none

/-- A host has put its context in place and not yet restored the previous one. -/
def seated : ScopePc → Bool
  | .closure .. | .cancelLoad .. | .cancelCas .. | .runUntil .. | .waiting .. | .restore .. => true
  | _ => false

end ScopePc

/-- A worker has put its context in place. -/
def LoopPc.seated : LoopPc → Bool
  | .running | .popping | .stealing | .sleeping => true
  | _ => false

/-- The context a frame puts in place for itself and the frames above it. -/
def Frame.context (m : Mem) : Frame → Option Context
  | .loop p i _ _ pc => if pc.seated then some ⟨p, i⟩ else none
  | .scope p _ pc =>
      if pc.seated ∧ pc.role = some .host then some ⟨p, (m.pools p).hostIndex⟩ else none
  | _ => none

/-- The context a stack prescribes. -/
def contextOf (m : Mem) : List Frame → Context
  | [] => .NONE
  | f :: rest => (f.context m).getD (contextOf m rest)

/-- The pool whose host lock a frame holds. -/
def Frame.holdsHost : Frame → Option Nat
  | .scope p _ pc => if pc.role = some .host then some p else none
  | _ => none

/-- The scope whose call a frame is. -/
def Frame.scopeId : Frame → Option Nat
  | .scope _ s _ => some s
  | _ => none

/-- The frame stands for a call of a method of pool {lit}`p`. -/
def Frame.isCall (p : Nat) : Frame → Bool
  | .callEnd q | .callDone q _ => p = q
  | _ => false

/-- The frame stands for a call of {lit}`spawn` on scope {lit}`s`. -/
def Frame.isSpawn (s : Nat) : Frame → Bool
  | .spawnEnd q | .spawnDone q _ => s = q
  | _ => false

/-! ## Assertions of the frames -/

/-- A pool that was allocated. -/
def Mem.PoolId (m : Mem) (p : Nat) : Prop := 0 < p ∧ p < m.nextPool

@[simp] theorem Mem.modPool_poolId (m : Mem) (p q : Nat) (f : ThreadPoolInner → ThreadPoolInner) :
    (m.modPool p f).PoolId q ↔ m.PoolId q := Iff.rfl

@[simp] theorem Mem.modScope_poolId (m : Mem) (s q : Nat) (f : Scope → Scope) :
    (m.modScope s f).PoolId q ↔ m.PoolId q := Iff.rfl

/-- Thread {lit}`t` builds the pool or takes it down, and nobody can use it. -/
structure ThreadPoolInner.Managed (inner : ThreadPoolInner) (t : Tid) : Prop where
  manager : inner.manager = some t
  usable : inner.usable = false
  callers : inner.callers = []

/-- The worker is one whose owner side belongs to thread {lit}`t`. -/
def WorkerRef.Owned (t : Tid) (m : Mem) (rest : List Frame) : WorkerRef → Prop
  | .slot p i => m.PoolId p ∧ contextOf m rest = ⟨p, i⟩
  | .helper p s => m.PoolId p ∧ (m.scopes s).caller = t ∧ ∃ pc, .scope p s pc ∈ rest

/-- How far the constructor of a pool is. -/
def NewPc.Built (inner : ThreadPoolInner) : NewPc → Prop
  | .worker i | .spawn i =>
      i < inner.totalWorker ∧ (∀ k, k < i → inner.workers k ≠ none) ∧
        ∀ k, inner.spawned k = true ↔ k < i
  | .write i =>
      i < inner.totalWorker ∧ (∀ k, k < i → inner.workers k ≠ none) ∧
        ∀ k, inner.spawned k = true ↔ k ≤ i
  | .host =>
      (∀ k, k < inner.totalWorker → inner.workers k ≠ none) ∧
        ∀ k, inner.spawned k = true ↔ k < inner.totalWorker
  | .initStore =>
      (∀ k, k ≤ inner.totalWorker → inner.workers k ≠ none) ∧
        ∀ k, inner.spawned k = true ↔ k < inner.totalWorker
  | .failed => True

/-- How far {lit}`shutdown` is. -/
def ShutdownPc.Joined (inner : ThreadPoolInner) (handles : Nat) : ShutdownPc → Prop
  | .storeRunning | .unpark _ => True
  | .join k => ∀ i, i < k → inner.exited i = true
  | _ => ∀ i, i < handles → inner.exited i = true

/-- Every worker that was spawned has ended. -/
def ThreadPoolInner.Quiescent (inner : ThreadPoolInner) : Prop :=
  ∀ k, inner.spawned k = true → inner.exited k = true

/-- What a frame on the stack of thread {lit}`t` knows of the pools. -/
def Frame.Fits (t : Tid) (m : Mem) (rest : List Frame) : Frame → Prop
  | .ret _ => ∀ p, rest.head? = some (.dropPool p .shutdown) → (m.pools p).Quiescent
  | .callEnd p | .callDone p _ => m.PoolId p
  | .spawnEnd s | .spawnDone s _ => s < m.nextScope
  | .enqueue p _ | .enqueueWait p _ | .wake p _ _ =>
      m.PoolId p ∧ ∀ s, rest.head? = some (.spawnEnd s) → (m.scopes s).root = p
  | .spawn p s _ | .spawnWait p s _ => m.PoolId p ∧ s < m.nextScope ∧ (m.scopes s).root = p
  | .scope p s pc =>
      m.PoolId p ∧ s < m.nextScope ∧ (m.scopes s).root = p ∧ (m.scopes s).caller = t ∧
        (∀ c, pc.previous = some c → c = contextOf m rest) ∧
        (pc.role = some .host → (m.pools p).hostOwner.locked = some t) ∧
        (pc.role = some .inside → (contextOf m rest).pool = p) ∧
        (∀ g ∈ rest, g.scopeId ≠ some s) ∧
        (pc.role = some .host → ∀ g ∈ rest, g.holdsHost ≠ some p)
  | .runUntil w _ _ _ | .pop w _ | .steal w _ _ => w.Owned t m rest
  | .loop p i _ _ pc =>
      t = .worker p i ∧ (m.pools p).exited i = false ∧
        (pc ≠ .unborn → m.PoolId p ∧ (m.pools p).spawned i = true) ∧
        (pc = .setCtx ∨ pc.seated = true → (m.pools p).initCompleted = true)
  | .newPool p pc =>
      m.PoolId p ∧ (m.pools p).Managed t ∧ (m.pools p).initCompleted = false ∧
        pc.Built (m.pools p)
  | .shutdown p handles _ pc =>
      m.PoolId p ∧ (m.pools p).Managed t ∧
        (∀ k, (m.pools p).spawned k = true → k < handles) ∧ pc.Joined (m.pools p) handles
  | .dropPool p pc =>
      m.PoolId p ∧ (m.pools p).Managed t ∧ (m.pools p).initCompleted = true ∧
        (pc ≠ .shutdown → (m.pools p).Quiescent)
  | _ => True

/-- What holds of a pool at any time. -/
structure ThreadPoolInner.Ok (allocated : Prop) (inner : ThreadPoolInner) : Prop where
  total : allocated → 0 < inner.totalWorker
  usable : inner.usable = true → allocated ∧ inner.manager = none ∧ inner.initCompleted = true
  callers : inner.callers ≠ [] → inner.usable = true
  spawned : ∀ k, inner.spawned k = true → k < inner.totalWorker
  workers : inner.initCompleted = true → ∀ k, k < inner.totalWorker → inner.spawned k = true
  slots : inner.initCompleted = true → ∀ i, i ≤ inner.totalWorker → inner.workers i = none →
    inner.usable = false ∧ inner.Quiescent

/-- What holds of all pools and of the borrows of scopes at any time. -/
structure PoolsOk (m : Mem) : Prop where
  pos : 0 < m.nextPool
  blank : ∀ p, ¬ m.PoolId p → (m.pools p).totalWorker = 0
  pools : ∀ p, (m.pools p).Ok (m.PoolId p)
  opened : ∀ s, (m.scopes s).opened = true → s < m.nextScope ∧ m.PoolId (m.scopes s).root
  spawners : ∀ s, (m.scopes s).spawners ≠ [] → (m.scopes s).opened = true

/-- What holds of thread {lit}`t` at any time. -/
structure Placed (t : Tid) (m : Mem) (th : Thread) : Prop where
  context : th.ctx = contextOf m th.stack
  fits : Everywhere (Frame.Fits t m) th.stack
  callers : ∀ p, (m.pools p).callers.count t = th.stack.countP (Frame.isCall p)
  spawners : ∀ s, (m.scopes s).spawners.count t = th.stack.countP (Frame.isSpawn s)
  opened : ∀ s, (m.scopes s).opened = true → (m.scopes s).caller = t →
    .user (.closure s) ∈ th.stack

/-! ## Steps that touch none of it -/

/-- The part of a pool this module is about. -/
def ThreadPoolInner.life (inner : ThreadPoolInner) : ThreadPoolInner :=
  { inner with sleepers := .new, isRunning := true, dropped := false }

/-- The part of a scope this module is about. -/
def Scope.life (scope : Scope) : Scope :=
  { scope with
    latch := ⟨1, false⟩
    panic := ⟨none, none⟩
    tickets := []
    iterPanic := none
    passed := false
    ended := false }

/-- Two memories agree on the part this module is about. -/
structure Mem.SameLife (m m' : Mem) : Prop where
  pools : ∀ p, (m'.pools p).life = (m.pools p).life
  scopes : ∀ s, (m'.scopes s).life = (m.scopes s).life
  nextPool : m'.nextPool = m.nextPool
  nextScope : m'.nextScope = m.nextScope

namespace Mem.SameLife

variable {m m' m'' : Mem} {p s j : Nat}

@[refl] theorem refl (m : Mem) : m.SameLife m :=
  ⟨fun _ => rfl, fun _ => rfl, rfl, rfl⟩

theorem trans (h : m.SameLife m') (h' : m'.SameLife m'') : m.SameLife m'' :=
  ⟨fun p => (h'.pools p).trans (h.pools p), fun s => (h'.scopes s).trans (h.scopes s),
    h'.nextPool.trans h.nextPool, h'.nextScope.trans h.nextScope⟩

theorem modPool {f : ThreadPoolInner → ThreadPoolInner}
    (hf : ∀ inner : ThreadPoolInner, (f inner).life = inner.life) : m.SameLife (m.modPool p f) := by
  refine ⟨fun q => ?_, fun _ => rfl, rfl, rfl⟩
  rcases eq_or_ne q p with rfl | hq
  · simp [hf]
  · simp [hq]

theorem modScope {f : Scope → Scope} (hf : ∀ scope : Scope, (f scope).life = scope.life) :
    m.SameLife (m.modScope s f) := by
  refine ⟨fun _ => rfl, fun r => ?_, rfl, rfl⟩
  rcases eq_or_ne r s with rfl | hr
  · simp [hf]
  · simp [hr]

theorem setSleepers (b : QueueBatching Tid Nat) : m.SameLife (m.setSleepers p b) :=
  modPool fun _ => rfl

theorem modJob (f : Job → Job) : m.SameLife (m.modJob j f) := ⟨fun _ => rfl, fun _ => rfl, rfl, rfl⟩

theorem setToken (t : Tid) (b : Bool) : m.SameLife (m.setToken t b) :=
  ⟨fun _ => rfl, fun _ => rfl, rfl, rfl⟩

theorem setQueue (q : QueueId) (b : QueueBatching Tid Nat) : m.SameLife (m.setQueue q b) :=
  ⟨fun _ => rfl, fun _ => rfl, rfl, rfl⟩

theorem setDeque (d : DequeId) (q : WorkerQueue Nat) : m.SameLife (m.setDeque d q) :=
  ⟨fun _ => rfl, fun _ => rfl, rfl, rfl⟩

theorem newJob (m : Mem) (s : Nat) : m.SameLife (newJob m s) :=
  (modScope (f := fun scope =>
    { scope with
      latch := { scope.latch with remaining := scope.latch.remaining + 1 }
      tickets := scope.tickets ++ [m.nextJob] }) fun _ => rfl).trans
    ⟨fun _ => rfl, fun _ => rfl, rfl, rfl⟩

theorem dropTicket (m : Mem) (s j : Nat) : m.SameLife (dropTicket m s j) :=
  (modScope (f := fun scope =>
    { scope with
      latch := { scope.latch with remaining := scope.latch.remaining - 1 }
      tickets := scope.tickets.erase j }) fun _ => rfl).trans (modJob _)

theorem newWorker {i : Nat} {h : acceptsCapacity (m.pools p).taskCapacity} :
    m.SameLife (newWorker m p i h) :=
  (setDeque _ _).trans (setQueue _ _)

end Mem.SameLife

section Projections

variable {m m' : Mem} (h : m.SameLife m')
include h

theorem Mem.SameLife.totalWorker (p : Nat) :
    (m'.pools p).totalWorker = (m.pools p).totalWorker :=
  (congrArg ThreadPoolInner.totalWorker (h.pools p) :)

theorem Mem.SameLife.workers (p : Nat) : (m'.pools p).workers = (m.pools p).workers :=
  (congrArg ThreadPoolInner.workers (h.pools p) :)

theorem Mem.SameLife.hostOwner (p : Nat) : (m'.pools p).hostOwner = (m.pools p).hostOwner :=
  (congrArg ThreadPoolInner.hostOwner (h.pools p) :)

theorem Mem.SameLife.initCompleted (p : Nat) :
    (m'.pools p).initCompleted = (m.pools p).initCompleted :=
  (congrArg ThreadPoolInner.initCompleted (h.pools p) :)

theorem Mem.SameLife.spawned (p : Nat) : (m'.pools p).spawned = (m.pools p).spawned :=
  (congrArg ThreadPoolInner.spawned (h.pools p) :)

theorem Mem.SameLife.exited (p : Nat) : (m'.pools p).exited = (m.pools p).exited :=
  (congrArg ThreadPoolInner.exited (h.pools p) :)

theorem Mem.SameLife.usable (p : Nat) : (m'.pools p).usable = (m.pools p).usable :=
  (congrArg ThreadPoolInner.usable (h.pools p) :)

theorem Mem.SameLife.manager (p : Nat) : (m'.pools p).manager = (m.pools p).manager :=
  (congrArg ThreadPoolInner.manager (h.pools p) :)

theorem Mem.SameLife.callers (p : Nat) : (m'.pools p).callers = (m.pools p).callers :=
  (congrArg ThreadPoolInner.callers (h.pools p) :)

theorem Mem.SameLife.root (s : Nat) : (m'.scopes s).root = (m.scopes s).root :=
  (congrArg Scope.root (h.scopes s) :)

theorem Mem.SameLife.caller (s : Nat) : (m'.scopes s).caller = (m.scopes s).caller :=
  (congrArg Scope.caller (h.scopes s) :)

theorem Mem.SameLife.openedEq (s : Nat) : (m'.scopes s).opened = (m.scopes s).opened :=
  (congrArg Scope.opened (h.scopes s) :)

theorem Mem.SameLife.spawners (s : Nat) : (m'.scopes s).spawners = (m.scopes s).spawners :=
  (congrArg Scope.spawners (h.scopes s) :)

theorem Mem.SameLife.poolId (p : Nat) : m'.PoolId p ↔ m.PoolId p := by
  simp only [Mem.PoolId, h.nextPool]

end Projections

section Silent

variable {t : Tid} {m m' : Mem} {ctx : Context} {fs : List Frame} {p s j : Nat}

theorem wakeStep_sameLife {pc : WakePc} (h : wakeStep t m p j pc = some (m', fs)) :
    m.SameLife m' := by
  cases pc <;> simp only [wakeStep] at h <;> (try split at h) <;> cases h
  · exact .setSleepers _
  · exact (Mem.SameLife.setSleepers _).trans (.modJob _)
  · exact .setSleepers _
  · exact .setSleepers _
  · exact (Mem.SameLife.setSleepers _).trans (.modJob _)
  · exact (Mem.SameLife.setToken _ _).trans (.modJob _)

theorem spawnStep_sameLife {pc : SpawnPc} (h : spawnStep m ctx p s pc = some (m', fs)) :
    m.SameLife m' := by
  cases pc <;> simp only [spawnStep] at h <;> (try split at h) <;> cases h
  · exact .newJob m s
  · exact .refl m

theorem taskStep_sameLife {pc : TaskPc} (h : taskStep t m j pc = some (m', fs)) :
    m.SameLife m' := by
  cases pc <;> simp only [taskStep] at h <;> (try split at h) <;> cases h <;>
    first
      | exact .refl m
      | exact .modJob _
      | exact .modScope fun _ => rfl
      | exact .dropTicket m _ j

theorem dropJobsStep_sameLife {js : List Nat} (h : dropJobsStep m js = (m', fs)) :
    m.SameLife m' := by
  cases js <;> simp only [dropJobsStep] at h <;> cases h
  · exact .refl m
  · split
    · exact .modJob _
    · exact (Mem.SameLife.dropTicket m _ _).trans (.modJob _)

theorem inboxesStep_sameLife {caller index : Nat} {pc : InboxPc}
    (h : inboxesStep t m p s caller index pc = some (m', fs)) : m.SameLife m' := by
  cases pc <;> simp only [inboxesStep] at h <;> (try split at h) <;> cases h <;>
    first | exact .refl m | exact .setQueue _ _

theorem assignStep_sameLife {caller index : Nat} {pc : AssignPc}
    (h : assignStep m p s caller index pc = some (m', fs)) : m.SameLife m' := by
  cases pc <;> simp only [assignStep] at h <;> cases h
  · exact .refl m
  · exact .newJob m s
  · exact .setQueue _ _

theorem publishStep_sameLife {pc : PublishPc} (h : publishStep t m p s pc = some (m', fs)) :
    m.SameLife m' := by
  rcases pc with _ | _ | ⟨kept, _ | ⟨i, rest⟩⟩ | _ | _ | _ <;>
    simp only [publishStep] at h <;> (try split at h) <;> cases h <;>
    first
      | exact .refl m
      | exact .setToken _ _
      | exact .setSleepers _
      | exact (Mem.SameLife.setSleepers _).trans (.modScope fun _ => rfl)

theorem sleepStep_sameLife {i : Nat} {spurious : Bool} {pc : SleepPc}
    (h : sleepStep t spurious m p i pc = some (m', fs)) : m.SameLife m' := by
  cases pc <;> simp only [sleepStep] at h <;> (repeat' split at h) <;> cases h <;>
    first | exact .refl m | exact .setToken _ _ | exact .setSleepers _

theorem dropPoolStep_sameLife {pc : DropPc} (h : dropPoolStep m p pc = some (m', fs)) :
    m.SameLife m' := by
  cases pc <;> simp only [dropPoolStep] at h <;> cases h
  · exact .setQueue _ _
  · exact .modPool fun _ => rfl

end Silent

/-! ## What one step can do to one pool -/

/-- What a step of frame {lit}`f` can make of pool {lit}`p`, where {lit}`next` is
the id of the next pool. -/
inductive PoolStep (next : Nat) (f : Frame) (p : Nat) (inner : ThreadPoolInner) :
    ThreadPoolInner → Prop
  | same : PoolStep next f p inner inner
  | calls (hf : f.tag = .user ∨ f.tag = .callDone) (callers : List Tid) (usable : Bool)
      (manager : Option Tid) (hu : usable = true → inner.usable = true) :
      PoolStep next f p inner { inner with callers := callers, usable := usable, manager := manager }
  | fresh (hf : f.tag = .user) (hp : p = next) (totalWorker taskCapacity : Nat)
      (manager : Option Tid) :
      PoolStep next f p inner (.new totalWorker taskCapacity manager)
  | sleepers (hf : f.tag = .wake ∨ f.tag = .publish ∨ f.tag = .sleep) (b : QueueBatching Tid Nat) :
      PoolStep next f p inner { inner with sleepers := b }
  | host (hf : f.tag = .scope) (lock : SpinLock Unit) :
      PoolStep next f p inner { inner with hostOwner := lock }
  | exit (hf : f.tag = .loop) (exited : Nat → Bool) :
      PoolStep next f p inner { inner with exited := exited }
  | drop (hf : f.tag = .dropPool) (dropped : Bool) :
      PoolStep next f p inner { inner with dropped := dropped }
  | spawned (hf : ∃ i, f = .newPool p (.spawn i)) (spawned : Nat → Bool) :
      PoolStep next f p inner { inner with spawned := spawned }
  | written (i : Nat) (hf : f = .newPool p (.write i) ∨ f = .newPool p .host ∧ i = inner.hostIndex)
      (thread : Tid) :
      PoolStep next f p inner
        { inner with workers := Function.update inner.workers i (some thread) }
  | built (hf : f = .newPool p .initStore) :
      PoolStep next f p inner { inner with initCompleted := true, usable := true, manager := none }
  | stopped (hf : ∃ handles count, f = .shutdown p handles count .storeRunning) :
      PoolStep next f p inner { inner with isRunning := false }
  | dropSlot (k : Nat) (hf : ∃ handles count, f = .shutdown p handles count (.dropTasks k) ∧ k < count) :
      PoolStep next f p inner { inner with workers := Function.update inner.workers k none }

section PoolSteps

variable {t : Tid} {m m₁ m' : Mem} {ctx ctx' : Context} {f : Frame} {fs : List Frame} {p : Nat}
  {next : Nat}

/-- A step that changes one pool. -/
theorem PoolStep.modPool {q : Nat} {change : ThreadPoolInner → ThreadPoolInner}
    (hpools : m₁.pools = m.pools)
    (h : PoolStep next f q (m.pools q) (change (m.pools q))) :
    PoolStep next f p (m.pools p) ((m₁.modPool q change).pools p) := by
  rw [Mem.modPool_pools, hpools]
  rcases eq_or_ne p q with rfl | hq
  · simpa using h
  · simpa [hq] using .same

/-- User code. -/
theorem userStep_pool {u : UserCode} {a : UserAct} (hs : userStep t m u a = some (m', fs)) :
    PoolStep m.nextPool (.user u) p (m.pools p) (m'.pools p) := by
  have henter : ∀ q, PoolStep m.nextPool (.user u) p (m.pools p) ((m.modPool q fun inner =>
      { inner with callers := t :: inner.callers }).pools p) :=
    fun q => .modPool rfl (.calls (.inl rfl) _ _ _ id)
  have hcall : ∀ fs', userCall t m a = some (m', fs') →
      PoolStep m.nextPool (.user u) p (m.pools p) (m'.pools p) := by
    intro fs' hc
    cases a <;> simp only [userCall, enterScope] at hc <;> (try split at hc) <;> cases hc
    · exact henter _
    · exact henter _
    · exact henter _
    · exact .same
    · rcases eq_or_ne p m.nextPool with rfl | hp
      · simpa using .fresh rfl rfl _ _ _
      · simpa [hp] using .same
    · exact .same
    · exact .modPool rfl (.calls (.inl rfl) _ _ _ (by simp))
  have hend : ∀ o, userEnd m u o = some (m', fs) →
      PoolStep m.nextPool (.user u) p (m.pools p) (m'.pools p) := by
    intro o he
    unfold userEnd at he
    split at he <;> (try split at he) <;> cases he <;> exact .same
  unfold userStep at hs
  split at hs
  · split at hs <;> exact hend _ hs
  · split at hs
    · exact hend _ hs
    · cases hs
  · exact hend _ hs
  · split at hs
    · rename_i hc
      cases hs
      exact hcall _ hc
    · cases hs

/-- What one step of a frame can do to one pool. -/
theorem Frame.step_pool {c : Choice} (hs : f.step t c m ctx = some (m', ctx', fs)) (p : Nat) :
    PoolStep m.nextPool f p (m.pools p) (m'.pools p) := by
  have hsleepers : ∀ (q : Nat) (b : QueueBatching Tid Nat),
      f.tag = .wake ∨ f.tag = .publish ∨ f.tag = .sleep →
        PoolStep m.nextPool f p (m.pools p) ((m.setSleepers q b).pools p) :=
    fun q b hf => .modPool rfl (.sleepers hf b)
  cases f <;> simp only [Frame.step, keep_eq, keepMem_eq] at hs
  case user u =>
    split at hs
    · exact userStep_pool (keep_eq.mp hs).1
    · cases hs
  case callDone => cases hs; exact .modPool rfl (.calls (.inr rfl) _ _ _ id)
  case spawnDone => cases hs; exact .same
  case wake pc =>
    obtain ⟨hs, rfl⟩ := hs
    cases pc <;> simp only [wakeStep] at hs <;> (try split at hs) <;> cases hs <;>
      first | exact .same | exact hsleepers _ _ (.inl rfl)
  case spawn pc =>
    obtain ⟨hs, rfl⟩ := hs
    cases pc <;> simp only [spawnStep] at hs <;> (try split at hs) <;> cases hs <;> exact .same
  case scope pc =>
    cases pc <;> simp only [scopeStep] at hs <;> (repeat' split at hs) <;> cases hs <;>
      first | exact .same | exact .modPool rfl (.host rfl _)
  case runUntil => obtain ⟨-, rfl, rfl⟩ := hs; exact .same
  case steal => obtain ⟨-, rfl, rfl⟩ := hs; exact .same
  case task pc =>
    obtain ⟨hs, rfl⟩ := hs
    cases pc <;> simp only [taskStep] at hs <;> (try split at hs) <;> cases hs <;> exact .same
  case batch => obtain ⟨-, rfl, rfl⟩ := hs; exact .same
  case inboxes pc =>
    obtain ⟨hs, rfl⟩ := hs
    cases pc <;> simp only [inboxesStep] at hs <;> (try split at hs) <;> cases hs <;> exact .same
  case assign pc =>
    obtain ⟨hs, rfl⟩ := hs
    cases pc <;> simp only [assignStep] at hs <;> cases hs <;> exact .same
  case publish pc =>
    obtain ⟨hs, rfl⟩ := hs
    rcases pc with _ | _ | ⟨kept, _ | ⟨i, rest'⟩⟩ | _ | _ | _ <;>
      simp only [publishStep] at hs <;> (try split at hs) <;> cases hs <;>
      first | exact .same | exact hsleepers _ _ (.inr (.inl rfl))
  case loop pc =>
    cases pc <;> simp only [loopStep] at hs <;> (try split at hs) <;> cases hs <;>
      first | exact .same | exact .modPool rfl (.exit rfl _)
  case sleep pc =>
    obtain ⟨hs, rfl⟩ := hs
    cases pc <;> simp only [sleepStep] at hs <;> (repeat' split at hs) <;> cases hs <;>
      first | exact .same | exact hsleepers _ _ (.inr (.inr rfl))
  case newPool q pc =>
    obtain ⟨hs, rfl⟩ := hs
    cases pc <;> simp only [newPoolStep] at hs <;> (repeat' split at hs) <;> cases hs <;>
      first
        | exact .same
        | exact .modPool rfl (.spawned ⟨_, rfl⟩ _)
        | exact .modPool rfl (.written _ (.inl rfl) _)
        | exact .modPool rfl (.written _ (.inr ⟨rfl, rfl⟩) _)
        | exact .modPool rfl (.built rfl)
  case shutdown q handles count pc =>
    obtain ⟨hs, rfl⟩ := hs
    cases pc <;> simp only [shutdownStep] at hs <;> (repeat' split at hs) <;> cases hs <;>
      first
        | exact .same
        | exact .modPool rfl (.stopped ⟨_, _, rfl⟩)
        | exact .modPool rfl (.dropSlot _ ⟨_, _, rfl, ‹_›⟩)
  case dropPool pc =>
    obtain ⟨hs, rfl⟩ := hs
    cases pc <;> simp only [dropPoolStep] at hs <;> cases hs <;>
      first | exact .same | exact .modPool rfl (.drop rfl _)
  case dropJobs js =>
    obtain ⟨hs, rfl⟩ := hs
    cases js <;> simp only [dropJobsStep] at hs <;> cases hs
    · exact .same
    · split <;> exact .same
  case dropEnv => cases hs; exact .same
  all_goals cases hs

end PoolSteps

/-! ## Steps that touch it -/

/-- A change any thread {lit}`t` may make where it finds things as stated. -/
inductive CallOp (t : Tid) (m : Mem) : Mem → Prop
  | lockHost (p : Nat) (h : (m.pools p).hostOwner.locked = none) :
      CallOp t m (m.modPool p fun inner =>
        { inner with hostOwner := { inner.hostOwner with locked := some t } })
  | openScope (s : Nat) (hs : s < m.nextScope) (hp : m.PoolId (m.scopes s).root)
      (hc : (m.scopes s).caller = t) :
      CallOp t m (m.modScope s fun scope => { scope with opened := true })
  | closeScope (s : Nat) (hc : (m.scopes s).caller = t) (h : (m.scopes s).spawners = []) :
      CallOp t m (m.modScope s fun scope => { scope with opened := false })
  | enter (p : Nat) (h : (m.pools p).usable = true) :
      CallOp t m (m.modPool p fun inner => { inner with callers := t :: inner.callers })
  | leave (p : Nat) :
      CallOp t m (m.modPool p fun inner => { inner with callers := inner.callers.erase t })
  | enterScope (p : Nat) (isBatch : Bool) (h : (m.pools p).usable = true) :
      CallOp t m
        { m.modPool p fun inner => { inner with callers := t :: inner.callers } with
          scopes := Function.update m.scopes m.nextScope (.new p isBatch t)
          nextScope := m.nextScope + 1 }
  | borrow (s : Nat) (h : (m.scopes s).opened = true) :
      CallOp t m (m.modScope s fun scope => { scope with spawners := t :: scope.spawners })
  | giveBack (s : Nat) :
      CallOp t m (m.modScope s fun scope => { scope with spawners := scope.spawners.erase t })
  | newPool (totalWorker taskCapacity : Nat) (h : 0 < totalWorker) :
      CallOp t m
        { m with
          pools := Function.update m.pools m.nextPool (.new totalWorker taskCapacity (some t))
          nextPool := m.nextPool + 1 }
  | dropPool (p : Nat) (h : (m.pools p).usable = true) (hc : (m.pools p).callers = []) :
      CallOp t m (m.modPool p fun inner => { inner with usable := false, manager := some t })

/-- A change only the thread {lit}`t` may make that holds a lock, builds a pool or
takes it down, or ends. -/
inductive OwnerOp (t : Tid) (m : Mem) : Mem → Prop
  | unlockHost (p : Nat) (h : (m.pools p).hostOwner.locked = some t) :
      OwnerOp t m (m.modPool p fun inner =>
        { inner with hostOwner := { inner.hostOwner with locked := none } })
  | exit (p i : Nat) (h : t = .worker p i) :
      OwnerOp t m (m.modPool p fun inner =>
        { inner with exited := Function.update inner.exited i true })
  | spawnWorker (p i : Nat) (h : (m.pools p).Managed t)
      (hinit : (m.pools p).initCompleted = false) (hi : i < (m.pools p).totalWorker) :
      OwnerOp t m (m.modPool p fun inner =>
        { inner with spawned := Function.update inner.spawned i true })
  | writeSlot (p i : Nat) (thread : Tid) (h : (m.pools p).Managed t)
      (hinit : (m.pools p).initCompleted = false) :
      OwnerOp t m (m.modPool p fun inner =>
        { inner with workers := Function.update inner.workers i (some thread) })
  | initStore (p : Nat) (hp : m.PoolId p) (h : (m.pools p).Managed t)
      (hbuilt : NewPc.initStore.Built (m.pools p)) :
      OwnerOp t m (m.modPool p fun inner =>
        { inner with initCompleted := true, usable := true, manager := none })
  | dropSlot (p i : Nat) (h : (m.pools p).Managed t) (hq : (m.pools p).Quiescent) :
      OwnerOp t m (m.modPool p fun inner =>
        { inner with workers := Function.update inner.workers i none })

/-- A step changes locks, calls and pools in one of these ways, or not at all. -/
inductive LifeStep (t : Tid) (m : Mem) : Mem → Prop
  | same {m' : Mem} (h : m.SameLife m') : LifeStep t m m'
  | call {m₁ m' : Mem} (h : CallOp t m m₁) (h' : m₁.SameLife m') : LifeStep t m m'
  | own {m₁ m' : Mem} (h : OwnerOp t m m₁) (h' : m₁.SameLife m') : LifeStep t m m'

section Steps

variable {t : Tid} {m m' : Mem} {ctx ctx' : Context} {f : Frame} {fs rest : List Frame} {p s : Nat}

theorem ShutdownPc.Joined.quiescent {handles k : Nat} {inner : ThreadPoolInner}
    (hlt : ∀ k, inner.spawned k = true → k < handles)
    (h : (ShutdownPc.dropTasks k).Joined inner handles) : inner.Quiescent :=
  fun i hi => h i (hlt i hi)

/-- {lit}`ThreadPool::scope`. -/
theorem scopeStep_life {spurious : Bool} {pc : ScopePc} (hf : (Frame.scope p s pc).Fits t m rest)
    (h : scopeStep t spurious m ctx p s pc = some (m', ctx', fs)) : LifeStep t m m' := by
  obtain ⟨hp, hs, hroot, hcaller, -, hlock, -⟩ := hf
  cases pc <;> simp only [scopeStep] at h <;> (repeat' split at h) <;> cases h <;>
    first
      | exact .same (.refl m)
      | exact .same (.modScope fun _ => rfl)
      | exact .same ((Mem.SameLife.setDeque _ _).trans (.setQueue _ _))
      | exact .call (.lockHost p ‹_›) (.refl _)
      | exact .call (.openScope s hs (hroot ▸ hp) hcaller) (.refl _)
      | exact .own (.unlockHost p (hlock rfl)) (.refl _)

/-- {lit}`Worker::update`. -/
theorem loopStep_life {i tick rounds : Nat} {pc : LoopPc}
    (hf : (Frame.loop p i tick rounds pc).Fits t m rest)
    (h : loopStep m ctx p i tick rounds pc = some (m', ctx', fs)) : LifeStep t m m' := by
  cases pc <;> simp only [loopStep] at h <;> (try split at h) <;> cases h <;>
    first
      | exact .same (.refl m)
      | exact .own (.exit p i hf.1) (.refl _)

/-- {lit}`ThreadPool::new`. -/
theorem newPoolStep_life {spurious : Bool} {pc : NewPc} (hf : (Frame.newPool p pc).Fits t m rest)
    (h : newPoolStep t spurious m p pc = some (m', fs)) : LifeStep t m m' := by
  obtain ⟨hp, hman, hinit, hbuilt⟩ := hf
  cases pc <;> simp only [newPoolStep] at h <;> (repeat' split at h) <;> cases h
  · exact .same .newWorker
  · exact .same (.refl m)
  · exact .own (.spawnWorker p _ hman hinit hbuilt.1) (.refl _)
  · exact .own (.writeSlot p _ _ hman hinit) (.refl _)
  · exact .own (.writeSlot p _ _ hman hinit) (.refl _)
  · refine .own (.writeSlot p (m.pools p).hostIndex t hman hinit) ⟨fun q => rfl, fun _ => rfl, rfl, rfl⟩
  · exact .own (.initStore p hp hman hbuilt) (.refl _)

/-- {lit}`shutdown`. -/
theorem shutdownStep_life {handles workerCount : Nat} {pc : ShutdownPc}
    (hf : (Frame.shutdown p handles workerCount pc).Fits t m rest)
    (h : shutdownStep m p handles workerCount pc = some (m', fs)) : LifeStep t m m' := by
  obtain ⟨hp, hman, hlt, hjoin⟩ := hf
  cases pc <;> simp only [shutdownStep] at h <;> (repeat' split at h) <;> cases h <;>
    first
      | exact .same (.refl m)
      | exact .same (.modPool fun _ => rfl)
      | exact .same (.setToken _ _)
      | exact .same (.setQueue _ _)
      | exact .own (.dropSlot p _ hman (ShutdownPc.Joined.quiescent hlt hjoin))
          ⟨fun q => rfl, fun _ => rfl, rfl, rfl⟩

/-- User code. -/
theorem userStep_life {u : UserCode} {a : UserAct} (hl : Linked t (.user u :: rest))
    (hrest : Everywhere (Frame.Fits t m) rest) (h : userStep t m u a = some (m', fs)) :
    LifeStep t m m' := by
  have hcall : ∀ fs', userCall t m a = some (m', fs') → LifeStep t m m' := by
    intro fs' hc
    cases a <;> simp only [userCall, XynokConcurrency.enterScope] at hc <;> (try split at hc) <;>
      cases hc
    · exact .call (.enter _ ‹_›) ⟨fun _ => rfl, fun _ => rfl, rfl, rfl⟩
    · exact .call (.enterScope _ _ ‹_›) (.refl _)
    · exact .call (.enterScope _ _ ‹_›) (.refl _)
    · exact .call (.borrow _ ‹_›) (.refl _)
    · exact .call (.newPool _ _ (by simp)) ⟨fun _ => rfl, fun _ => rfl, rfl, rfl⟩
    · exact .same (.refl m)
    · rename_i hd
      exact .call (.dropPool _ hd.1 hd.2) (.refl _)
  have hend : ∀ o, userEnd m u o = some (m', fs) → LifeStep t m m' := by
    intro o he
    unfold userEnd at he
    split at he <;> (try split at he) <;> cases he
    · exact .same (.refl m)
    · exact .same (.modJob _)
    · rename_i s hsp
      cases rest with
      | nil => exact hl.1.elim
      | cons g rest =>
          obtain ⟨p, role, previous, rfl⟩ := hl.1
          exact .call (.closeScope s hrest.1.2.2.2.1 hsp) (.refl _)
    · exact .same (.refl m)
    · exact .same (.modScope fun _ => rfl)
    · exact .same (.refl m)
  unfold userStep at h
  split at h
  · split at h <;> exact hend _ h
  · split at h
    · exact hend _ h
    · cases h
  · exact hend _ h
  · split at h
    · rename_i hc
      cases h
      exact hcall _ hc
    · cases h

/-- Every step of a frame changes locks, calls and pools in one of the listed
ways. -/
theorem Frame.step_life {c : Choice} (hl : Linked t (f :: rest))
    (hfit : Everywhere (Frame.Fits t m) (f :: rest))
    (h : f.step t c m ctx = some (m', ctx', fs)) : LifeStep t m m' := by
  cases f <;> simp only [Frame.step, keep_eq, keepMem_eq] at h
  case user u =>
    split at h
    · exact userStep_life hl hfit.2 (keep_eq.mp h).1
    · cases h
  case callDone => cases h; exact .call (.leave _) (.refl _)
  case spawnDone => cases h; exact .call (.giveBack _) (.refl _)
  case wake => exact .same (wakeStep_sameLife h.1)
  case spawn => exact .same (spawnStep_sameLife h.1)
  case scope => exact scopeStep_life hfit.1 h
  case runUntil => exact .same (h.2.1 ▸ .refl m)
  case steal => exact .same (h.2.1 ▸ .refl m)
  case task => exact .same (taskStep_sameLife h.1)
  case batch => exact .same (h.2.1 ▸ .refl m)
  case inboxes => exact .same (inboxesStep_sameLife h.1)
  case assign => exact .same (assignStep_sameLife h.1)
  case publish => exact .same (publishStep_sameLife h.1)
  case loop => exact loopStep_life hfit.1 h
  case sleep => exact .same (sleepStep_sameLife h.1)
  case newPool => exact newPoolStep_life hfit.1 h.1
  case shutdown => exact shutdownStep_life hfit.1 h.1
  case dropPool => exact .same (dropPoolStep_sameLife h.1)
  case dropJobs => exact .same (dropJobsStep_sameLife (Option.some.inj h.1))
  case dropEnv => cases h; exact .same (.modJob _)
  all_goals cases h

end Steps

/-! ## All pools stay in order -/

section PoolsOk

variable {t : Tid} {m m' : Mem} {p s : Nat}

/-- Steps that touch no lock, call or pool. -/
theorem PoolsOk.sameLife (h : PoolsOk m) (hs : m.SameLife m') : PoolsOk m' := by
  constructor
  · rw [hs.nextPool]
    exact h.pos
  · intro p
    rw [hs.poolId, hs.totalWorker]
    exact h.blank p
  · intro p
    have hp := h.pools p
    constructor
    · rw [hs.totalWorker, hs.poolId]
      exact hp.total
    · rw [hs.usable, hs.manager, hs.initCompleted, hs.poolId]
      exact hp.usable
    · rw [hs.callers, hs.usable]
      exact hp.callers
    · rw [hs.spawned, hs.totalWorker]
      exact hp.spawned
    · rw [hs.initCompleted, hs.totalWorker, hs.spawned]
      exact hp.workers
    · rw [hs.initCompleted, hs.totalWorker, hs.workers, hs.usable, ThreadPoolInner.Quiescent,
        hs.spawned, hs.exited]
      exact hp.slots
  · intro s
    rw [hs.openedEq, hs.nextScope, hs.root, hs.poolId]
    exact h.opened s
  · intro s
    rw [hs.openedEq, hs.spawners]
    exact h.spawners s

/-- A change of one pool. -/
theorem PoolsOk.modPool {f : ThreadPoolInner → ThreadPoolInner} (h : PoolsOk m)
    (htotal : (f (m.pools p)).totalWorker = (m.pools p).totalWorker)
    (hf : (f (m.pools p)).Ok (m.PoolId p)) : PoolsOk (m.modPool p f) := by
  refine ⟨h.pos, fun q hq => ?_, fun q => ?_, h.opened, h.spawners⟩
  · rcases eq_or_ne q p with rfl | hne
    · simpa using htotal.trans (h.blank q hq)
    · simpa [hne] using h.blank q hq
  · rcases eq_or_ne q p with rfl | hq
    · simpa using hf
    · simpa [hq] using h.pools q

/-- A change of one scope's borrows. -/
theorem PoolsOk.modScope {f : Scope → Scope} (h : PoolsOk m)
    (hopened : (f (m.scopes s)).opened = true →
      s < m.nextScope ∧ m.PoolId (f (m.scopes s)).root)
    (hspawners : (f (m.scopes s)).spawners ≠ [] → (f (m.scopes s)).opened = true) :
    PoolsOk (m.modScope s f) := by
  refine ⟨h.pos, h.blank, h.pools, fun r => ?_, fun r => ?_⟩
  · rcases eq_or_ne r s with rfl | hr
    · simpa using hopened
    · simpa [hr] using h.opened r
  · rcases eq_or_ne r s with rfl | hr
    · simpa using hspawners
    · simpa [hr] using h.spawners r

theorem update_true {b : Nat → Bool} {i k : Nat} (h : b k = true) :
    Function.update b i true k = true := by
  rcases eq_or_ne k i with rfl | hk
  · simp
  · simpa [hk] using h

/-- A change of locks and calls keeps all pools in order. -/
theorem PoolsOk.callOp (h : PoolsOk m) (ho : CallOp t m m') : PoolsOk m' := by
  cases ho with
  | lockHost p hfree => exact h.modPool rfl { h.pools p with }
  | openScope s hs hp hc => exact h.modScope (fun _ => ⟨hs, hp⟩) fun _ => rfl
  | closeScope s hc hsp => exact h.modScope (fun hf => by cases hf) fun hne => (hne hsp).elim
  | enter p hu =>
      exact h.modPool rfl { h.pools p with callers := fun _ => hu }
  | leave p =>
      refine h.modPool rfl { h.pools p with callers := fun hne => (h.pools p).callers ?_ }
      intro hnil
      exact hne (by simp [hnil])
  | enterScope p isBatch hu =>
      have hm := h.modPool (p := p)
        (f := fun inner => { inner with callers := t :: inner.callers }) rfl
        { h.pools p with callers := fun _ => hu }
      refine ⟨hm.pos, hm.blank, hm.pools, fun s ho => ?_, fun s hne => ?_⟩
      · rcases eq_or_ne s m.nextScope with rfl | hs
        · simp [Scope.new] at ho
        · simp only [Function.update_of_ne hs] at ho ⊢
          exact ⟨(h.opened s ho).1.trans (Nat.lt_succ_self _), (h.opened s ho).2⟩
      · rcases eq_or_ne s m.nextScope with rfl | hs
        · simp [Scope.new] at hne
        · simp only [Function.update_of_ne hs] at hne ⊢
          exact h.spawners s hne
  | borrow s ho => exact h.modScope (fun _ => h.opened s ho) fun _ => ho
  | giveBack s =>
      refine h.modScope (h.opened s) fun hne => h.spawners s fun hnil => hne (by simp [hnil])
  | newPool totalWorker taskCapacity hpos =>
      have hlt : ∀ q, q ≠ m.nextPool → (q < m.nextPool + 1 ↔ q < m.nextPool) := by omega
      refine ⟨Nat.succ_pos _, fun q hid => ?_, fun q => ?_, fun s ho => ?_, h.spawners⟩
      · have hq : q ≠ m.nextPool := by
          rintro rfl
          exact hid ⟨h.pos, Nat.lt_succ_self _⟩
        simp only [Function.update_of_ne hq]
        refine h.blank q fun hid' => hid ⟨hid'.1, hid'.2.trans (Nat.lt_succ_self _)⟩
      · rcases eq_or_ne q m.nextPool with rfl | hq
        · simp only [Function.update_self]
          constructor <;> simp [ThreadPoolInner.new, hpos]
        · simp only [Function.update_of_ne hq, Mem.PoolId, hlt q hq]
          exact h.pools q
      · exact ⟨(h.opened s ho).1, (h.opened s ho).2.1, (h.opened s ho).2.2.trans (Nat.lt_succ_self _)⟩
  | dropPool p hu hc =>
      refine h.modPool rfl
        { h.pools p with
          usable := fun hf => by cases hf
          callers := fun hne => (hne hc).elim
          slots := fun hinit i hi hnone => ⟨rfl, ((h.pools p).slots hinit i hi hnone).2⟩ }

/-- So does a change by the thread in charge. -/
theorem PoolsOk.ownerOp (h : PoolsOk m) (ho : OwnerOp t m m') : PoolsOk m' := by
  cases ho with
  | unlockHost p hlock => exact h.modPool rfl { h.pools p with }
  | exit p i ht =>
      refine h.modPool rfl { h.pools p with slots := fun hinit k hk hnone => ?_ }
      refine ⟨((h.pools p).slots hinit k hk hnone).1, fun j hj => ?_⟩
      exact update_true (((h.pools p).slots hinit k hk hnone).2 j hj)
  | spawnWorker p i hman hinit hi =>
      refine h.modPool rfl
        { h.pools p with
          spawned := fun k hk => ?_
          workers := fun hc => by simp [hinit] at hc
          slots := fun hc => by simp [hinit] at hc }
      rcases eq_or_ne k i with rfl | hne
      · exact hi
      · exact (h.pools p).spawned k (by simpa [hne] using hk)
  | writeSlot p i thread hman hinit =>
      exact h.modPool rfl { h.pools p with slots := fun hc => by simp [hinit] at hc }
  | initStore p hp hman hbuilt =>
      exact h.modPool rfl
        { h.pools p with
          usable := fun _ => ⟨hp, rfl, rfl⟩
          callers := fun _ => rfl
          workers := fun _ k hk => (hbuilt.2 k).mpr hk
          slots := fun _ i hi hnone => (hbuilt.1 i hi hnone).elim }
  | dropSlot p i hman hq =>
      exact h.modPool rfl { h.pools p with slots := fun _ _ _ _ => ⟨hman.usable, hq⟩ }

/-- Every step of a frame keeps all pools in order. -/
theorem PoolsOk.lifeStep (h : PoolsOk m) (hs : LifeStep t m m') : PoolsOk m' := by
  cases hs with
  | same hs => exact h.sameLife hs
  | call ho hs => exact (h.callOp ho).sameLife hs
  | own ho hs => exact (h.ownerOp ho).sameLife hs

end PoolsOk

end XynokConcurrency
