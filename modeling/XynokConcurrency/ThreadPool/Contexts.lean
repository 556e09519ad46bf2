import XynokConcurrency.ThreadPool.Lifecycle

/-!
# One producer for every deque

A thread's context is the one its stack prescribes, the host lock of a pool
belongs to the one call that took it, and a context names a slot that exists.
So two threads are never on the owner side of one deque.

Main results:

- Theorem {lit}`poolsOk`: all pools are in order in every reachable state.
- Theorem {lit}`placed`: so is every thread.
- Theorem {lit}`single_producer_discipline`: what contexts mean, and that the
  owner side of a deque has one thread at most.
-/

namespace XynokConcurrency

/-! ## What others may rely on -/

/-- Facts about a pool that never change back. -/
structure ThreadPoolInner.Grows (inner inner' : ThreadPoolInner) : Prop where
  totalWorker : inner'.totalWorker = inner.totalWorker
  spawned : ∀ k, inner.spawned k = true → inner'.spawned k = true
  exited : ∀ k, inner.exited k = true → inner'.exited k = true
  initCompleted : inner.initCompleted = true → inner'.initCompleted = true

/-- Facts that never change back. -/
structure Mem.Grows (m m' : Mem) : Prop where
  nextPool : m.nextPool ≤ m'.nextPool
  nextScope : m.nextScope ≤ m'.nextScope
  pools : ∀ p, m.PoolId p → (m.pools p).Grows (m'.pools p)
  scopes : ∀ s, s < m.nextScope →
    (m'.scopes s).root = (m.scopes s).root ∧ (m'.scopes s).caller = (m.scopes s).caller

/-- What the frames of thread {lit}`u` rely on: a lock it holds, a pool it builds
or takes down, and its own not having ended. -/
structure Mem.KeepsFrames (u : Tid) (m m' : Mem) : Prop where
  host : ∀ p, m.PoolId p → (m.pools p).hostOwner.locked = some u →
    (m'.pools p).hostOwner.locked = some u
  managed : ∀ p, m.PoolId p → (m.pools p).Managed u →
    (m'.pools p).Managed u ∧ (m'.pools p).initCompleted = (m.pools p).initCompleted ∧
      (m'.pools p).spawned = (m.pools p).spawned ∧ (m'.pools p).workers = (m.pools p).workers
  exited : ∀ p i, u = .worker p i → (m.pools p).exited i = false → (m'.pools p).exited i = false

/-- The calls of thread {lit}`u`, and the scopes it has lent. -/
structure Mem.KeepsCalls (u : Tid) (m m' : Mem) : Prop where
  callers : ∀ p, (m'.pools p).callers.count u = (m.pools p).callers.count u
  spawners : ∀ s, (m'.scopes s).spawners.count u = (m.scopes s).spawners.count u
  opened : ∀ s, (m'.scopes s).opened = true → (m'.scopes s).caller = u →
    (m.scopes s).opened = true ∧ (m.scopes s).caller = u

section Rely

variable {t u : Tid} {m m' m'' : Mem} {p : Nat}

theorem Mem.Grows.poolId (h : m.Grows m') (hp : m.PoolId p) : m'.PoolId p :=
  ⟨hp.1, hp.2.trans_le h.nextPool⟩

theorem ThreadPoolInner.Grows.refl (inner : ThreadPoolInner) : inner.Grows inner :=
  ⟨rfl, fun _ h => h, fun _ h => h, id⟩

@[refl] theorem Mem.Grows.refl (m : Mem) : m.Grows m :=
  ⟨le_rfl, le_rfl, fun _ _ => .refl _, fun _ _ => ⟨rfl, rfl⟩⟩

theorem Mem.SameLife.grows (h : m.SameLife m') : m.Grows m' := by
  refine ⟨h.nextPool.ge, h.nextScope.ge, fun p _ => ⟨h.totalWorker p, ?_, ?_, ?_⟩,
    fun s _ => ⟨h.root s, h.caller s⟩⟩
  · rw [h.spawned]
    exact fun _ hk => hk
  · rw [h.exited]
    exact fun _ hk => hk
  · rw [h.initCompleted]
    exact id

theorem Mem.SameLife.managed (h : m.SameLife m') (hm : (m.pools p).Managed u) :
    (m'.pools p).Managed u := by
  refine ⟨?_, ?_, ?_⟩
  · rw [h.manager, hm.manager]
  · rw [h.usable, hm.usable]
  · rw [h.callers, hm.callers]

theorem Mem.SameLife.keepsFrames (h : m.SameLife m') (u : Tid) : m.KeepsFrames u m' := by
  refine ⟨fun p _ hl => ?_, fun p _ hm => ?_, fun p i _ he => ?_⟩
  · rw [h.hostOwner, hl]
  · exact ⟨h.managed hm, h.initCompleted p, h.spawned p, h.workers p⟩
  · rw [h.exited, he]

theorem Mem.SameLife.keepsCalls (h : m.SameLife m') (u : Tid) : m.KeepsCalls u m' := by
  refine ⟨fun p => ?_, fun s => ?_, fun s ho hc => ?_⟩
  · rw [h.callers]
  · rw [h.spawners]
  · rw [h.openedEq] at ho
    rw [h.caller] at hc
    exact ⟨ho, hc⟩

theorem Mem.Grows.trans (h : m.Grows m') (h' : m'.Grows m'') : m.Grows m'' := by
  refine ⟨h.nextPool.trans h'.nextPool, h.nextScope.trans h'.nextScope, fun p hp => ?_,
    fun s hs => ?_⟩
  · have h₁ := h.pools p hp
    have h₂ := h'.pools p (h.poolId hp)
    exact ⟨h₂.totalWorker.trans h₁.totalWorker, fun k hk => h₂.spawned k (h₁.spawned k hk),
      fun k hk => h₂.exited k (h₁.exited k hk), fun hi => h₂.initCompleted (h₁.initCompleted hi)⟩
  · have h₁ := h.scopes s hs
    have h₂ := h'.scopes s (hs.trans_le h.nextScope)
    exact ⟨h₂.1.trans h₁.1, h₂.2.trans h₁.2⟩

theorem Mem.KeepsFrames.trans (h : m.KeepsFrames u m') (hg : m.Grows m')
    (h' : m'.KeepsFrames u m'') : m.KeepsFrames u m'' := by
  refine ⟨fun p hp hl => h'.host p (hg.poolId hp) (h.host p hp hl), fun p hp hm => ?_,
    fun p i hu he => h'.exited p i hu (h.exited p i hu he)⟩
  obtain ⟨hm₁, hi₁, hs₁, hw₁⟩ := h.managed p hp hm
  obtain ⟨hm₂, hi₂, hs₂, hw₂⟩ := h'.managed p (hg.poolId hp) hm₁
  exact ⟨hm₂, hi₂.trans hi₁, hs₂.trans hs₁, hw₂.trans hw₁⟩

theorem Mem.KeepsCalls.trans (h : m.KeepsCalls u m') (h' : m'.KeepsCalls u m'') :
    m.KeepsCalls u m'' := by
  refine ⟨fun p => (h'.callers p).trans (h.callers p),
    fun s => (h'.spawners s).trans (h.spawners s), fun s ho hc => ?_⟩
  obtain ⟨ho₁, hc₁⟩ := h'.opened s ho hc
  exact h.opened s ho₁ hc₁

/-- A change of one pool, seen by everybody. -/
theorem Mem.Grows.modPool {f : ThreadPoolInner → ThreadPoolInner}
    (hf : (m.pools p).Grows (f (m.pools p))) : m.Grows (m.modPool p f) := by
  refine ⟨le_rfl, le_rfl, fun q _ => ?_, fun _ _ => ⟨rfl, rfl⟩⟩
  rcases eq_or_ne q p with rfl | hq
  · simpa using hf
  · simpa [hq] using ThreadPoolInner.Grows.refl _

theorem Mem.Grows.modScope {s : Nat} {f : Scope → Scope}
    (hf : (f (m.scopes s)).root = (m.scopes s).root ∧
      (f (m.scopes s)).caller = (m.scopes s).caller) : m.Grows (m.modScope s f) := by
  refine ⟨le_rfl, le_rfl, fun q _ => .refl _, fun r _ => ?_⟩
  rcases eq_or_ne r s with rfl | hr
  · simpa using hf
  · simp [hr]

/-- Changes of locks and calls let facts grow. -/
theorem CallOp.grows (ho : CallOp t m m') : m.Grows m' := by
  cases ho with
  | lockHost | enter | leave | dropPool => exact .modPool ⟨rfl, fun _ h => h, fun _ h => h, id⟩
  | openScope | closeScope | borrow | giveBack => exact .modScope ⟨rfl, rfl⟩
  | enterScope p isBatch hu =>
      refine ⟨le_rfl, Nat.le_succ _, fun q _ => ?_, fun s hs => ?_⟩
      · rcases eq_or_ne q p with rfl | hq
        · simpa using ⟨rfl, fun _ h => h, fun _ h => h, id⟩
        · simpa [hq] using ThreadPoolInner.Grows.refl _
      · simp [hs.ne]
  | newPool totalWorker taskCapacity hpos =>
      refine ⟨Nat.le_succ _, le_rfl, fun q hq => ?_, fun _ _ => ⟨rfl, rfl⟩⟩
      simpa [hq.2.ne] using ThreadPoolInner.Grows.refl _

/-- So do changes by the thread in charge. -/
theorem OwnerOp.grows (ho : OwnerOp t m m') : m.Grows m' := by
  cases ho with
  | unlockHost | writeSlot | dropSlot => exact .modPool ⟨rfl, fun _ h => h, fun _ h => h, id⟩
  | exit => exact .modPool ⟨rfl, fun _ h => h, fun _ h => update_true h, id⟩
  | spawnWorker => exact .modPool ⟨rfl, fun _ h => update_true h, fun _ h => h, id⟩
  | initStore => exact .modPool ⟨rfl, fun _ h => h, fun _ h => h, fun _ => rfl⟩

/-- Every step lets facts grow. -/
theorem LifeStep.grows (hs : LifeStep t m m') : m.Grows m' := by
  cases hs with
  | same hs => exact hs.grows
  | call ho hs => exact ho.grows.trans hs.grows
  | own ho hs => exact ho.grows.trans hs.grows

/-- A change of one pool that keeps what thread {lit}`u` relies on. -/
theorem Mem.KeepsFrames.modPool {f : ThreadPoolInner → ThreadPoolInner}
    (hhost : (m.pools p).hostOwner.locked = some u → (f (m.pools p)).hostOwner.locked = some u)
    (hman : (m.pools p).Managed u →
      (f (m.pools p)).Managed u ∧ (f (m.pools p)).initCompleted = (m.pools p).initCompleted ∧
        (f (m.pools p)).spawned = (m.pools p).spawned ∧
        (f (m.pools p)).workers = (m.pools p).workers)
    (hexit : ∀ i, u = .worker p i → (m.pools p).exited i = false →
      (f (m.pools p)).exited i = false) : m.KeepsFrames u (m.modPool p f) := by
  refine ⟨fun q _ => ?_, fun q _ => ?_, fun q i hu => ?_⟩
  · rcases eq_or_ne q p with rfl | hq
    · simpa using hhost
    · simp [hq]
  · rcases eq_or_ne q p with rfl | hq
    · simpa using hman
    · simp [hq]
  · rcases eq_or_ne q p with rfl | hq
    · simpa using hexit i hu
    · simp [hq]

theorem Mem.KeepsCalls.modPool {f : ThreadPoolInner → ThreadPoolInner}
    (hf : (f (m.pools p)).callers.count u = (m.pools p).callers.count u) :
    m.KeepsCalls u (m.modPool p f) := by
  refine ⟨fun q => ?_, fun _ => rfl, fun s ho hc => ⟨ho, hc⟩⟩
  rcases eq_or_ne q p with rfl | hq
  · simpa using hf
  · simp [hq]

theorem Mem.KeepsCalls.modScope {s : Nat} {f : Scope → Scope}
    (hcount : (f (m.scopes s)).spawners.count u = (m.scopes s).spawners.count u)
    (hopened : (f (m.scopes s)).opened = true → (f (m.scopes s)).caller = u →
      (m.scopes s).opened = true ∧ (m.scopes s).caller = u) :
    m.KeepsCalls u (m.modScope s f) := by
  refine ⟨fun _ => rfl, fun r => ?_, fun r => ?_⟩
  · rcases eq_or_ne r s with rfl | hr
    · simpa using hcount
    · simp [hr]
  · rcases eq_or_ne r s with rfl | hr
    · simpa using hopened
    · simpa [hr] using fun ho hc => ⟨ho, hc⟩

theorem ThreadPoolInner.Managed.unique {inner : ThreadPoolInner} (h : inner.Managed t)
    (h' : inner.Managed u) : t = u :=
  Option.some.inj (h.manager.symm.trans h'.manager)

/-- Changes of locks and calls keep what the frames of any thread rely on. -/
theorem CallOp.keepsFrames (ho : CallOp t m m') (u : Tid) : m.KeepsFrames u m' := by
  cases ho with
  | lockHost p hfree =>
      exact .modPool (fun hl => by simp [hfree] at hl) (fun h => ⟨{ h with }, rfl, rfl, rfl⟩)
        fun _ _ h => h
  | openScope | closeScope | borrow | giveBack =>
      exact ⟨fun _ _ h => h, fun _ _ h => ⟨h, rfl, rfl, rfl⟩, fun _ _ _ h => h⟩
  | enter p h =>
      exact .modPool id (fun hm => by simp [hm.usable] at h) fun _ _ h => h
  | leave p =>
      exact .modPool id (fun h => ⟨{ h with callers := by simp [h.callers] }, rfl, rfl, rfl⟩)
        fun _ _ h => h
  | enterScope p isBatch h =>
      have hk : m.KeepsFrames u
          (m.modPool p fun inner => { inner with callers := t :: inner.callers }) :=
        .modPool id (fun hm => by simp [hm.usable] at h) fun _ _ h => h
      exact ⟨hk.host, hk.managed, hk.exited⟩
  | newPool totalWorker taskCapacity hpos =>
      refine ⟨fun q hq => ?_, fun q hq => ?_, fun q i _ he => ?_⟩
      · simp [hq.2.ne]
      · simp [hq.2.ne]
      · rcases eq_or_ne q m.nextPool with rfl | hq
        · simp [ThreadPoolInner.new]
        · simpa [hq] using he
  | dropPool p h hc =>
      exact .modPool id (fun hm => by simp [hm.usable] at h) fun _ _ h => h

/-- Changes by the thread in charge keep what the frames of the others rely on. -/
theorem OwnerOp.keepsFrames (ho : OwnerOp t m m') (hu : u ≠ t) : m.KeepsFrames u m' := by
  cases ho with
  | unlockHost p hlock =>
      refine .modPool (fun hl => ?_) (fun h => ⟨{ h with }, rfl, rfl, rfl⟩) fun _ _ h => h
      exact (hu (Option.some.inj (hl.symm.trans hlock))).elim
  | exit p i ht =>
      refine .modPool id (fun h => ⟨{ h with }, rfl, rfl, rfl⟩) fun k hk he => ?_
      rcases eq_or_ne k i with rfl | hne
      · exact (hu (hk.trans ht.symm)).elim
      · simpa [hne] using he
  | spawnWorker p i hman | writeSlot p i thread hman | initStore p hp hman | dropSlot p i hman =>
      exact .modPool id (fun h => (hu (h.unique hman)).elim) fun _ _ h => h

/-- A step keeps what the frames of the other threads rely on. -/
theorem LifeStep.keepsFrames (hs : LifeStep t m m') (hu : u ≠ t) : m.KeepsFrames u m' := by
  cases hs with
  | same hs => exact hs.keepsFrames u
  | call ho hs => exact (ho.keepsFrames u).trans ho.grows (hs.keepsFrames u)
  | own ho hs => exact (ho.keepsFrames hu).trans ho.grows (hs.keepsFrames u)

/-- Nobody is inside a pool that does not exist yet. -/
theorem PoolsOk.fresh_callers (hok : PoolsOk m) : (m.pools m.nextPool).callers = [] := by
  by_contra hne
  have hpool := hok.pools m.nextPool
  exact (hpool.usable (hpool.callers hne)).1.2.false

/-- Nobody borrows a scope that does not exist yet. -/
theorem PoolsOk.fresh_spawners (hok : PoolsOk m) : (m.scopes m.nextScope).spawners = [] := by
  by_contra hne
  exact (hok.opened _ (hok.spawners _ hne)).1.false

/-- A change of locks and calls leaves the calls of the other threads alone. -/
theorem CallOp.keepsCalls (hok : PoolsOk m) (ho : CallOp t m m') (hu : u ≠ t) :
    m.KeepsCalls u m' := by
  have htu : t ≠ u := hu.symm
  cases ho with
  | lockHost | dropPool => exact .modPool rfl
  | openScope s hs hp hc => exact .modScope rfl fun _ h => (htu (hc.symm.trans h)).elim
  | closeScope s hc hsp => exact .modScope rfl fun h => by cases h
  | borrow s h => exact .modScope (List.count_cons_of_ne htu) fun ho hc => ⟨ho, hc⟩
  | giveBack s => exact .modScope (List.count_erase_of_ne hu) fun ho hc => ⟨ho, hc⟩
  | enter p h => exact .modPool (List.count_cons_of_ne htu)
  | leave p => exact .modPool (List.count_erase_of_ne hu)
  | enterScope p isBatch h =>
      have hk : m.KeepsCalls u
          (m.modPool p fun inner => { inner with callers := t :: inner.callers }) :=
        .modPool (List.count_cons_of_ne htu)
      refine ⟨hk.callers, fun s => ?_, fun s => ?_⟩
      · rcases eq_or_ne s m.nextScope with rfl | hs
        · simp [Scope.new, hok.fresh_spawners]
        · simp [hs]
      · rcases eq_or_ne s m.nextScope with rfl | hs
        · simp [Scope.new]
        · simpa [hs] using fun ho hc => ⟨ho, hc⟩
  | newPool totalWorker taskCapacity hpos =>
      refine ⟨fun q => ?_, fun _ => rfl, fun s ho hc => ⟨ho, hc⟩⟩
      rcases eq_or_ne q m.nextPool with rfl | hq
      · simp [ThreadPoolInner.new, hok.fresh_callers]
      · simp [hq]

/-- A step leaves the calls of the other threads alone. -/
theorem LifeStep.keepsCalls (hok : PoolsOk m) (hs : LifeStep t m m') (hu : u ≠ t) :
    m.KeepsCalls u m' := by
  cases hs with
  | same hs => exact hs.keepsCalls u
  | call ho hs => exact (ho.keepsCalls hok hu).trans (hs.keepsCalls u)
  | own ho hs =>
      refine Mem.KeepsCalls.trans ?_ (hs.keepsCalls u)
      cases ho <;> exact .modPool rfl

end Rely

/-! ## Frames below the innermost one -/

/-- The pool a frame builds or takes down. -/
def Frame.manages : Frame → Option Nat
  | .newPool p _ | .shutdown p _ _ _ | .dropPool p _ => some p
  | _ => none

/-- The pool a frame is still building. -/
def Frame.builds : Frame → Option Nat
  | .newPool p pc => if pc = .failed then none else some p
  | _ => none

/-- What one frame of thread {lit}`u` relies on. -/
structure Mem.KeepsFrame (u : Tid) (m m' : Mem) (f : Frame) : Prop where
  host : ∀ p, f.holdsHost = some p → m.PoolId p → (m.pools p).hostOwner.locked = some u →
    (m'.pools p).hostOwner.locked = some u
  managed : ∀ p, f.manages = some p → m.PoolId p → (m.pools p).Managed u →
    (m'.pools p).Managed u ∧ (m'.pools p).initCompleted = (m.pools p).initCompleted ∧
      (m'.pools p).spawned = (m.pools p).spawned
  workers : ∀ p, f.builds = some p → m.PoolId p → (m.pools p).Managed u →
    (m'.pools p).workers = (m.pools p).workers
  exited : ∀ p i, f.Bottom u → u = .worker p i → (m.pools p).exited i = false →
    (m'.pools p).exited i = false

section Stable

variable {t u : Tid} {m m' : Mem} {p : Nat} {f : Frame} {rest stack : List Frame} {w : WorkerRef}

theorem Mem.KeepsFrames.frame (h : m.KeepsFrames u m') (f : Frame) : m.KeepsFrame u m' f :=
  ⟨fun p _ => h.host p, fun p _ hp hm => ⟨(h.managed p hp hm).1, (h.managed p hp hm).2.1,
    (h.managed p hp hm).2.2.1⟩, fun p _ hp hm => (h.managed p hp hm).2.2.2,
    fun p i _ => h.exited p i⟩

/-- The context a stack prescribes never changes while the stack is the same. -/
theorem contextOf_grows (hg : m.Grows m') (h : Everywhere (Frame.Fits u m) stack) :
    contextOf m' stack = contextOf m stack := by
  induction stack with
  | nil => rfl
  | cons f stack ih =>
      simp only [contextOf, ih h.2]
      have hf := h.1
      cases f with
      | scope p s pc =>
          simp only [Frame.context, ThreadPoolInner.hostIndex, (hg.pools p hf.1).totalWorker]
      | _ => rfl

/-- A frame that owns a worker goes on owning it. -/
theorem WorkerRef.Owned.grows (hg : m.Grows m') (hrest : Everywhere (Frame.Fits u m) rest)
    (h : w.Owned u m rest) : w.Owned u m' rest := by
  cases w with
  | slot p i => exact ⟨hg.poolId h.1, (contextOf_grows hg hrest).trans h.2⟩
  | helper p s =>
      obtain ⟨hp, hc, pc, hmem⟩ := h
      obtain ⟨_, _, _, hscope, -⟩ := hrest.of_mem hmem
      exact ⟨hg.poolId hp, (hg.scopes s hscope.2.1).2.trans hc, pc, hmem⟩

/-- A frame that owns a worker may call functions that do not change the context. -/
theorem WorkerRef.Owned.push (h : w.Owned u m rest) (hf : f.context m = none) :
    w.Owned u m (f :: rest) := by
  cases w with
  | slot p i => exact ⟨h.1, by simpa [contextOf, hf] using h.2⟩
  | helper p s =>
      obtain ⟨hp, hc, pc, hmem⟩ := h
      exact ⟨hp, hc, pc, List.mem_cons_of_mem _ hmem⟩

theorem ThreadPoolInner.Grows.quiescent {inner inner' : ThreadPoolInner} (hg : inner.Grows inner')
    (hs : inner'.spawned = inner.spawned) (h : inner.Quiescent) : inner'.Quiescent :=
  fun k hk => hg.exited k (h k (hs ▸ hk))

/-- How far a constructor is changes only with the pool's slots and workers. -/
theorem NewPc.Built.congr {pc : NewPc} {inner inner' : ThreadPoolInner} (h : pc.Built inner)
    (htotal : inner'.totalWorker = inner.totalWorker) (hspawned : inner'.spawned = inner.spawned)
    (hworkers : inner'.workers = inner.workers) : pc.Built inner' := by
  cases pc <;> simp only [NewPc.Built, htotal, hspawned, hworkers] at h ⊢ <;> exact h

/-- What a shutdown has waited for stays ended. -/
theorem ShutdownPc.Joined.grows {pc : ShutdownPc} {handles : Nat} {inner inner' : ThreadPoolInner}
    (hg : inner.Grows inner') (h : pc.Joined inner handles) : pc.Joined inner' handles := by
  cases pc <;> first | trivial | exact fun i hi => hg.exited i (h i hi)

/-- A frame keeps its assertion when what it relies on is kept. -/
theorem Frame.Fits.keeps (hg : m.Grows m') (hk : ∀ g ∈ f :: rest, m.KeepsFrame u m' g)
    (hrest : Everywhere (Frame.Fits u m) rest) (h : f.Fits u m rest) : f.Fits u m' rest := by
  have hkf := hk f List.mem_cons_self
  cases f with
  | ret o =>
      intro p hp
      cases rest with
      | nil => cases hp
      | cons g rest =>
          cases hp
          obtain ⟨hid, hman, -, -⟩ := hrest.1
          have hkg := (hk (.dropPool p .shutdown) (by simp)).managed p rfl hid hman
          exact (hg.pools p hid).quiescent hkg.2.2 (h p rfl)
  | callEnd p => exact hg.poolId h
  | callDone p o => exact hg.poolId h
  | spawnEnd s => exact h.trans_le hg.nextScope
  | spawnDone s o => exact h.trans_le hg.nextScope
  | enqueue p j | enqueueWait p j | wake p j pc =>
      refine ⟨hg.poolId h.1, fun s hs => ?_⟩
      cases rest with
      | nil => cases hs
      | cons g rest =>
          cases hs
          exact (hg.scopes s hrest.1).1.trans (h.2 s rfl)
  | spawn p s pc => exact ⟨hg.poolId h.1, h.2.1.trans_le hg.nextScope, (hg.scopes s h.2.1).1.trans h.2.2⟩
  | spawnWait p s j =>
      exact ⟨hg.poolId h.1, h.2.1.trans_le hg.nextScope, (hg.scopes s h.2.1).1.trans h.2.2⟩
  | scope p s pc =>
      obtain ⟨hp, hs, hroot, hcaller, hprev, hhost, hinside, honce, hlock⟩ := h
      have hctx := contextOf_grows hg hrest
      refine ⟨hg.poolId hp, hs.trans_le hg.nextScope, (hg.scopes s hs).1.trans hroot,
        (hg.scopes s hs).2.trans hcaller, fun c hc => (hprev c hc).trans hctx.symm,
        fun hrole => ?_, fun hrole => ?_, honce, hlock⟩
      · exact hkf.host p (if_pos hrole) hp (hhost hrole)
      · rw [hctx]
        exact hinside hrole
  | runUntil w s tick pc => exact WorkerRef.Owned.grows hg hrest h
  | pop w pc => exact WorkerRef.Owned.grows hg hrest h
  | steal w tick pc => exact WorkerRef.Owned.grows hg hrest h
  | loop p i tick rounds pc =>
      obtain ⟨ht, hexit, hborn, hseated⟩ := h
      refine ⟨ht, hkf.exited p i ht ht hexit, fun hpc => ?_, fun hpc => ?_⟩
      · obtain ⟨hp, hspawned⟩ := hborn hpc
        exact ⟨hg.poolId hp, (hg.pools p hp).spawned i hspawned⟩
      · have hpc' : pc ≠ .unborn := by
          rintro rfl
          rcases hpc with hpc | hpc <;> cases hpc
        exact (hg.pools p (hborn hpc').1).initCompleted (hseated hpc)
  | newPool p pc =>
      obtain ⟨hp, hman, hinit, hbuilt⟩ := h
      obtain ⟨hman', hinit', hspawned'⟩ := hkf.managed p rfl hp hman
      refine ⟨hg.poolId hp, hman', hinit'.trans hinit, ?_⟩
      by_cases hpc : pc = .failed
      · subst hpc
        trivial
      · exact hbuilt.congr (hg.pools p hp).totalWorker hspawned'
          (hkf.workers p (if_neg hpc) hp hman)
  | shutdown p handles workerCount pc =>
      obtain ⟨hp, hman, hlt, hjoin⟩ := h
      obtain ⟨hman', -, hspawned'⟩ := hkf.managed p rfl hp hman
      refine ⟨hg.poolId hp, hman', fun k hk => hlt k ?_, hjoin.grows (hg.pools p hp)⟩
      rwa [← hspawned']
  | dropPool p pc =>
      obtain ⟨hp, hman, hinit, hq⟩ := h
      obtain ⟨hman', hinit', hspawned'⟩ := hkf.managed p rfl hp hman
      exact ⟨hg.poolId hp, hman', hinit'.trans hinit,
        fun hpc => (hg.pools p hp).quiescent hspawned' (hq hpc)⟩
  | _ => trivial

/-- A stack keeps its assertions when what its frames rely on is kept. -/
theorem fits_keeps (hg : m.Grows m') (hk : ∀ g ∈ stack, m.KeepsFrame u m' g)
    (h : Everywhere (Frame.Fits u m) stack) : Everywhere (Frame.Fits u m') stack := by
  induction stack with
  | nil => trivial
  | cons f stack ih =>
      exact ⟨h.1.keeps hg hk h.2, ih (fun g hgm => hk g (List.mem_cons_of_mem _ hgm)) h.2⟩

end Stable

/-! ## Threads -/

section Threads

variable {t u : Tid} {m m' : Mem} {p : Nat} {f : Frame} {fs rest : List Frame} {th : Thread}
  {ctx ctx' : Context} {op op' : Op DequeId QueueId Nat}

/-- A thread stays placed when others respect what it relies on. -/
theorem Placed.keeps (h : Placed u m th) (hg : m.Grows m') (hf : m.KeepsFrames u m')
    (hc : m.KeepsCalls u m') : Placed u m' th := by
  refine ⟨?_, fits_keeps hg (fun g _ => hf.frame g) h.fits, fun p => ?_, fun s => ?_,
    fun s ho hcaller => ?_⟩
  · rw [contextOf_grows hg h.fits]
    exact h.context
  · rw [hc.callers, h.callers]
  · rw [hc.spawners, h.spawners]
  · obtain ⟨ho, hcaller⟩ := hc.opened s ho hcaller
    exact h.opened s ho hcaller

theorem Placed.sameLife (h : Placed u m th) (hs : m.SameLife m') : Placed u m' th :=
  h.keeps hs.grows (hs.keepsFrames u) (hs.keepsCalls u)

/-- The innermost frame gives way to others that make the same calls. -/
theorem Placed.replace (h : Placed t m ⟨ctx, f :: rest, op⟩)
    (hfits : Everywhere (Frame.Fits t m) (fs ++ rest))
    (hctx : contextOf m (fs ++ rest) = contextOf m (f :: rest))
    (hcall : ∀ p, fs.countP (Frame.isCall p) = [f].countP (Frame.isCall p))
    (hspawn : ∀ s, fs.countP (Frame.isSpawn s) = [f].countP (Frame.isSpawn s))
    (hclosure : ∀ s, f = .user (.closure s) → .user (.closure s) ∈ fs) :
    Placed t m ⟨ctx, fs ++ rest, op'⟩ := by
  refine ⟨h.context.trans hctx.symm, hfits, fun p => ?_, fun s => ?_, fun s ho hc => ?_⟩
  · rw [h.callers, List.countP_append, hcall, ← List.countP_append]
    rfl
  · rw [h.spawners, List.countP_append, hspawn, ← List.countP_append]
    rfl
  · rcases List.mem_cons.mp (h.opened s ho hc) with heq | hmem
    · exact List.mem_append_left _ (hclosure s heq.symm)
    · exact List.mem_append_right _ hmem

/-- Only {lit}`shutdown` returns to the drop of a pool. -/
theorem ret_fits {o : Outcome} (hl : Linked t (f :: rest))
    (hf : ∀ p handles count pc, f ≠ .shutdown p handles count pc) (hr : ∀ o, f ≠ .ret o) :
    (Frame.ret o).Fits t m rest := by
  intro p hp
  cases rest with
  | nil => cases hp
  | cons g rest =>
      cases hp
      have hu := hl.1
      exfalso
      cases f <;> simp only [Frame.On, Frame.Under, reduceCtorEq, exists_false, or_self,
        false_and, and_false] at hu
      case user u => cases u <;> simp at hu
      case ret o => exact hr o rfl
      case dropJobs | dropEnv => simp at hu
      case shutdown => exact hf _ _ _ _ rfl

/-- Starting a queue operation. -/
theorem Placed.call {f' : Frame} {q : QueueCall DequeId QueueId Nat}
    (h : Placed t m ⟨ctx, f :: rest, op⟩) (hc : f.call m ctx = some (q, f')) :
    Placed t m ⟨ctx, f' :: rest, op'⟩ := by
  change Placed t m ⟨ctx, [f'] ++ rest, op'⟩
  refine h.replace ⟨?_, h.fits.2⟩ ?_ ?_ ?_ ?_
  · have hfit := h.fits.1
    unfold Frame.call at hc
    split at hc <;> (try split at hc) <;> cases hc <;> exact hfit
  all_goals
    unfold Frame.call at hc
    split at hc <;> (try split at hc) <;> cases hc <;> first | rfl | exact fun _ => rfl | nofun

/-- {lit}`spawn` goes on in the pool of its scope. -/
theorem spawn_fits {s : Nat} (hu : ∀ g, f.Under g → g = .spawnEnd s) (hl : Linked t (f :: rest))
    (h : m.PoolId p ∧ s < m.nextScope ∧ (m.scopes s).root = p) :
    m.PoolId p ∧ ∀ r, rest.head? = some (.spawnEnd r) → (m.scopes r).root = p := by
  refine ⟨h.1, fun r hr => ?_⟩
  cases rest with
  | nil => cases hr
  | cons g rest =>
      cases hr
      cases hu _ hl.1
      exact h.2.2

/-- Taking the result of a queue operation. -/
theorem Placed.answer {r : QueueRes Nat} (h : Placed t m ⟨ctx, f :: rest, op⟩)
    (hl : Linked t (f :: rest)) : Placed t m ⟨ctx, f.answer r ++ rest, op'⟩ := by
  have hfit := h.fits.1
  refine h.replace ?_ ?_ ?_ ?_ ?_
  · unfold Frame.answer
    split <;> try split
    all_goals
      first
        | exact h.fits
        | exact ⟨hfit, h.fits.2⟩
        | exact ⟨trivial, hfit, h.fits.2⟩
        | exact ⟨WorkerRef.Owned.push hfit rfl, hfit, h.fits.2⟩
        | exact ⟨ret_fits hl nofun nofun, h.fits.2⟩
        | exact ⟨spawn_fits (fun _ => id) hl hfit, h.fits.2⟩
  all_goals
    unfold Frame.answer
    split <;> try split
    all_goals
      first
        | rfl
        | exact fun _ => rfl
        | intro _ heq; cases heq; done
        | intro _ heq; exact heq ▸ List.mem_cons_self

/-- A worker that has put its context in place goes on. -/
theorem loop_fits {i tick rounds tick' rounds' : Nat} {pc pc' : LoopPc}
    (h : (Frame.loop p i tick rounds pc).Fits t m rest) (hpc : pc.seated = true) :
    (Frame.loop p i tick' rounds' pc').Fits t m rest := by
  have hborn : pc ≠ .unborn := by
    rintro rfl
    cases hpc
  exact ⟨h.1, h.2.1, fun _ => h.2.2.1 hborn, fun _ => h.2.2.2 (.inr hpc)⟩

/-- A worker that has put its context in place owns its slot. -/
theorem loop_owned {i tick rounds tick' rounds' : Nat} {pc pc' : LoopPc}
    (h : (Frame.loop p i tick rounds pc).Fits t m rest) (hpc : pc.seated = true)
    (hpc' : pc'.seated = true) :
    (WorkerRef.slot p i).Owned t m (.loop p i tick' rounds' pc' :: rest) := by
  have hborn : pc ≠ .unborn := by
    rintro rfl
    cases hpc
  exact ⟨(h.2.2.1 hborn).1, by simp [contextOf, Frame.context, hpc']⟩

/-- Taking the result of a frame. -/
theorem Placed.resume {o : Outcome} (h : Placed t m ⟨ctx, .ret o :: f :: rest, op⟩)
    (hl : Linked t (f :: rest)) : Placed t m ⟨ctx, f.resume o ++ rest, op'⟩ := by
  have hret := h.fits.1
  have hfit := h.fits.2.1
  have hf : Placed t m ⟨ctx, f :: rest, op⟩ := by
    have hpopped : Placed t m ⟨ctx, [] ++ f :: rest, op⟩ :=
      h.replace h.fits.2 rfl (fun _ => rfl) (fun _ => rfl) fun _ heq => by cases heq
    exact hpopped
  refine hf.replace ?_ ?_ ?_ ?_ ?_
  · unfold Frame.resume
    split <;> try split
    all_goals
      first
        | exact h.fits.2
        | exact ⟨hfit, h.fits.2.2⟩
        | exact ⟨WorkerRef.Owned.push hfit rfl, hfit, h.fits.2.2⟩
        | exact ⟨ret_fits hl nofun nofun, h.fits.2.2⟩
        | exact ⟨loop_fits hfit rfl, h.fits.2.2⟩
        | exact ⟨loop_owned hfit rfl rfl, loop_fits hfit rfl, h.fits.2.2⟩
        | exact ⟨trivial, loop_fits hfit rfl, h.fits.2.2⟩
        | exact ⟨⟨hfit.1, hfit.2.1, hfit.2.2.1, fun _ => hret _ rfl⟩, h.fits.2.2⟩
        | exact ⟨⟨hfit.1, hfit.2.1, hfit.2.2.1, fun _ => hfit.2.2.2 nofun⟩, h.fits.2.2⟩
  all_goals
    unfold Frame.resume
    split <;> try split
    all_goals
      first
        | rfl
        | exact fun _ => rfl
        | intro _ heq; cases heq; done
        | intro _ heq; exact heq ▸ List.mem_cons_self

/-- A step that leaves locks, calls and pools alone and makes no call itself. -/
theorem Placed.silent (h : Placed t m ⟨ctx, f :: rest, op⟩) (hs : m.SameLife m')
    (hfits : f.Fits t m' rest → Everywhere (Frame.Fits t m') rest →
      Everywhere (Frame.Fits t m') (fs ++ rest))
    (hctx : contextOf m' (fs ++ rest) = contextOf m' (f :: rest))
    (hcall : ∀ p, fs.countP (Frame.isCall p) = [f].countP (Frame.isCall p))
    (hspawn : ∀ s, fs.countP (Frame.isSpawn s) = [f].countP (Frame.isSpawn s))
    (hclosure : ∀ s, f ≠ .user (.closure s)) : Placed t m' ⟨ctx, fs ++ rest, op'⟩ := by
  have h' := h.sameLife hs
  exact h'.replace (hfits h'.fits.1 h'.fits.2) hctx hcall hspawn fun s hf => (hclosure s hf).elim

/-- The functions that touch no lock, call or pool. -/
theorem Placed.silentStep {c : Choice} (h : Placed t m ⟨ctx, f :: rest, op⟩)
    (hl : Linked t (f :: rest)) (hs : f.step t c m ctx = some (m', ctx', fs))
    (hf : match f with
      | .wake _ _ _ | .spawn _ _ _ | .runUntil _ _ _ _ | .steal _ _ _ | .task _ _ | .batch _ _ _
      | .inboxes _ _ _ _ _ | .assign _ _ _ _ _ | .publish _ _ _ | .sleep _ _ _ | .dropPool _ _
      | .dropJobs _ | .dropEnv _ _ => True
      | _ => False) : Placed t m' ⟨ctx', fs ++ rest, op'⟩ := by
  cases f <;> simp only [Frame.step, keep_eq, keepMem_eq] at hs hf
  case wake p j pc =>
    obtain ⟨hs, rfl⟩ := hs
    refine h.silent (wakeStep_sameLife hs) (fun hfit hrest => ?_) ?_ ?_ ?_ (by simp)
    all_goals
      cases pc <;> simp only [wakeStep] at hs <;> (try split at hs) <;> cases hs <;>
        first
          | exact ⟨hfit, hrest⟩
          | exact ⟨ret_fits hl (by simp) (by simp), hrest⟩
          | rfl
          | exact fun _ => rfl
  case spawn p s pc =>
    obtain ⟨hs, rfl⟩ := hs
    refine h.silent (spawnStep_sameLife hs) (fun hfit hrest => ?_) ?_ ?_ ?_ (by simp)
    all_goals
      cases pc <;> simp only [spawnStep] at hs <;> (try split at hs) <;> cases hs <;>
        first
          | exact ⟨hfit, hrest⟩
          | exact ⟨spawn_fits (fun _ => id) hl hfit, hrest⟩
          | rfl
          | exact fun _ => rfl
  case runUntil w s tick pc =>
    obtain ⟨hs, rfl, rfl⟩ := hs
    refine h.silent (.refl _) (fun hfit hrest => ?_) ?_ ?_ ?_ (by simp)
    all_goals
      cases pc <;> simp only [runUntilStep] at hs <;> (try split at hs) <;> cases hs <;>
        first
          | exact ⟨ret_fits hl (by simp) (by simp), hrest⟩
          | exact ⟨WorkerRef.Owned.push hfit rfl, hfit, hrest⟩
          | rfl
          | exact fun _ => rfl
  case steal w tick pc =>
    obtain ⟨hs, rfl, rfl⟩ := hs
    refine h.silent (.refl _) (fun hfit hrest => ?_) ?_ ?_ ?_ (by simp)
    all_goals
      cases pc <;> simp only [stealStep] at hs <;> (repeat' split at hs) <;> cases hs <;>
        first
          | exact ⟨hfit, hrest⟩
          | exact ⟨ret_fits hl (by simp) (by simp), hrest⟩
          | rfl
          | exact fun _ => rfl
  case task j pc =>
    obtain ⟨hs, rfl⟩ := hs
    refine h.silent (taskStep_sameLife hs) (fun hfit hrest => ?_) ?_ ?_ ?_ (by simp)
    all_goals
      cases pc <;> simp only [taskStep] at hs <;> (try split at hs) <;> cases hs <;>
        first
          | exact ⟨hfit, hrest⟩
          | exact ⟨ret_fits hl (by simp) (by simp), hrest⟩
          | exact ⟨trivial, hfit, hrest⟩
          | rfl
          | exact fun _ => rfl
  case batch p s pc =>
    obtain ⟨hs, rfl, rfl⟩ := hs
    refine h.silent (.refl _) (fun hfit hrest => ?_) ?_ ?_ ?_ (by simp)
    all_goals
      cases pc <;> simp only [batchStep] at hs <;> cases hs
      first
        | exact ⟨trivial, trivial, trivial, hrest⟩
        | rfl
        | exact fun _ => rfl
  case inboxes p s caller index pc =>
    obtain ⟨hs, rfl⟩ := hs
    refine h.silent (inboxesStep_sameLife hs) (fun hfit hrest => ?_) ?_ ?_ ?_ (by simp)
    all_goals
      cases pc <;> simp only [inboxesStep] at hs <;> (try split at hs) <;> cases hs <;>
        first
          | exact ⟨trivial, hrest⟩
          | exact ⟨ret_fits hl (by simp) (by simp), hrest⟩
          | exact ⟨trivial, trivial, hrest⟩
          | rfl
          | exact fun _ => rfl
  case assign p s caller index pc =>
    obtain ⟨hs, rfl⟩ := hs
    refine h.silent (assignStep_sameLife hs) (fun hfit hrest => ?_) ?_ ?_ ?_ (by simp)
    all_goals
      cases pc <;> simp only [assignStep] at hs <;> cases hs <;>
        first
          | exact ⟨trivial, hrest⟩
          | exact ⟨trivial, trivial, hrest⟩
          | rfl
          | exact fun _ => rfl
  case publish p s pc =>
    obtain ⟨hs, rfl⟩ := hs
    refine h.silent (publishStep_sameLife hs) (fun hfit hrest => ?_) ?_ ?_ ?_ (by simp)
    all_goals
      rcases pc with _ | _ | ⟨kept, _ | ⟨i, rest'⟩⟩ | _ | _ | _ <;>
        simp only [publishStep] at hs <;> (try split at hs) <;> cases hs <;>
        first
          | exact ⟨trivial, hrest⟩
          | exact ⟨ret_fits hl (by simp) (by simp), hrest⟩
          | rfl
          | exact fun _ => rfl
  case sleep p i pc =>
    obtain ⟨hs, rfl⟩ := hs
    refine h.silent (sleepStep_sameLife hs) (fun hfit hrest => ?_) ?_ ?_ ?_ (by simp)
    all_goals
      cases pc <;> simp only [sleepStep] at hs <;> (repeat' split at hs) <;> cases hs <;>
        first
          | exact ⟨trivial, hrest⟩
          | exact ⟨ret_fits hl (by simp) (by simp), hrest⟩
          | rfl
          | exact fun _ => rfl
  case dropPool p pc =>
    obtain ⟨hs, rfl⟩ := hs
    refine h.silent (dropPoolStep_sameLife hs) (fun hfit hrest => ?_) ?_ ?_ ?_ (by simp)
    all_goals
      cases pc <;> simp only [dropPoolStep] at hs <;> cases hs <;>
        first
          | exact ⟨ret_fits hl (by simp) (by simp), hrest⟩
          | exact ⟨trivial, ⟨hfit.1, hfit.2.1, hfit.2.2.1, fun _ => hfit.2.2.2 (by simp)⟩, hrest⟩
          | rfl
          | exact fun _ => rfl
  case dropJobs js =>
    obtain ⟨hs, rfl⟩ := hs
    refine h.silent (dropJobsStep_sameLife (Option.some.inj hs)) (fun hfit hrest => ?_) ?_ ?_ ?_
      (by simp)
    all_goals
      cases js <;> simp only [dropJobsStep] at hs <;> cases hs <;>
        first
          | exact ⟨trivial, hrest⟩
          | exact ⟨ret_fits hl (by simp) (by simp), hrest⟩
          | rfl
          | exact fun _ => rfl
  case dropEnv j js =>
    cases hs
    exact h.silent (.modJob _) (fun _ hrest => ⟨trivial, hrest⟩) rfl (fun _ => rfl) (fun _ => rfl)
      (by simp)

/-- A step that changes locks, contexts or pools and makes no call. -/
theorem Placed.recast {stack : List Frame} (h : Placed t m ⟨ctx, f :: rest, op⟩)
    (hg : m.Grows m') (hk : ∀ g ∈ rest, m.KeepsFrame t m' g) (hc : m.KeepsCalls t m')
    (hfits : Everywhere (Frame.Fits t m') rest → Everywhere (Frame.Fits t m') stack)
    (hctx : contextOf m' rest = contextOf m rest → ctx' = contextOf m' stack)
    (hcall : ∀ p, stack.countP (Frame.isCall p) = (f :: rest).countP (Frame.isCall p))
    (hspawn : ∀ s, stack.countP (Frame.isSpawn s) = (f :: rest).countP (Frame.isSpawn s))
    (hclosure : ∀ s, .user (.closure s) ∈ f :: rest → .user (.closure s) ∈ stack) :
    Placed t m' ⟨ctx', stack, op'⟩ := by
  refine ⟨hctx (contextOf_grows hg h.fits.2), hfits (fits_keeps hg hk h.fits.2), fun p => ?_,
    fun s => ?_, fun s ho hcaller => ?_⟩
  · rw [hc.callers, h.callers, hcall]
  · rw [hc.spawners, h.spawners, hspawn]
  · obtain ⟨ho, hcaller⟩ := hc.opened s ho hcaller
    exact hclosure s (h.opened s ho hcaller)

/-- The innermost frame gives way to another one of its function. -/
theorem Placed.goto {f' : Frame} (h : Placed t m ⟨ctx, f :: rest, op⟩) (hfit : f'.Fits t m rest)
    (hctx : f'.context m = f.context m) (hcall : ∀ p, f'.isCall p = f.isCall p)
    (hspawn : ∀ s, f'.isSpawn s = f.isSpawn s) (hclosure : ∀ s, f ≠ .user (.closure s)) :
    Placed t m ⟨ctx, f' :: rest, op'⟩ := by
  change Placed t m ⟨ctx, [f'] ++ rest, op'⟩
  refine h.replace ⟨hfit, h.fits.2⟩ ?_ (fun p => ?_) (fun s => ?_)
    fun s hf => (hclosure s hf).elim
  · simp [contextOf, hctx]
  · simp [List.countP_cons, hcall]
  · simp [List.countP_cons, hspawn]

/-- A scope call goes on in the same role. -/
theorem scope_fits {s : Nat} {pc pc' : ScopePc} (h : (Frame.scope p s pc).Fits t m rest)
    (hprev : ∀ c, pc'.previous = some c → pc.previous = some c) (hrole : pc'.role = pc.role) :
    (Frame.scope p s pc').Fits t m rest := by
  obtain ⟨hp, hs, hroot, hcaller, hctx, hhost, hinside, honce, hlock⟩ := h
  exact ⟨hp, hs, hroot, hcaller, fun c hc => hctx c (hprev c hc), fun hr => hhost (hrole ▸ hr),
    fun hr => hinside (hrole ▸ hr), honce, fun hr => hlock (hrole ▸ hr)⟩

/-- A frame that holds a host lock is the one the lock names. -/
theorem holdsHost_locked {g : Frame} (h : Everywhere (Frame.Fits t m) rest) (hg : g ∈ rest)
    (hp : g.holdsHost = some p) : (m.pools p).hostOwner.locked = some t := by
  obtain ⟨_, _, _, hfit, -⟩ := h.of_mem hg
  cases g <;> simp only [Frame.holdsHost, reduceCtorEq] at hp
  split at hp <;> cases hp
  exact hfit.2.2.2.2.2.1 ‹_›

/-- A scope call takes a step that leaves locks and calls alone. -/
theorem Placed.scopeSilent {s : Nat} {pc pc' : ScopePc}
    (h : Placed t m ⟨ctx, .scope p s pc :: rest, op⟩) (hs : m.SameLife m')
    (hprev : ∀ c, pc'.previous = some c → pc.previous = some c) (hrole : pc'.role = pc.role)
    (hseated : pc'.seated = pc.seated) : Placed t m' ⟨ctx, .scope p s pc' :: rest, op'⟩ :=
  (h.sameLife hs).goto (scope_fits (h.sameLife hs).fits.1 hprev hrole)
    (by simp [Frame.context, hrole, hseated]) (fun _ => rfl) (fun _ => rfl) nofun

/-- An outsider tries to become the host. -/
theorem Placed.tryHost {s : Nat} {previous : Context}
    (h : Placed t m ⟨ctx, .scope p s (.tryHost previous) :: rest, op⟩)
    (hs : XynokConcurrency.scopeStep t spurious m ctx p s (.tryHost previous) =
      some (m', ctx', fs)) : Placed t m' ⟨ctx', fs ++ rest, op'⟩ := by
  obtain ⟨hp, hsc, hroot, hcaller, hprev, -, -, honce, -⟩ := h.fits.1
  simp only [XynokConcurrency.scopeStep] at hs
  split at hs <;> cases hs
  · rename_i hfree
    have ho : CallOp t m _ := .lockHost p hfree
    refine h.recast ho.grows (fun g _ => (ho.keepsFrames t).frame g) (.modPool rfl)
      (fun hrest => ⟨?_, hrest⟩) (fun hctx => ?_) (fun _ => rfl) (fun _ => rfl) fun s hmem => ?_
    · refine ⟨hp, hsc, hroot, hcaller, fun c hc => ?_, fun _ => by simp, (by simp [ScopePc.role]), honce,
        fun _ g hg hhold => ?_⟩
      · exact (hprev c hc).trans (contextOf_grows ho.grows h.fits.2).symm
      · rw [holdsHost_locked h.fits.2 hg hhold] at hfree
        cases hfree
    · exact h.context.trans hctx.symm
    · simpa using hmem
  · have hsame : m.SameLife
        ((m.setDeque (.helper s) (.new 1 acceptsCapacity_one)).setQueue (.helperInbox s) .new) :=
      (Mem.SameLife.setDeque _ _).trans (.setQueue _ _)
    have h' := h.sameLife hsame
    obtain ⟨hp, hsc, hroot, hcaller, hprev, -, -, honce, -⟩ := h'.fits.1
    exact h'.goto ⟨hp, hsc, hroot, hcaller, hprev, (by simp [ScopePc.role]), (by simp [ScopePc.role]), honce, (by simp [ScopePc.role])⟩ rfl
      (fun _ => rfl) (fun _ => rfl) (by simp)

/-- A host puts its context in place. -/
theorem seat_context {s : Nat} {role : Role} {previous : Context} {index : Nat}
    (hindex : (m.pools p).hostIndex = index) (hctx : ctx = contextOf m rest) :
    (match role with
      | .host => ⟨p, index⟩
      | _ => ctx) = contextOf m (.scope p s (.closure role previous) :: rest) := by
  cases role <;> simp [contextOf, Frame.context, ScopePc.seated, ScopePc.role, hindex, hctx]

/-- The closure of a scope is entered. -/
theorem Placed.enterClosure {s : Nat} {role : Role} {previous : Context}
    (h : Placed t m ⟨ctx, .scope p s (.enter role previous) :: rest, op⟩)
    (hs : XynokConcurrency.scopeStep t spurious m ctx p s (.enter role previous) =
      some (m', ctx', fs)) : Placed t m' ⟨ctx', fs ++ rest, op'⟩ := by
  have hfit := h.fits.1
  have hctx : ctx = contextOf m rest := h.context
  simp only [XynokConcurrency.scopeStep] at hs
  split at hs <;> cases hs
  · have hsame := Mem.SameLife.refl m
    refine h.recast (.refl m) (fun g _ => (hsame.keepsFrames t).frame g) (hsame.keepsCalls t)
      (fun hrest => ⟨trivial, trivial, scope_fits hfit (fun _ => id) rfl, hrest⟩)
      (fun _ => seat_context rfl hctx) (fun _ => rfl) (fun _ => rfl) fun r hmem => ?_
    simpa using hmem
  · obtain ⟨hp, hsc, hroot, hcaller, -⟩ := hfit
    have ho : CallOp t m _ := .openScope s hsc (hroot ▸ hp) hcaller
    have hf := fits_keeps ho.grows (fun g _ => (ho.keepsFrames t).frame g) h.fits
    have hrest := contextOf_grows ho.grows h.fits.2
    refine ⟨seat_context rfl (hctx.trans hrest.symm),
      ⟨trivial, scope_fits hf.1 (fun _ => id) rfl, hf.2⟩, h.callers, fun r => ?_, fun r ho hc => ?_⟩
    · have hcount := h.spawners r
      rcases eq_or_ne r s with rfl | hr
      · simpa [List.countP_cons, Frame.isSpawn] using hcount
      · simpa [List.countP_cons, Frame.isSpawn, hr] using hcount
    · rcases eq_or_ne r s with rfl | hr
      · exact List.mem_cons_self
      · simp only [Mem.modScope_scopes, Function.update_of_ne hr] at ho hc
        have hmem := h.opened r ho hc
        simp only [List.mem_cons, reduceCtorEq, false_or] at hmem
        exact List.mem_cons_of_mem _ (List.mem_cons_of_mem _ hmem)

/-- The host lock is given back at the end of the call. -/
theorem Placed.dropHostOwner {s : Nat} {role : Role} {result : Outcome}
    (h : Placed t m ⟨ctx, .scope p s (.dropHostOwner role result) :: rest, op⟩)
    (hl : Linked t (.scope p s (.dropHostOwner role result) :: rest))
    (hs : XynokConcurrency.scopeStep t spurious m ctx p s (.dropHostOwner role result) =
      some (m', ctx', fs)) : Placed t m' ⟨ctx', fs ++ rest, op'⟩ := by
  obtain ⟨hp, -, -, -, -, hhost, -, -, honce⟩ := h.fits.1
  simp only [XynokConcurrency.scopeStep] at hs
  split at hs <;> cases hs
  · have ho : OwnerOp t m _ := .unlockHost p (hhost rfl)
    refine h.recast ho.grows (fun g hg => ?_) (.modPool rfl)
      (fun hrest => ⟨ret_fits hl (by simp) (by simp), hrest⟩) (fun hctx => ?_) (fun _ => rfl) (fun _ => rfl)
      fun r hmem => ?_
    · refine ⟨fun q hq _ hlock => ?_, fun q _ _ hman => ?_, fun q _ _ _ => ?_, fun q i _ _ he => ?_⟩
      · have hne : q ≠ p := by
          rintro rfl
          exact honce rfl g hg hq
        simpa [hne] using hlock
      · rcases eq_or_ne q p with rfl | hne
        · simpa using { hman with }
        · simpa [hne] using hman
      · rcases eq_or_ne q p with rfl | hne
        · simp
        · simp [hne]
      · rcases eq_or_ne q p with rfl | hne
        · simpa using he
        · simpa [hne] using he
    · exact h.context.trans hctx.symm
    · simpa using hmem
  · exact h.goto (ret_fits hl (by simp) (by simp)) (by simp [Frame.context, ScopePc.seated]) (fun _ => rfl)
      (fun _ => rfl) (by simp)

/-- {lit}`ThreadPool::scope`. -/
theorem Placed.scopeStep {s : Nat} {pc : ScopePc} {spurious : Bool}
    (h : Placed t m ⟨ctx, .scope p s pc :: rest, op⟩) (hl : Linked t (.scope p s pc :: rest))
    (hs : scopeStep t spurious m ctx p s pc = some (m', ctx', fs)) :
    Placed t m' ⟨ctx', fs ++ rest, op'⟩ := by
  have hfit := h.fits.1
  have hctx := h.context
  cases pc with
  | start =>
      obtain ⟨hp, hsc, hroot, hcaller, -, -, -, honce, -⟩ := hfit
      simp only [XynokConcurrency.scopeStep] at hs
      split at hs <;> cases hs
      · refine h.goto ⟨hp, hsc, hroot, hcaller, ?_, (by simp [ScopePc.role]), (by simp [ScopePc.role]), honce, (by simp [ScopePc.role])⟩ rfl
          (fun _ => rfl) (fun _ => rfl) (by simp)
        rintro c ⟨⟩
        exact hctx
      · rename_i hpool
        refine h.goto ⟨hp, hsc, hroot, hcaller, ?_, (by simp [ScopePc.role]), fun _ => ?_, honce, (by simp [ScopePc.role])⟩ rfl
          (fun _ => rfl) (fun _ => rfl) (by simp)
        · rintro c ⟨⟩
          exact hctx
        · have : ctx = contextOf m rest := hctx
          rw [← this]
          exact not_not.mp hpool
  | tryHost previous => exact h.tryHost hs
  | enter role previous => exact h.enterClosure hs
  | closure role previous => cases hs
  | cancelLoad role previous x =>
      simp only [XynokConcurrency.scopeStep] at hs
      split at hs <;> cases hs <;>
        exact h.scopeSilent (.refl m) (fun _ => id) rfl rfl
  | cancelCas role previous x =>
      simp only [XynokConcurrency.scopeStep] at hs
      split at hs <;> cases hs
      · exact h.scopeSilent (.refl m) (fun _ => id) rfl rfl
      · exact h.scopeSilent (.modScope fun _ => rfl) (fun _ => id) rfl rfl
  | runUntil role previous outcome =>
      simp only [XynokConcurrency.scopeStep] at hs
      split at hs
      · rename_i w hw
        cases hs
        have hnext : (Frame.scope p s (.waiting role previous outcome)).Fits t m rest :=
          scope_fits hfit (fun _ => id) rfl
        refine h.replace ⟨?_, hnext, h.fits.2⟩ ?_ (fun _ => rfl) (fun _ => rfl) (by simp)
        · obtain ⟨hp, -, -, hcaller, -⟩ := hfit
          cases role with
          | helper =>
              cases hw
              exact ⟨hp, hcaller, _, List.mem_cons_self⟩
          | host | inside =>
              simp only [currentWorker] at hw
              split at hw <;> cases hw
              rename_i hpool
              exact ⟨hp, hctx.symm.trans (by simp [← hpool])⟩
        · simp [contextOf, Frame.context, ScopePc.seated, ScopePc.role]
      · cases hs
  | waiting role previous outcome => cases hs
  | restore role previous outcome =>
      cases hs
      refine ⟨?_, ⟨scope_fits hfit (by rintro _ ⟨⟩) rfl, h.fits.2⟩, h.callers, h.spawners, fun r ho hc => ?_⟩
      · have hprev := hfit.2.2.2.2.1 previous rfl
        cases role <;> first | exact hprev | exact hctx
      · simpa using h.opened r ho hc
  | takeLock role outcome =>
      simp only [XynokConcurrency.scopeStep] at hs
      split at hs <;> cases hs
      exact h.scopeSilent (.modScope fun _ => rfl) (by rintro _ ⟨⟩) rfl rfl
  | takePanic role outcome =>
      cases hs
      exact h.scopeSilent (.modScope fun _ => rfl) (by rintro _ ⟨⟩) rfl rfl
  | takeUnlock role outcome jobPanic =>
      cases hs
      exact h.scopeSilent (.modScope fun _ => rfl) (by rintro _ ⟨⟩) rfl rfl
  | matchOutcome role outcome jobPanic =>
      cases hs
      exact h.scopeSilent (.modScope fun _ => rfl) (by rintro _ ⟨⟩) rfl rfl
  | dropHelper role result =>
      simp only [XynokConcurrency.scopeStep] at hs
      split at hs <;> cases hs
      · refine h.silent ((Mem.SameLife.setDeque _ _).trans (.setQueue _ _))
          (fun hfit hrest => ⟨trivial, hfit, hrest⟩) rfl (fun _ => rfl) (fun _ => rfl) (by simp)
      · exact h.scopeSilent (.refl m) (by rintro _ ⟨⟩) rfl rfl
  | dropHostOwner role result => exact h.dropHostOwner hl hs

/-- The innermost frame calls others, below which all stays the same. -/
theorem Placed.calls {stack : List Frame} (h : Placed t m ⟨ctx, stack, op⟩) (hg : m.Grows m')
    (hk : m.KeepsFrames t m') (hctx : contextOf m' (fs ++ stack) = contextOf m' stack)
    (hfits : Everywhere (Frame.Fits t m') stack → Everywhere (Frame.Fits t m') (fs ++ stack))
    (hcall : ∀ q, (m'.pools q).callers.count t =
      (m.pools q).callers.count t + fs.countP (Frame.isCall q))
    (hspawn : ∀ s, (m'.scopes s).spawners.count t =
      (m.scopes s).spawners.count t + fs.countP (Frame.isSpawn s))
    (hopened : ∀ s, (m'.scopes s).opened = true → (m'.scopes s).caller = t →
      (m.scopes s).opened = true ∧ (m.scopes s).caller = t) :
    Placed t m' ⟨ctx, fs ++ stack, op'⟩ := by
  refine ⟨?_, hfits (fits_keeps hg (fun g _ => hk.frame g) h.fits), fun q => ?_, fun s => ?_,
    fun s ho hc => ?_⟩
  · rw [hctx, contextOf_grows hg h.fits]
    exact h.context
  · rw [hcall, h.callers, List.countP_append, Nat.add_comm]
  · rw [hspawn, h.spawners, List.countP_append, Nat.add_comm]
  · obtain ⟨ho, hc⟩ := hopened s ho hc
    exact List.mem_append_right _ (h.opened s ho hc)

/-- The scope of a frame on the stack exists. -/
theorem scopeId_lt {g : Frame} {s : Nat} (h : Everywhere (Frame.Fits t m) rest) (hg : g ∈ rest)
    (hs : g.scopeId = some s) : s < m.nextScope := by
  obtain ⟨_, _, _, hfit, -⟩ := h.of_mem hg
  cases g <;> simp only [Frame.scopeId, reduceCtorEq, Option.some.injEq] at hs
  subst hs
  exact hfit.2.1

/-- User code calls {lit}`scope` or {lit}`run_batch`. -/
theorem Placed.enterScope {u : UserCode} {isBatch : Bool} (hok : PoolsOk m)
    (h : Placed t m ⟨ctx, .user u :: rest, op⟩)
    (hs : XynokConcurrency.enterScope t m p isBatch = some (m', fs)) :
    Placed t m' ⟨ctx, fs ++ .user u :: rest, op'⟩ := by
  simp only [XynokConcurrency.enterScope] at hs
  split at hs <;> cases hs
  rename_i hu
  have ho : CallOp t m _ := .enterScope p isBatch hu
  have hp : m.PoolId p := ((hok.pools p).usable hu).1
  refine h.calls ho.grows (ho.keepsFrames t) rfl (fun hstack => ?_) (fun q => ?_) (fun s => ?_)
    fun s => ?_
  · refine ⟨⟨hp, Nat.lt_succ_self _, by simp [Scope.new], by simp [Scope.new], (by rintro _ ⟨⟩), (by simp [ScopePc.role]), (by simp [ScopePc.role]),
      fun g hg hid => ?_, (by simp [ScopePc.role])⟩, hp, hstack⟩
    rcases List.mem_cons.mp hg with rfl | hg
    · cases hid
    · exact (scopeId_lt h.fits hg hid).false
  · rcases eq_or_ne q p with rfl | hq
    · simp [Frame.isCall]
    · simp [Frame.isCall, hq]
  · rcases eq_or_ne s m.nextScope with rfl | hs
    · simp [Scope.new, hok.fresh_spawners, Frame.isSpawn]
    · simp [hs, Frame.isSpawn]
  · rcases eq_or_ne s m.nextScope with rfl | hs
    · simp [Scope.new]
    · simpa [hs] using fun ho hc => ⟨ho, hc⟩

/-- User code calls {lit}`push`. -/
theorem Placed.push {u : UserCode} (hok : PoolsOk m) (h : Placed t m ⟨ctx, .user u :: rest, op⟩)
    (hs : XynokConcurrency.userCall t m (.push p) = some (m', fs)) :
    Placed t m' ⟨ctx, fs ++ .user u :: rest, op'⟩ := by
  simp only [XynokConcurrency.userCall] at hs
  split at hs <;> cases hs
  rename_i hu
  have ho : CallOp t m _ := .enter p hu
  have hp : m.PoolId p := ((hok.pools p).usable hu).1
  have hcalls : Placed t (m.modPool p fun inner => { inner with callers := t :: inner.callers })
      ⟨ctx, [.enqueue p m.nextJob, .callEnd p] ++ .user u :: rest, op'⟩ := by
    refine h.calls ho.grows (ho.keepsFrames t) rfl (fun hstack => ⟨⟨hp, (by simp)⟩, hp, hstack⟩)
      (fun q => ?_) (fun s => rfl) fun s ho hc => ⟨ho, hc⟩
    rcases eq_or_ne q p with rfl | hq
    · simp [Frame.isCall]
    · simp [Frame.isCall, hq]
  exact hcalls.sameLife ⟨fun _ => rfl, fun _ => rfl, rfl, rfl⟩

/-- User code calls {lit}`spawn`. -/
theorem Placed.borrow {u : UserCode} {s : Nat} (hok : PoolsOk m)
    (h : Placed t m ⟨ctx, .user u :: rest, op⟩)
    (hs : XynokConcurrency.userCall t m (.spawn s) = some (m', fs)) :
    Placed t m' ⟨ctx, fs ++ .user u :: rest, op'⟩ := by
  simp only [XynokConcurrency.userCall] at hs
  split at hs <;> cases hs
  rename_i ho
  have hop : CallOp t m _ := .borrow s ho
  obtain ⟨hsc, hp⟩ := hok.opened s ho
  refine h.calls hop.grows (hop.keepsFrames t) rfl (fun hstack => ⟨⟨hp, hsc, by simp⟩, hsc, hstack⟩)
    (fun q => by simp [Frame.isCall]) (fun r => ?_) fun r => ?_
  · rcases eq_or_ne r s with rfl | hr
    · simp [Frame.isSpawn]
    · simp [Frame.isSpawn, hr]
  · rcases eq_or_ne r s with rfl | hr
    · simpa using fun ho hc => ⟨ho, hc⟩
    · simpa [hr] using fun ho hc => ⟨ho, hc⟩

/-- User code calls {lit}`ThreadPool::new`. -/
theorem Placed.newPool {u : UserCode} {cfg : CfgThreadPool} {availableCores : Nat} (hok : PoolsOk m)
    (h : Placed t m ⟨ctx, .user u :: rest, op⟩)
    (hs : XynokConcurrency.userCall t m (.newPool cfg availableCores) = some (m', fs)) :
    Placed t m' ⟨ctx, fs ++ .user u :: rest, op'⟩ := by
  simp only [XynokConcurrency.userCall] at hs
  split at hs <;> cases hs
  · have hpos : 0 < max (min cfg.workerCount availableCores) 1 := by simp
    have h' : Placed t (m.setQueue (.tasks m.nextPool) .new) _ := h.sameLife (.setQueue _ _)
    have ho : CallOp t (m.setQueue (.tasks m.nextPool) .new) _ := .newPool _
      (Nat.nextPowerOfTwo (max cfg.perWorkerTaskCapacity 1)) hpos
    refine h'.calls ho.grows (ho.keepsFrames t) rfl (fun hstack => ⟨?_, hstack⟩) (fun q => ?_)
      (fun s => rfl) fun s ho hc => ⟨ho, hc⟩
    · refine ⟨⟨hok.pos, Nat.lt_succ_self _⟩, ?_, ?_, ?_⟩
      · constructor <;> simp [ThreadPoolInner.new]
      · simp [ThreadPoolInner.new]
      · simp [NewPc.Built, ThreadPoolInner.new]
    · rcases eq_or_ne q m.nextPool with rfl | hq
      · simp [ThreadPoolInner.new, hok.fresh_callers, Frame.isCall]
      · simp [hq, Frame.isCall]
  · exact h.calls (.refl m) ((Mem.SameLife.refl m).keepsFrames t) rfl (fun hstack => ⟨(by rintro _ ⟨⟩), hstack⟩)
      (fun q => rfl) (fun s => rfl) fun s ho hc => ⟨ho, hc⟩

/-- User code drops a pool. -/
theorem Placed.dropPool {u : UserCode} (hok : PoolsOk m)
    (h : Placed t m ⟨ctx, .user u :: rest, op⟩)
    (hs : XynokConcurrency.userCall t m (.dropPool p) = some (m', fs)) :
    Placed t m' ⟨ctx, fs ++ .user u :: rest, op'⟩ := by
  simp only [XynokConcurrency.userCall] at hs
  split at hs <;> cases hs
  rename_i hd
  obtain ⟨hu, hc⟩ := hd
  have ho : CallOp t m _ := .dropPool p hu hc
  obtain ⟨hp, -, hinit⟩ := (hok.pools p).usable hu
  refine h.calls ho.grows (ho.keepsFrames t) rfl (fun hstack => ?_) (fun q => ?_) (fun s => rfl)
    fun s ho hc => ⟨ho, hc⟩
  · have hman : ThreadPoolInner.Managed
        { m.pools p with usable := false, manager := some t } t := ⟨rfl, rfl, hc⟩
    refine ⟨⟨hp, by simpa using hman, ?_, trivial⟩, ⟨hp, by simpa using hman, by simpa using hinit,
      fun hne => (hne rfl).elim⟩, hstack⟩
    simpa using (hok.pools p).spawned
  · rcases eq_or_ne q p with rfl | hq
    · simp [Frame.isCall]
    · simp [Frame.isCall, hq]

/-- User code calls a method, builds a pool or drops one. -/
theorem Placed.userCall {u : UserCode} {a : UserAct} (hok : PoolsOk m)
    (h : Placed t m ⟨ctx, .user u :: rest, op⟩)
    (hs : XynokConcurrency.userCall t m a = some (m', fs)) :
    Placed t m' ⟨ctx, fs ++ .user u :: rest, op'⟩ := by
  cases a with
  | push p => exact h.push hok hs
  | scope p => exact h.enterScope hok hs
  | runBatch p => exact h.enterScope hok hs
  | spawn s => exact h.borrow hok hs
  | newPool cfg availableCores => exact h.newPool hok hs
  | dropPool p => exact h.dropPool hok hs
  | yield | finish | panic x => cases hs

/-- The closure of a scope is over. -/
theorem Placed.closeScope {s : Nat} {o : Outcome} (h : Placed t m ⟨ctx, .user (.closure s) :: rest, op⟩)
    (hl : Linked t (.user (.closure s) :: rest)) (hsp : (m.scopes s).spawners = []) :
    Placed t (m.modScope s fun scope => { scope with opened := false }) ⟨ctx, .ret o :: rest, op'⟩ := by
  have hcaller : (m.scopes s).caller = t := by
    cases rest with
    | nil => exact hl.1.elim
    | cons g rest =>
        obtain ⟨p, role, previous, rfl⟩ := hl.1
        exact h.fits.2.1.2.2.2.1
  have ho : CallOp t m _ := .closeScope s hcaller hsp
  refine ⟨h.context.trans (contextOf_grows ho.grows h.fits.2).symm,
    ⟨ret_fits hl nofun nofun, fits_keeps ho.grows (fun g _ => (ho.keepsFrames t).frame g) h.fits.2⟩,
    h.callers, fun r => ?_, fun r ho hc => ?_⟩
  · have hcount := h.spawners r
    rcases eq_or_ne r s with rfl | hr
    · simpa [List.countP_cons, Frame.isSpawn] using hcount
    · simpa [List.countP_cons, Frame.isSpawn, hr] using hcount
  · rcases eq_or_ne r s with rfl | hr
    · simp at ho
    · simp only [Mem.modScope_scopes, Function.update_of_ne hr] at ho hc
      have hmem := h.opened r ho hc
      simp only [List.mem_cons, Frame.user.injEq, UserCode.closure.injEq, hr, false_or] at hmem
      exact List.mem_cons_of_mem _ hmem

/-- A piece of user code ends. -/
theorem Placed.userEnd {u : UserCode} {o : Outcome} (h : Placed t m ⟨ctx, .user u :: rest, op⟩)
    (hl : Linked t (.user u :: rest)) (hs : userEnd m u o = some (m', fs)) :
    Placed t m' ⟨ctx, fs ++ rest, op'⟩ := by
  cases u with
  | main =>
      cases hs
      exact h.silent (.refl m) (fun _ hrest => hrest) rfl (fun _ => rfl) (fun _ => rfl) nofun
  | body j =>
      cases hs
      exact h.silent (.modJob _) (fun _ hrest => ⟨ret_fits hl nofun nofun, hrest⟩) rfl (fun _ => rfl)
        (fun _ => rfl) nofun
  | closure s =>
      simp only [XynokConcurrency.userEnd] at hs
      split at hs <;> cases hs
      exact h.closeScope hl ‹_›
  | intoIter s =>
      cases hs
      exact h.silent (.refl m) (fun _ hrest => ⟨ret_fits hl nofun nofun, hrest⟩) rfl (fun _ => rfl)
        (fun _ => rfl) nofun
  | iterNext s =>
      simp only [XynokConcurrency.userEnd] at hs
      split at hs <;> cases hs
      · exact h.silent (.modScope fun _ => rfl) (fun _ hrest => ⟨ret_fits hl nofun nofun, hrest⟩) rfl
          (fun _ => rfl) (fun _ => rfl) nofun
      · exact h.silent (.refl m) (fun _ hrest => ⟨ret_fits hl nofun nofun, hrest⟩) rfl (fun _ => rfl)
          (fun _ => rfl) nofun

/-- A step of user code. -/
theorem Placed.userStep {u : UserCode} {a : UserAct} (hok : PoolsOk m)
    (h : Placed t m ⟨ctx, .user u :: rest, op⟩) (hl : Linked t (.user u :: rest))
    (hs : userStep t m u a = some (m', fs)) : Placed t m' ⟨ctx, fs ++ rest, op'⟩ := by
  unfold XynokConcurrency.userStep at hs
  split at hs
  · split at hs <;> exact h.userEnd hl hs
  · split at hs
    · exact h.userEnd hl hs
    · cases hs
  · exact h.userEnd hl hs
  · split at hs
    · rename_i hc
      cases hs
      rw [List.append_assoc]
      exact h.userCall hok hc
    · cases hs

/-- A method of a pool is over. -/
theorem Placed.callDone {o : Outcome} (h : Placed t m ⟨ctx, .callDone p o :: rest, op⟩)
    (hl : Linked t (.callDone p o :: rest)) :
    Placed t (m.modPool p fun inner => { inner with callers := inner.callers.erase t })
      ⟨ctx, .ret o :: rest, op'⟩ := by
  have ho : CallOp t m _ := .leave p
  refine ⟨h.context.trans (contextOf_grows ho.grows h.fits.2).symm,
    ⟨ret_fits hl nofun nofun, fits_keeps ho.grows (fun g _ => (ho.keepsFrames t).frame g) h.fits.2⟩,
    fun q => ?_, h.spawners, fun s ho hc => ?_⟩
  · have hcount := h.callers q
    rcases eq_or_ne q p with rfl | hq
    · simp [Frame.isCall, List.count_erase_self] at hcount ⊢
      omega
    · simpa [List.countP_cons, Frame.isCall, hq] using hcount
  · simpa using h.opened s ho hc

/-- {lit}`spawn` is over. -/
theorem Placed.spawnDone {s : Nat} {o : Outcome} (h : Placed t m ⟨ctx, .spawnDone s o :: rest, op⟩)
    (hl : Linked t (.spawnDone s o :: rest)) :
    Placed t (m.modScope s fun scope => { scope with spawners := scope.spawners.erase t })
      ⟨ctx, .ret o :: rest, op'⟩ := by
  have ho : CallOp t m _ := .giveBack s
  refine ⟨h.context.trans (contextOf_grows ho.grows h.fits.2).symm,
    ⟨ret_fits hl nofun nofun, fits_keeps ho.grows (fun g _ => (ho.keepsFrames t).frame g) h.fits.2⟩,
    h.callers, fun r => ?_, fun r ho hc => ?_⟩
  · have hcount := h.spawners r
    rcases eq_or_ne r s with rfl | hr
    · simp [Frame.isSpawn, List.count_erase_self] at hcount ⊢
      omega
    · simpa [List.countP_cons, Frame.isSpawn, hr] using hcount
  · have hopened : (m.scopes r).opened = true := by
      rcases eq_or_ne r s with rfl | hr
      · simpa using ho
      · simpa [hr] using ho
    have hcaller : (m.scopes r).caller = t := by
      rcases eq_or_ne r s with rfl | hr
      · simpa using hc
      · simpa [hr] using hc
    simpa using h.opened r hopened hcaller

/-- A worker steps its loop. -/
theorem Placed.loopStep {i tick rounds : Nat} {pc : LoopPc} (hok : PoolsOk m)
    (h : Placed t m ⟨ctx, .loop p i tick rounds pc :: rest, op⟩)
    (hl : Linked t (.loop p i tick rounds pc :: rest))
    (hs : loopStep m ctx p i tick rounds pc = some (m', ctx', fs)) :
    Placed t m' ⟨ctx', fs ++ rest, op'⟩ := by
  obtain rfl : rest = [] := by
    cases rest with
    | nil => rfl
    | cons g rest => exact hl.1.elim
  obtain ⟨ht, hexit, hborn, hseated⟩ := h.fits.1
  have hend : Placed t (m.modPool p fun inner =>
      { inner with exited := Function.update inner.exited i true }) ⟨.NONE, [], op'⟩ := by
    refine ⟨rfl, trivial, fun q => ?_, h.spawners, fun s ho hc => ?_⟩
    · have hcount := h.callers q
      rcases eq_or_ne q p with rfl | hq
      · simpa [Frame.isCall] using hcount
      · simpa [Frame.isCall, hq] using hcount
    · simpa using h.opened s ho hc
  cases pc with
  | unborn =>
      simp only [XynokConcurrency.loopStep] at hs
      split at hs <;> cases hs
      rename_i hsp
      have hp : m.PoolId p := by
        by_contra hp
        have hlt := (hok.pools p).spawned i hsp
        rw [hok.blank p hp] at hlt
        exact absurd hlt (Nat.not_lt_zero i)
      exact h.goto ⟨ht, hexit, fun _ => ⟨hp, hsp⟩, (by simp [LoopPc.seated])⟩ rfl (fun _ => rfl) (fun _ => rfl) (by simp)
  | warmRunning =>
      simp only [XynokConcurrency.loopStep] at hs
      split at hs <;> cases hs
      · exact h.goto ⟨ht, hexit, fun _ => hborn (by simp), (by simp [LoopPc.seated])⟩ rfl (fun _ => rfl) (fun _ => rfl) (by simp)
      · exact hend
  | warmInit =>
      simp only [XynokConcurrency.loopStep] at hs
      split at hs <;> cases hs
      · exact h.goto ⟨ht, hexit, fun _ => hborn (by simp), fun _ => ‹_›⟩ rfl (fun _ => rfl)
          (fun _ => rfl) (by simp)
      · exact h.goto ⟨ht, hexit, fun _ => hborn (by simp), (by simp [LoopPc.seated])⟩ rfl (fun _ => rfl) (fun _ => rfl) (by simp)
  | setCtx =>
      cases hs
      refine ⟨by simp [contextOf, Frame.context, LoopPc.seated],
        ⟨⟨ht, hexit, fun _ => hborn (by simp), fun _ => hseated (.inl rfl)⟩, trivial⟩, h.callers,
        h.spawners, fun s ho hc => by simpa using h.opened s ho hc⟩
  | running =>
      simp only [XynokConcurrency.loopStep] at hs
      split at hs <;> cases hs
      · exact h.silent (.refl m)
          (fun hfit hrest => ⟨loop_owned hfit rfl rfl, loop_fits hfit rfl, hrest⟩) rfl
          (fun _ => rfl) (fun _ => rfl) (by simp)
      · exact hend
  | popping => cases hs
  | stealing => cases hs
  | sleeping => cases hs

/-- The frame is one of taking something down, or a result. -/
def Frame.teardown : Frame → Bool
  | .newPool .. | .shutdown .. | .dropPool .. | .dropJobs .. | .dropEnv .. | .ret .. => true
  | _ => false

/-- Only what takes something down calls what takes something down. -/
theorem Frame.Under.teardown {g : Frame} (h : f.Under g) (hf : f.teardown = false) :
    g.teardown = false := by
  cases f <;> simp only [Frame.teardown, reduceCtorEq] at hf <;> simp only [Frame.Under] at h
  case user u =>
    cases u <;> simp only at h
    · obtain rfl | ⟨s, rfl⟩ := h <;> rfl
    · obtain ⟨_, _, _, rfl⟩ := h; rfl
    · obtain ⟨_, rfl⟩ := h; rfl
    · obtain ⟨_, _, _, rfl⟩ := h; rfl
  case spawn | spawnWait | scope | publish => subst h; rfl
  case callEnd | callDone | spawnEnd | spawnDone => obtain ⟨_, rfl⟩ := h; rfl
  case enqueue | enqueueWait | wake => obtain rfl | ⟨_, rfl⟩ := h <;> rfl
  case runUntil => obtain ⟨_, _, _, rfl⟩ := h; rfl
  case pop =>
    obtain ⟨_, _, rfl⟩ | ⟨_, rfl⟩ | ⟨_, _, rfl⟩ | ⟨_, _, _, _, _, rfl⟩ := h <;> rfl
  case steal => obtain ⟨_, rfl⟩ | ⟨_, _, _, _, rfl⟩ := h <;> rfl
  case task => obtain ⟨_, rfl⟩ | ⟨_, _, rfl⟩ := h <;> rfl
  case batch => obtain ⟨_, _, rfl⟩ := h; rfl
  case inboxes => obtain ⟨rfl, _⟩ | ⟨_, _, _, rfl, _⟩ := h <;> rfl
  case assign => obtain rfl | ⟨_, _, _, rfl⟩ := h <;> rfl
  case sleep => obtain ⟨_, _, rfl⟩ := h; rfl

/-- Nothing below user code takes anything down. -/
theorem Linked.no_teardown (h : Linked t (f :: rest)) (hf : f.teardown = false) :
    ∀ g ∈ rest, g.teardown = false := by
  induction rest generalizing f with
  | nil => simp
  | cons g rest ih =>
      have hg : g.teardown = false := Frame.Under.teardown h.1 hf
      intro k hk
      rcases List.mem_cons.mp hk with rfl | hk
      · exact hg
      · exact ih h.2 hg k hk

/-- A frame that takes nothing down manages no pool. -/
theorem Frame.manages_eq_none {g : Frame} (h : g.teardown = false) :
    g.manages = none ∧ g.builds = none := by
  cases g <;> first | exact ⟨rfl, rfl⟩ | cases h

/-- A change of a pool that spares locks and ends is none to a frame that manages
no pool. -/
theorem Mem.KeepsFrame.modPool {change : ThreadPoolInner → ThreadPoolInner} {g : Frame}
    (hg : g.teardown = false)
    (hhost : (change (m.pools p)).hostOwner = (m.pools p).hostOwner)
    (hexit : (change (m.pools p)).exited = (m.pools p).exited) :
    m.KeepsFrame t (m.modPool p change) g := by
  obtain ⟨hmanages, hbuilds⟩ := Frame.manages_eq_none hg
  refine ⟨fun q _ _ hlock => ?_, fun q hq => ?_, fun q hq => ?_, fun q i _ _ he => ?_⟩
  · rcases eq_or_ne q p with rfl | hne
    · simpa [hhost] using hlock
    · simpa [hne] using hlock
  · rw [hmanages] at hq
    cases hq
  · rw [hbuilds] at hq
    cases hq
  · rcases eq_or_ne q p with rfl | hne
    · simpa [hexit] using he
    · simpa [hne] using he

/-- The frames below user code take nothing down. -/
theorem user_rest (hl : Linked t (f :: rest)) (hu : ∀ g, f.Under g → ∃ u, g = .user u) {g : Frame}
    (hg : g ∈ rest) : g.teardown = false := by
  cases rest with
  | nil => cases hg
  | cons k rest =>
      obtain ⟨u, rfl⟩ := hu k hl.1
      rcases List.mem_cons.mp hg with rfl | hg
      · rfl
      · exact Linked.no_teardown hl.2 rfl g hg

/-- What lies below a frame that manages a pool: a failed constructor or a drop
below a shutdown, and otherwise frames that take nothing down. -/
theorem managed_rest (hl : Linked t (f :: rest)) (hf : f.manages = some p) {g : Frame}
    (hg : g ∈ rest) : g.teardown = false ∨ g = .newPool p .failed ∨ g = .dropPool p .shutdown := by
  cases f with
  | newPool q pc => exact .inl (user_rest hl (fun _ => id) hg)
  | dropPool q pc => exact .inl (user_rest hl (fun _ => id) hg)
  | shutdown q handles count pc =>
      cases hf
      cases rest with
      | nil => cases hg
      | cons k rest =>
          rcases List.mem_cons.mp hg with rfl | hbelow
          · exact .inr hl.1
          · obtain rfl | rfl := hl.1
            · exact .inl (user_rest hl.2 (fun _ => id) hbelow)
            · exact .inl (user_rest hl.2 (fun _ => id) hbelow)
  | _ => cases hf

/-- A constructor changes its pool. -/
theorem Placed.build {pc : NewPc} {f' : Frame} {change : ThreadPoolInner → ThreadPoolInner}
    (h : Placed t m ⟨ctx, .newPool p pc :: rest, op⟩) (hl : Linked t (.newPool p pc :: rest))
    (ho : OwnerOp t m (m.modPool p change))
    (hhost : (change (m.pools p)).hostOwner = (m.pools p).hostOwner)
    (hexit : (change (m.pools p)).exited = (m.pools p).exited)
    (hcallers : (change (m.pools p)).callers = (m.pools p).callers)
    (hfit : f'.Fits t (m.modPool p change) rest) (hctx : ∀ m₁, f'.context m₁ = none)
    (hcall : ∀ q, f'.isCall q = false) (hspawn : ∀ s, f'.isSpawn s = false) :
    Placed t (m.modPool p change) ⟨ctx, f' :: rest, op'⟩ := by
  refine h.recast ho.grows (fun g hg => .modPool (user_rest hl (fun _ => id) hg) hhost hexit)
    (.modPool (by rw [hcallers])) (fun hrest => ⟨hfit, hrest⟩) (fun hrest => ?_)
    (fun q => ?_) (fun s => ?_) fun s hmem => ?_
  · simp only [contextOf, hctx, Option.getD_none, hrest]
    exact h.context
  · rw [List.countP_cons, List.countP_cons, hcall]
    rfl
  · rw [List.countP_cons, List.countP_cons, hspawn]
    rfl
  · simp only [List.mem_cons, reduceCtorEq, false_or] at hmem
    exact List.mem_cons_of_mem _ hmem

/-- {lit}`ThreadPool::new`. -/
theorem Placed.newPoolStep {pc : NewPc} {spurious : Bool}
    (h : Placed t m ⟨ctx, .newPool p pc :: rest, op⟩) (hl : Linked t (.newPool p pc :: rest))
    (hs : newPoolStep t spurious m p pc = some (m', fs)) : Placed t m' ⟨ctx, fs ++ rest, op'⟩ := by
  obtain ⟨hp, hman, hinit, hbuilt⟩ := h.fits.1
  cases pc with
  | worker i =>
      simp only [XynokConcurrency.newPoolStep] at hs
      split at hs <;> cases hs
      exact h.silent .newWorker (fun hfit hrest => ⟨hfit, hrest⟩) rfl (fun _ => rfl) (fun _ => rfl) (by simp)
  | spawn i =>
      simp only [XynokConcurrency.newPoolStep] at hs
      split at hs <;> cases hs
      · exact h.silent (.refl m) (fun hfit hrest =>
          ⟨⟨hp, hman, fun k hk => (hbuilt.2.2 k).mp hk, trivial⟩, ⟨hp, hman, hinit, trivial⟩, hrest⟩)
          rfl (fun _ => rfl) (fun _ => rfl) (by simp)
      · refine h.build hl (.spawnWorker p i hman hinit hbuilt.1) rfl rfl rfl ?_ (fun _ => rfl)
          (fun _ => rfl) fun _ => rfl
        refine ⟨hp, by simpa using { hman with }, by simpa using hinit, ?_⟩
        obtain ⟨hi, hworkers, hspawned⟩ := hbuilt
        refine ⟨by simpa using hi, by simpa using hworkers, fun k => ?_⟩
        simp only [Mem.modPool_pools, Function.update_self]
        rcases eq_or_ne k i with rfl | hk
        · simp
        · rw [Function.update_of_ne hk, hspawned]
          omega
  | write i =>
      obtain ⟨hi, hworkers, hspawned⟩ := hbuilt
      simp only [XynokConcurrency.newPoolStep] at hs
      cases hs
      have hwritten : ∀ k, k < i + 1 →
          Function.update (m.pools p).workers i (some (.worker p i)) k ≠ none := by
        intro k hk
        rcases eq_or_ne k i with rfl | hne
        · simp
        · rw [Function.update_of_ne hne]
          exact hworkers k (by omega)
      split
      · rename_i hlt
        refine h.build hl (.writeSlot p i _ hman hinit) rfl rfl rfl ?_ (fun _ => rfl)
          (fun _ => rfl) fun _ => rfl
        refine ⟨hp, by simpa using { hman with }, by simpa using hinit, by simpa using hlt, ?_, ?_⟩
        · simpa using hwritten
        · intro k
          simp only [Mem.modPool_pools, Function.update_self, hspawned]
          omega
      · rename_i hlt
        have hlast : i + 1 = (m.pools p).totalWorker := by omega
        refine h.build hl (.writeSlot p i _ hman hinit) rfl rfl rfl ?_ (fun _ => rfl)
          (fun _ => rfl) fun _ => rfl
        refine ⟨hp, by simpa using { hman with }, by simpa using hinit, ?_, ?_⟩
        · simpa [hlast] using hwritten
        · intro k
          simp only [Mem.modPool_pools, Function.update_self, hspawned]
          omega
  | host =>
      simp only [XynokConcurrency.newPoolStep] at hs
      split at hs <;> cases hs
      rename_i hcap
      obtain ⟨hworkers, hspawned⟩ := hbuilt
      have hsame : m.SameLife (newWorker m p (m.pools p).hostIndex hcap) := .newWorker
      refine (h.sameLife hsame).build hl (.writeSlot p (m.pools p).hostIndex t hman hinit) rfl rfl rfl
        ?_ (fun _ => rfl) (fun _ => rfl) fun _ => rfl
      have hpools : (newWorker m p (m.pools p).hostIndex hcap).pools = m.pools := rfl
      refine ⟨hp, by simpa [hpools] using { hman with }, by simpa [hpools] using hinit,
        fun k hk => ?_, ?_⟩
      · simp only [Mem.modPool_pools, Function.update_self] at hk ⊢
        rcases eq_or_ne k (m.pools p).hostIndex with rfl | hne
        · simp
        · rw [Function.update_of_ne hne]
          exact hworkers k (lt_of_le_of_ne hk hne)
      · simpa [hpools] using hspawned
  | initStore =>
      cases hs
      exact h.build hl (.initStore p hp hman hbuilt) rfl rfl rfl (ret_fits hl (by simp) (by simp))
        (fun _ => rfl) (fun _ => rfl) fun _ => rfl
  | failed => cases hs

/-- A worker slot is dropped. -/
theorem Placed.dropSlot {handles count k : Nat} {js : List Nat}
    (h : Placed t m ⟨ctx, .shutdown p handles count (.dropTasks k) :: rest, op⟩)
    (hl : Linked t (.shutdown p handles count (.dropTasks k) :: rest)) :
    Placed t
      (m.modPool p fun inner => { inner with workers := Function.update inner.workers k none })
      ⟨ctx, .dropJobs js :: .shutdown p handles count (.tasksDropped k) :: rest, op'⟩ := by
  obtain ⟨hp, hman, hlt, hjoin⟩ := h.fits.1
  have ho : OwnerOp t m _ := .dropSlot p k hman (ShutdownPc.Joined.quiescent hlt hjoin)
  refine h.recast ho.grows (fun g hg => ?_) (.modPool rfl) (fun hrest => ⟨trivial, ?_, hrest⟩)
    (fun hrest => h.context.trans hrest.symm) (fun q => rfl) (fun s => rfl) fun s hmem => ?_
  · refine ⟨fun q _ _ hlock => ?_, fun q _ _ hm => ?_, fun q hq => ?_, fun q i _ _ he => ?_⟩
    · rcases eq_or_ne q p with rfl | hne
      · simpa using hlock
      · simpa [hne] using hlock
    · rcases eq_or_ne q p with rfl | hne
      · simpa using { hm with }
      · simpa [hne] using hm
    · rcases managed_rest hl rfl hg with htear | rfl | rfl
      · rw [(Frame.manages_eq_none htear).2] at hq
        cases hq
      · cases hq
      · cases hq
    · rcases eq_or_ne q p with rfl | hne
      · simpa using he
      · simpa [hne] using he
  · refine ⟨hp, by simpa using { hman with }, ?_, ?_⟩
    · simpa using hlt
    · simpa [ShutdownPc.Joined] using hjoin
  · simpa using hmem

/-- {lit}`shutdown`. -/
theorem Placed.shutdownStep {handles count : Nat} {pc : ShutdownPc}
    (h : Placed t m ⟨ctx, .shutdown p handles count pc :: rest, op⟩)
    (hl : Linked t (.shutdown p handles count pc :: rest))
    (hs : shutdownStep m p handles count pc = some (m', fs)) :
    Placed t m' ⟨ctx, fs ++ rest, op'⟩ := by
  cases pc with
  | storeRunning =>
      cases hs
      refine h.silent (.modPool fun _ => rfl) (fun hfit hrest => ⟨?_, hrest⟩) rfl (fun _ => rfl)
        (fun _ => rfl) (by simp)
      exact ⟨hfit.1, hfit.2.1, hfit.2.2.1, trivial⟩
  | unpark k =>
      simp only [XynokConcurrency.shutdownStep] at hs
      split at hs <;> cases hs
      · exact h.silent (.setToken _ _) (fun hfit hrest => ⟨hfit, hrest⟩) rfl (fun _ => rfl)
          (fun _ => rfl) (by simp)
      · refine h.silent (.refl m) (fun hfit hrest => ⟨?_, hrest⟩) rfl (fun _ => rfl)
          (fun _ => rfl) (by simp)
        exact ⟨hfit.1, hfit.2.1, hfit.2.2.1, (by rintro _ ⟨⟩)⟩
  | join k =>
      simp only [XynokConcurrency.shutdownStep] at hs
      (repeat' split at hs) <;> cases hs
      · rename_i hexit
        refine h.silent (.refl m) (fun hfit hrest => ⟨?_, hrest⟩) rfl (fun _ => rfl)
          (fun _ => rfl) (by simp)
        refine ⟨hfit.1, hfit.2.1, hfit.2.2.1, fun i hi => ?_⟩
        rcases Nat.lt_succ_iff_lt_or_eq.mp hi with hi | rfl
        · exact hfit.2.2.2 i hi
        · exact hexit
      · rename_i hk
        refine h.silent (.refl m) (fun hfit hrest => ⟨?_, hrest⟩) rfl (fun _ => rfl)
          (fun _ => rfl) (by simp)
        exact ⟨hfit.1, hfit.2.1, hfit.2.2.1, fun i hi => hfit.2.2.2 i (hi.trans_le (not_lt.mp hk))⟩
  | dropTasks k =>
      simp only [XynokConcurrency.shutdownStep] at hs
      split at hs <;> cases hs
      · have hsame : m.SameLife (m.setDeque (.slot p k) (.new 1 acceptsCapacity_one)) :=
          .setDeque _ _
        exact (h.sameLife hsame).dropSlot hl
      · refine h.silent (.refl m) (fun hfit hrest => ⟨fun q hq => ?_, hrest⟩) rfl (fun _ => rfl)
          (fun _ => rfl) (by simp)
        cases rest with
        | nil => cases hq
        | cons g rest =>
            cases hq
            obtain hu | hu := hl.1 <;> cases hu
            exact ShutdownPc.Joined.quiescent hfit.2.2.1 hfit.2.2.2
  | tasksDropped k => cases hs
  | dropInbox k =>
      cases hs
      exact h.silent (.setQueue _ _) (fun hfit hrest => ⟨trivial, hfit, hrest⟩) rfl (fun _ => rfl)
        (fun _ => rfl) (by simp)
  | inboxDropped k => cases hs

/-- A step of a frame. -/
theorem Placed.step {c : Choice} (hok : PoolsOk m) (h : Placed t m ⟨ctx, f :: rest, op⟩)
    (hl : Linked t (f :: rest)) (hs : f.step t c m ctx = some (m', ctx', fs)) :
    Placed t m' ⟨ctx', fs ++ rest, op'⟩ := by
  cases f with
  | user u =>
      simp only [Frame.step] at hs
      split at hs
      · obtain ⟨hu, rfl⟩ := keep_eq.mp hs
        exact h.userStep hok hl hu
      · cases hs
  | callDone p o =>
      cases hs
      exact h.callDone hl
  | spawnDone s o =>
      cases hs
      exact h.spawnDone hl
  | scope p s pc => exact h.scopeStep hl hs
  | loop p i tick rounds pc => exact h.loopStep hok hl hs
  | newPool p pc =>
      obtain ⟨hn, rfl⟩ := keep_eq.mp hs
      exact h.newPoolStep hl hn
  | shutdown p handles count pc =>
      obtain ⟨hd, rfl⟩ := keep_eq.mp hs
      exact h.shutdownStep hl hd
  | ret | callEnd | enqueue | enqueueWait | spawnWait | spawnEnd | pop => cases hs
  | _ => exact h.silentStep hl hs trivial

/-- A step of a thread keeps it placed. -/
theorem ThreadStep.placed {c : Choice} {th' : Thread} (hs : ThreadStep t c m th m' th')
    (hok : PoolsOk m) (h : Placed t m th) (hl : Linked t th.stack) : Placed t m' th' := by
  cases hs with
  | resume => exact h.resume hl.2
  | call hc => exact h.call hc
  | frame hf => exact h.step hok hl hf
  | answer => exact h.answer hl
  | @tick ctx stack o o' queues i hi hx =>
      have hsame : m.SameLife
          { m with
            queues := queues
            jobs := trackOrigins m.jobs (o.hands m.queues) (o'.hands queues) o.publishes } :=
        ⟨fun _ => rfl, fun _ => rfl, rfl, rfl⟩
      have h' := h.sameLife hsame
      exact ⟨h'.context, h'.fits, h'.callers, h'.spawners, h'.opened⟩

/-- A step of a thread changes locks, calls and pools in one of the listed ways. -/
theorem ThreadStep.life {c : Choice} {th' : Thread} (hs : ThreadStep t c m th m' th')
    (h : Placed t m th) (hl : Linked t th.stack) : LifeStep t m m' := by
  cases hs with
  | resume | call | answer => exact .same (.refl m)
  | frame hf => exact Frame.step_life hl h.fits hf
  | tick hi hx => exact .same ⟨fun _ => rfl, fun _ => rfl, rfl, rfl⟩

end Threads

/-! ## All threads -/

/-- All pools are in order, and so is every thread. -/
theorem poolsOk_placed {s : PoolState} (hs : poolMachine.Reachable s) (t : Tid) :
    PoolsOk s.mem ∧ Placed t s.mem (s.threads t) := by
  refine Machine.thread_invariant (A := fun t m th => PoolsOk m ∧ Placed t m th) ?_ ?_ ?_ hs t
  · rintro s rfl t
    refine ⟨⟨Nat.one_pos, fun p _ => rfl, fun p => ?_, nofun, fun s hne => (hne rfl).elim⟩, ?_⟩
    · have hp : ¬ Mem.initial.PoolId p := fun h => by
        have : p < 1 := h.2
        exact absurd h.1 (by omega)
      exact ⟨fun h => (hp h).elim, nofun, fun hne => (hne rfl).elim, nofun, nofun, nofun⟩
    · cases t with
      | worker p i => exact ⟨rfl, ⟨⟨rfl, rfl, fun hne => (hne rfl).elim, nofun⟩, trivial⟩, fun _ => rfl, fun _ => rfl, nofun⟩
      | ext e => exact ⟨rfl, ⟨trivial, trivial⟩, fun _ => rfl, fun _ => rfl, nofun⟩
  · intro s t ch m th hr _ hA h
    have hstep := threadStep_cases h
    have hl := linked hr.reachable t
    exact ⟨(hA t).1.lifeStep (hstep.life (hA t).2 hl), hstep.placed (hA t).1 (hA t).2 hl⟩
  · intro s t ch m th u hr _ hA hu h
    have hlife := (threadStep_cases h).life (hA t).2 (linked hr.reachable t)
    exact ⟨(hA t).1.lifeStep hlife,
      (hA u).2.keeps hlife.grows (hlife.keepsFrames hu) (hlife.keepsCalls (hA t).1 hu)⟩

/-- All pools are in order in every reachable state. -/
theorem poolsOk {s : PoolState} (hs : poolMachine.Reachable s) : PoolsOk s.mem :=
  (poolsOk_placed hs (.ext 0)).1

/-- Every thread is placed in every reachable state. -/
theorem placed {s : PoolState} (hs : poolMachine.Reachable s) (t : Tid) :
    Placed t s.mem (s.threads t) :=
  (poolsOk_placed hs t).2

/-! ## What a context means -/

section Discipline

variable {t u : Tid} {m : Mem} {stack : List Frame} {c : Context}

/-- A context comes from a frame that put it in place, or is none. -/
theorem contextOf_cases (h : Everywhere (Frame.Fits t m) stack) :
    contextOf m stack = .NONE ∨
      ∃ f ∈ stack, ∃ rest, f.context m = some (contextOf m stack) ∧ f.Fits t m rest := by
  induction stack with
  | nil => exact .inl rfl
  | cons f stack ih =>
      cases hf : f.context m with
      | some c =>
          exact .inr ⟨f, List.mem_cons_self, stack, by simp [contextOf, hf], h.1⟩
      | none =>
          have heq : contextOf m (f :: stack) = contextOf m stack := by simp [contextOf, hf]
          rw [heq]
          rcases ih h.2 with hnone | ⟨g, hg, hrest⟩
          · exact .inl hnone
          · exact .inr ⟨g, List.mem_cons_of_mem _ hg, hrest⟩

/-- A scope call stands in a call of its pool. -/
theorem callEnd_mem {p s : Nat} {pc : ScopePc} (hl : Linked t stack) (h : .scope p s pc ∈ stack) :
    .callEnd p ∈ stack := by
  obtain ⟨above, rest, rfl, hon, -⟩ := hl.of_mem h
  cases rest with
  | nil => exact hon.elim
  | cons g rest =>
      obtain rfl : g = .callEnd p := hon
      simp

/-- What a thread's context says about it. -/
inductive Context.Meaning (t : Tid) (m : Mem) : Context → Prop
  | none : Context.Meaning t m .NONE
  | worker {p i : Nat} (hp : m.PoolId p) (ht : t = .worker p i) (hi : i < (m.pools p).totalWorker)
      (hslot : (m.pools p).workers i ≠ none) : Context.Meaning t m ⟨p, i⟩
  | host {p : Nat} (hp : m.PoolId p) (hlock : (m.pools p).hostOwner.locked = some t)
      (hslot : (m.pools p).workers (m.pools p).hostIndex ≠ none) :
      Context.Meaning t m ⟨p, (m.pools p).hostIndex⟩

/-- Every context means that its thread is the worker, or holds the host lock, of
the pool it names. -/
theorem Placed.meaning {th : Thread} (hok : PoolsOk m) (h : Placed t m th)
    (hl : Linked t th.stack) : Context.Meaning t m th.ctx := by
  rw [h.context]
  rcases contextOf_cases h.fits with hnone | ⟨f, hf, rest, hctx, hfit⟩
  · rw [hnone]
    exact .none
  · generalize contextOf m th.stack = c at hctx
    cases f with
    | loop p i tick rounds pc =>
        simp only [Frame.context] at hctx
        split at hctx <;> cases hctx
        rename_i hseat
        obtain ⟨ht, hexit, hborn, hinit⟩ := hfit
        have hne : pc ≠ .unborn := by
          rintro rfl
          cases hseat
        obtain ⟨hp, hsp⟩ := hborn hne
        have hi := (hok.pools p).spawned i hsp
        refine .worker hp ht hi fun hslot => ?_
        have hq := ((hok.pools p).slots (hinit (.inr hseat)) i hi.le hslot).2 i hsp
        rw [hexit] at hq
        cases hq
    | scope p s pc =>
        simp only [Frame.context] at hctx
        split at hctx <;> cases hctx
        rename_i hseat
        obtain ⟨hp, -, -, -, -, hhost, -⟩ := hfit
        refine .host hp (hhost hseat.2) fun hslot => ?_
        have hcallers : (m.pools p).callers ≠ [] := by
          have hcount := h.callers p
          have hpos : 0 < th.stack.countP (Frame.isCall p) :=
            List.countP_pos_iff.mpr ⟨.callEnd p, callEnd_mem hl hf, by simp [Frame.isCall]⟩
          rintro hnil
          simp [hnil] at hcount
          omega
        have hu := (hok.pools p).callers hcallers
        have hinit := ((hok.pools p).usable hu).2.2
        have hnot := ((hok.pools p).slots hinit _ le_rfl hslot).1
        rw [hu] at hnot
        cases hnot
    | _ => cases hctx

/-- No pool goes without a context. -/
theorem Mem.PoolId.ne_none {p i : Nat} (hp : m.PoolId p) : (⟨p, i⟩ : Context) ≠ .NONE := by
  intro hc
  have : p = 0 := congrArg Context.pool hc
  exact hp.1.ne' this

/-- Two threads never have the same context of a pool. -/
theorem Context.Meaning.unique {p i : Nat} (hp : m.PoolId p) (h : Context.Meaning t m ⟨p, i⟩)
    (h' : Context.Meaning u m ⟨p, i⟩) : t = u := by
  cases h with
  | none => exact (hp.ne_none rfl).elim
  | worker _ ht hi _ =>
      generalize hc : (⟨p, i⟩ : Context) = c at h'
      cases h' with
      | none => exact (hp.ne_none hc).elim
      | worker _ hu _ _ => cases hc; exact ht.trans hu.symm
      | host _ _ _ => cases hc; exact absurd hi (lt_irrefl _)
  | host _ hlock _ =>
      generalize hc : (⟨p, (m.pools p).hostIndex⟩ : Context) = c at h'
      cases h' with
      | none => exact (hp.ne_none hc).elim
      | worker _ _ hi _ => cases hc; exact absurd hi (lt_irrefl _)
      | host _ hlock' _ =>
          cases hc
          exact Option.some.inj (hlock.symm.trans hlock')

/-- Whose owner side a thread is on. -/
def DequeId.OwnedBy (m : Mem) (t : Tid) (c : Context) : DequeId → Prop
  | .slot p i => m.PoolId p ∧ c = ⟨p, i⟩
  | .helper s => (m.scopes s).caller = t

/-- A worker reference owns its deque. -/
theorem WorkerRef.Owned.deque {w : WorkerRef} {rest : List Frame} (h : w.Owned t m rest) :
    w.tasks.OwnedBy m t (contextOf m rest) := by
  cases w with
  | slot p i => exact h
  | helper p s => exact h.2.1

/-- A thread runs owner-side operations on its own deque only. -/
theorem Placed.ownedBy {th : Thread} {d : DequeId} (h : Placed t m th) (hcall : th.Calling)
    (hd : th.op.ownerSide = some d) : d.OwnedBy m t th.ctx := by
  rcases hcall with hidle | ⟨f, rest, q, hstack, hwaits, hwithin⟩
  · rw [hidle] at hd
    cases hd
  · have hq := hwithin.ownerSide hd
    have hfits := h.fits
    have hctx := h.context
    rw [hstack] at hfits hctx
    have hfit := hfits.1
    unfold Frame.Waits at hwaits
    split at hwaits
    · subst hwaits
      cases hq
    · obtain ⟨hpool, rfl⟩ := hwaits
      cases hq
      subst hpool
      exact ⟨hfit.1, rfl⟩
    · subst hwaits
      cases hq
      rw [hctx]
      exact (WorkerRef.Owned.push hfit rfl).deque
    · subst hwaits
      cases hq
    · obtain ⟨max, rfl⟩ := hwaits
      cases hq
      rw [hctx]
      exact (WorkerRef.Owned.push hfit rfl).deque
    · obtain ⟨i, rfl⟩ := hwaits
      cases hq
    · obtain ⟨i, rfl⟩ := hwaits
      cases hq
    · obtain ⟨i, max, rfl⟩ := hwaits
      cases hq
      rw [hctx]
      exact (WorkerRef.Owned.push hfit rfl).deque
    · subst hwaits
      cases hq
    · exact hwaits.elim

end Discipline

/-- The owner side of a deque has one thread at most. -/
theorem owner_unique {s : PoolState} (hs : poolMachine.Reachable s) {t u : Tid} {d : DequeId}
    (ht : (s.threads t).op.ownerSide = some d) (hu : (s.threads u).op.ownerSide = some d) : t = u := by
  have ht' := (placed hs t).ownedBy (calling hs t) ht
  have hu' := (placed hs u).ownedBy (calling hs u) hu
  have hmeaning : ∀ t, Context.Meaning t s.mem (s.threads t).ctx :=
    fun t => (placed hs t).meaning (poolsOk hs) (linked hs t)
  cases d with
  | slot p i => exact Context.Meaning.unique ht'.1 (ht'.2 ▸ hmeaning t) (hu'.2 ▸ hmeaning u)
  | helper r => exact Eq.trans (Eq.symm ht') hu'

/-- What the thread-local context stands for, over any number of pools: the host
context of a pool means its host lock, a worker's context means that worker, and
the slot exists.  So at any moment the owner side of a deque has one thread at
most. -/
theorem single_producer_discipline {s : PoolState} (hs : poolMachine.Reachable s) :
    (∀ t p, s.mem.PoolId p → (s.threads t).ctx = ⟨p, (s.mem.pools p).hostIndex⟩ →
      (s.mem.pools p).hostOwner.locked = some t) ∧
    (∀ t p i, s.mem.PoolId p → (s.threads t).ctx = ⟨p, i⟩ → i < (s.mem.pools p).totalWorker →
      t = .worker p i) ∧
    (∀ t p i, s.mem.PoolId p → (s.threads t).ctx = ⟨p, i⟩ →
      i < (s.mem.pools p).workersLen ∧ (s.mem.pools p).workers i ≠ none) ∧
    ∀ t u d, (s.threads t).op.ownerSide = some d → (s.threads u).op.ownerSide = some d → t = u := by
  have hok := poolsOk hs
  have hmeaning : ∀ t, Context.Meaning t s.mem (s.threads t).ctx :=
    fun t => (placed hs t).meaning hok (linked hs t)
  refine ⟨fun t p hp hctx => ?_, fun t p i hp hctx hi => ?_, fun t p i hp hctx => ?_,
    fun t u d ht hu => ?_⟩
  · have h := hctx ▸ hmeaning t
    generalize hc : (⟨p, (s.mem.pools p).hostIndex⟩ : Context) = c at h
    cases h with
    | none => exact (hp.ne_none hc).elim
    | worker _ _ hi _ => cases hc; exact absurd hi (lt_irrefl _)
    | host _ hlock _ => cases hc; exact hlock
  · have h := hctx ▸ hmeaning t
    generalize hc : (⟨p, i⟩ : Context) = c at h
    cases h with
    | none => exact (hp.ne_none hc).elim
    | worker _ ht _ _ => cases hc; exact ht
    | host _ _ _ => cases hc; exact absurd hi (lt_irrefl _)
  · have h := hctx ▸ hmeaning t
    generalize hc : (⟨p, i⟩ : Context) = c at h
    cases h with
    | none => exact (hp.ne_none hc).elim
    | worker _ _ hi hslot => cases hc; exact ⟨hi.trans (Nat.lt_succ_self _), hslot⟩
    | host _ _ hslot => cases hc; exact ⟨Nat.lt_succ_self _, hslot⟩
  · exact owner_unique hs ht hu

/-- No thread has run yet. -/
def poolStart : PoolState := ⟨.initial, Thread.initial⟩

theorem poolStart_init : poolMachine.init poolStart := rfl

/-- A program's thread builds a pool of one worker and opens a scope on it. -/
def hostedScope : List (Tid × Choice) :=
  [(.ext 0, .user (.newPool ⟨1, 1⟩ 1))] ++ List.replicate 6 (.ext 0, .go) ++
    [(.ext 0, .user (.scope 1))] ++ List.replicate 3 (.ext 0, .go)

/-- The caller stands for the host slot, and has the host lock. -/
theorem host_lock_of_a_hosted_scope :
    ((poolMachine.after poolStart hostedScope).threads (.ext 0)).ctx =
        ⟨1, ((poolMachine.after poolStart hostedScope).mem.pools 1).hostIndex⟩ ∧
      ((poolMachine.after poolStart hostedScope).mem.pools 1).hostOwner.locked = some (.ext 0) := by
  have hrun : (poolMachine.run poolStart hostedScope).isSome := by decide +kernel
  have hpool : (poolMachine.after poolStart hostedScope).mem.PoolId 1 :=
    ⟨Nat.one_pos, by decide +kernel⟩
  have hctx : ((poolMachine.after poolStart hostedScope).threads (.ext 0)).ctx =
      ⟨1, ((poolMachine.after poolStart hostedScope).mem.pools 1).hostIndex⟩ := by
    decide +kernel
  have hreach := Machine.Reachable.run (.init poolStart_init) (Machine.run_after hrun)
  exact ⟨hctx, (single_producer_discipline hreach).1 (.ext 0) 1 hpool hctx⟩

end XynokConcurrency
