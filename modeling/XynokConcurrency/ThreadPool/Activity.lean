import XynokConcurrency.ThreadPool.Contexts

/-!
# Who works on a pool

A frame that reads or writes the queues of a pool belongs to a call of one of the
pool's methods, to a job of a scope that is still open, or to a worker that has not
ended.  So nobody works on a pool that is being built, nor on one whose workers were
joined, and nobody but its caller works with the private worker of a helper.

Main results:

- Theorem {lit}`live_of_pool`: the pool of every frame is live.
- Theorem {lit}`no_helper`: a scope that is about to create or drop its helper has
  no frame that uses it.
-/

namespace XynokConcurrency

/-- The pool whose queues a frame works on. -/
def Frame.pool : Frame → Option Nat
  | .enqueue p _ | .enqueueWait p _ | .wake p _ _ | .spawn p _ _ | .spawnWait p _ _
  | .inboxes p _ _ _ _ | .assign p _ _ _ _ | .publish p _ _ | .sleep p _ _ => some p
  | .runUntil w _ _ _ | .pop w _ | .steal w _ _ => some w.root
  | _ => none

/-- The batch a frame publishes. -/
def Frame.publishes : Frame → Option (Nat × Nat)
  | .batch p s _ | .inboxes p s _ _ _ | .assign p s _ _ _ | .publish p s _ => some (p, s)
  | _ => none

/-- The worker a frame looks for work on, or runs jobs of. -/
def Frame.worker : Frame → Option WorkerRef
  | .runUntil w _ _ _ | .pop w _ | .steal w _ _ => some w
  | _ => none

/-- A pool somebody may work on: it was built, and it can be called or has a worker
that has not ended. -/
structure Mem.Live (m : Mem) (p : Nat) : Prop where
  id : m.PoolId p
  built : (m.pools p).initCompleted = true
  active : (m.pools p).usable = true ∨ ¬ (m.pools p).Quiescent

/-- Who looks for work on a worker works on its pool. -/
theorem Frame.pool_of_worker {f : Frame} {w : WorkerRef} (h : f.worker = some w) :
    f.pool = some w.root := by
  cases f <;> cases h <;> rfl

section Live

variable {t : Tid} {m : Mem} {th : Thread} {p s i : Nat} {stack : List Frame}

/-- A pool that can be called is live. -/
theorem PoolsOk.live_of_usable (hok : PoolsOk m) (h : (m.pools p).usable = true) : m.Live p :=
  ⟨((hok.pools p).usable h).1, ((hok.pools p).usable h).2.2, .inl h⟩

/-- A pool stays usable during a call. -/
theorem Placed.usable_of_callEnd (h : Placed t m th) (hok : PoolsOk m)
    (hmem : .callEnd p ∈ th.stack) : (m.pools p).usable = true := by
  have hpos : 0 < th.stack.countP (Frame.isCall p) :=
    List.countP_pos_iff.mpr ⟨_, hmem, by simp [Frame.isCall]⟩
  rw [← h.callers, List.count_pos_iff] at hpos
  exact (hok.pools p).callers (List.ne_nil_of_mem hpos)

/-- A pool stays usable during a call of {lit}`scope`. -/
theorem Placed.usable_of_scope {pc : ScopePc} (h : Placed t m th) (hl : Linked t th.stack)
    (hok : PoolsOk m) (hmem : .scope p s pc ∈ th.stack) : (m.pools p).usable = true :=
  h.usable_of_callEnd hok (callEnd_mem hl hmem)

/-- What publishes a batch stands in the call of {lit}`scope` that runs it. -/
theorem Linked.scope_of_publishes (hl : Linked t stack) {f : Frame} (hmem : f ∈ stack)
    (hf : f.publishes = some (p, s)) : ∃ role previous, .scope p s (.closure role previous) ∈ stack := by
  induction stack generalizing f with
  | nil => cases hmem
  | cons g rest ih =>
      rcases List.mem_cons.mp hmem with rfl | hmem
      · cases rest with
        | nil => cases f <;> first | exact hl.1.elim | cases hf
        | cons k rest =>
            have hunder : f.Under k := hl.1
            have hbelow : k.publishes = some (p, s) →
                ∃ role previous, .scope p s (.closure role previous) ∈ f :: k :: rest := fun hk =>
              (ih hl.2 List.mem_cons_self hk).imp fun _ => Exists.imp fun _ => List.mem_cons_of_mem _
            cases f <;> simp only [Frame.publishes, reduceCtorEq, Option.some.injEq,
              Prod.mk.injEq] at hf <;> obtain ⟨rfl, rfl⟩ := hf
            case batch =>
              obtain ⟨role, previous, rfl⟩ := hunder
              exact ⟨role, previous, by simp⟩
            case inboxes =>
              obtain ⟨rfl, -⟩ | ⟨i, held, len, rfl, -⟩ := hunder <;> exact hbelow rfl
            case assign =>
              obtain rfl | ⟨i, held, len, rfl⟩ := hunder <;> exact hbelow rfl
            case publish =>
              obtain rfl := hunder
              exact hbelow rfl
      · exact (ih hl.2 hmem hf).imp fun _ => Exists.imp fun _ => List.mem_cons_of_mem _

/-- What runs a closure stands in the call of {lit}`scope` that runs it. -/
theorem Linked.scope_of_closure (hl : Linked t stack) (hmem : .user (.closure s) ∈ stack) :
    ∃ p role previous, .scope p s (.closure role previous) ∈ stack := by
  obtain ⟨above, rest, rfl, hon, -⟩ := hl.of_mem hmem
  cases rest with
  | nil => exact hon.elim
  | cons g rest =>
      obtain ⟨p, role, previous, rfl⟩ := hon
      exact ⟨p, role, previous, by simp⟩

/-- A worker that has a context has been spawned, and has not ended. -/
theorem Frame.Fits.live_of_loop {tick rounds : Nat} {pc : LoopPc} {rest : List Frame}
    (h : (Frame.loop p i tick rounds pc).Fits t m rest) (hpc : pc.seated = true) : m.Live p := by
  obtain ⟨-, hexited, hborn, hinit⟩ := h
  have hne : pc ≠ .unborn := by
    rintro rfl
    cases hpc
  obtain ⟨hid, hspawned⟩ := hborn hne
  refine ⟨hid, hinit (.inr hpc), .inr fun hquiet => ?_⟩
  rw [hquiet i hspawned] at hexited
  cases hexited

/-- A worker somebody owns is one of a live pool. -/
theorem Placed.live_of_owned {rest : List Frame} {w : WorkerRef} (h : Placed t m th)
    (hl : Linked t th.stack) (hok : PoolsOk m) (hrest : ∀ g ∈ rest, g ∈ th.stack)
    (hfits : Everywhere (Frame.Fits t m) rest) (hw : w.Owned t m rest) : m.Live w.root := by
  cases w with
  | helper p r =>
      obtain ⟨-, -, pc, hmem⟩ := hw
      exact hok.live_of_usable (h.usable_of_scope hl hok (hrest _ hmem))
  | slot p i =>
      obtain ⟨hid, hctx⟩ := hw
      rcases contextOf_cases hfits with hnone | ⟨f, hf, rest', hfctx, hffit⟩
      · rw [hctx] at hnone
        exact (hid.ne_none hnone).elim
      · rw [hctx] at hfctx
        cases f <;> simp only [Frame.context, reduceCtorEq] at hfctx <;> split at hfctx <;>
          cases hfctx
        · exact hok.live_of_usable (h.usable_of_scope hl hok (hrest _ hf))
        · exact Frame.Fits.live_of_loop hffit ‹_›

end Live

/-- The pool of a scope somebody borrows is usable: the thread that called
{lit}`scope` runs the closure. -/
theorem usable_of_spawnEnd {s : PoolState} (hs : poolMachine.Reachable s) {t : Tid} {r : Nat}
    (hmem : .spawnEnd r ∈ (s.threads t).stack) :
    (s.mem.pools (s.mem.scopes r).root).usable = true := by
  have hok := poolsOk hs
  have hpos : 0 < (s.threads t).stack.countP (Frame.isSpawn r) :=
    List.countP_pos_iff.mpr ⟨_, hmem, by simp [Frame.isSpawn]⟩
  rw [← (placed hs t).spawners, List.count_pos_iff] at hpos
  have hopened := hok.spawners r (List.ne_nil_of_mem hpos)
  -- the caller of the scope is the one whose call is under way
  have hcaller := placed hs (s.mem.scopes r).caller
  have hlinked := linked hs (s.mem.scopes r).caller
  obtain ⟨p, role, previous, hscope⟩ := hlinked.scope_of_closure (hcaller.opened r hopened rfl)
  obtain ⟨_, _, _, hfit, -⟩ := hcaller.fits.of_mem hscope
  rw [hfit.2.2.1]
  exact hcaller.usable_of_scope hlinked hok hscope

/-- Every frame works on a live pool. -/
theorem live_of_pool {s : PoolState} (hs : poolMachine.Reachable s) {t : Tid} {f : Frame} {p : Nat}
    (hmem : f ∈ (s.threads t).stack) (hf : f.pool = some p) : s.mem.Live p := by
  have hok := poolsOk hs
  have hplaced := placed hs t
  have hl := linked hs t
  obtain ⟨above, rest, hstack, hfit, hrest⟩ := hplaced.fits.of_mem hmem
  have hbelow : ∀ g ∈ rest, g ∈ (s.threads t).stack := fun g hg => by
    rw [hstack]
    exact List.mem_append_right _ (List.mem_cons_of_mem _ hg)
  have hlinked : Linked t (f :: rest) := (everywhere_append.mp (hstack ▸ hl)).2
  have hbatch : ∀ r, f.publishes = some (p, r) → s.mem.Live p := by
    intro r hr
    obtain ⟨role, previous, hscope⟩ := hl.scope_of_publishes hmem hr
    exact hok.live_of_usable (hplaced.usable_of_scope hl hok hscope)
  have hcall : .callEnd p ∈ rest → s.mem.Live p := fun hc =>
    hok.live_of_usable (hplaced.usable_of_callEnd hok (hbelow _ hc))
  have hborrow : ∀ r, rest.head? = some (.spawnEnd r) → (s.mem.scopes r).root = p → s.mem.Live p := by
    intro r hr hroot
    have hr' : Frame.spawnEnd r ∈ rest := List.mem_of_mem_head? (by rw [hr]; rfl)
    exact hok.live_of_usable (hroot ▸ usable_of_spawnEnd hs (hbelow _ hr'))
  cases f <;> simp only [Frame.pool, reduceCtorEq, Option.some.injEq] at hf <;> subst hf
  case inboxes => exact hbatch _ rfl
  case assign => exact hbatch _ rfl
  case publish => exact hbatch _ rfl
  case runUntil | pop | steal => exact hplaced.live_of_owned hl hok hbelow hrest hfit
  case enqueue | enqueueWait | wake =>
    cases rest with
    | nil => exact hlinked.1.elim
    | cons g rest =>
        obtain rfl | ⟨r, rfl⟩ := hlinked.1
        · exact hcall List.mem_cons_self
        · exact hborrow r rfl (hfit.2 r rfl)
  case spawn | spawnWait =>
    cases rest with
    | nil => exact hlinked.1.elim
    | cons g rest =>
        obtain rfl := hlinked.1
        exact hborrow _ rfl hfit.2.2
  case sleep =>
    cases rest with
    | nil => exact hlinked.1.elim
    | cons g rest =>
        obtain ⟨tick, rounds, rfl⟩ := hlinked.1
        exact Frame.Fits.live_of_loop hrest.1 rfl

/-- The caller of a scope alone uses its helper, above the frame of the call. -/
theorem scope_of_helper {s : PoolState} (hs : poolMachine.Reachable s) {t : Tid} {f : Frame}
    {p r : Nat} (hmem : f ∈ (s.threads t).stack) (hf : f.worker = some (.helper p r)) :
    (s.mem.scopes r).caller = t ∧
      ∃ above rest pc, (s.threads t).stack = above ++ f :: rest ∧ .scope p r pc ∈ rest := by
  obtain ⟨above, rest, hstack, hfit, -⟩ := (placed hs t).fits.of_mem hmem
  have howned : (WorkerRef.helper p r).Owned t s.mem rest := by
    cases f <;> cases hf <;> exact hfit
  obtain ⟨-, hcaller, pc, hscope⟩ := howned
  exact ⟨hcaller, above, rest, pc, hstack, hscope⟩

/-- While the frame of a call of {lit}`scope` is the innermost one, nobody uses its
helper. -/
theorem no_helper {s : PoolState} (hs : poolMachine.Reachable s) {t u : Tid} {p q r : Nat}
    {pc : ScopePc} {rest : List Frame} (hstack : (s.threads t).stack = .scope p r pc :: rest)
    {f : Frame} (hmem : f ∈ (s.threads u).stack) : f.worker ≠ some (.helper q r) := by
  intro hf
  obtain ⟨hcaller, above, below, pc', hu, hscope⟩ := scope_of_helper hs hmem hf
  have hfit := (placed hs t).fits
  rw [hstack] at hfit
  obtain ⟨-, -, -, hcaller', -, -, -, hunique, -⟩ := hfit.1
  obtain rfl : t = u := hcaller'.symm.trans hcaller
  rw [hstack] at hu
  cases above with
  | nil =>
      simp only [List.nil_append, List.cons.injEq] at hu
      obtain ⟨rfl, -⟩ := hu
      cases hf
  | cons g above =>
      simp only [List.cons_append, List.cons.injEq] at hu
      obtain ⟨-, rfl⟩ := hu
      exact hunique _ (List.mem_append_right _ (List.mem_cons_of_mem _ hscope)) rfl

/-! ## Who works on a container -/

/-- The frame works on a container: one of a pool it works on, or one of the helper
it looks for work on. -/
def Frame.WorksOn (f : Frame) : Place → Prop
  | .deque (.slot p _) | .queue (.tasks p) | .queue (.inbox p _) => f.pool = some p
  | .deque (.helper s) | .queue (.helperInbox s) => ∃ p, f.worker = some (.helper p s)

/-- Nobody works on a container. -/
def PoolState.Unused (s : PoolState) (x : Place) : Prop :=
  ∀ u, ∀ f ∈ (s.threads u).stack, ¬ f.WorksOn x

section WorksOn

variable {f : Frame} {ctx : Context} {c : QueueCall DequeId QueueId Nat} {p r i : Nat}

/-- Who looks for work on a worker works on its deque and on its inbox. -/
theorem Frame.worksOn_of_worker {w : WorkerRef} (h : f.worker = some w) :
    f.WorksOn (.deque w.tasks) ∧ f.WorksOn (.queue w.inbox) := by
  cases w with
  | slot p i => exact ⟨Frame.pool_of_worker h, Frame.pool_of_worker h⟩
  | helper p s => exact ⟨⟨p, h⟩, ⟨p, h⟩⟩

/-- A frame works on the containers of the operation it waits for. -/
theorem Frame.Waits.worksOn (h : f.Waits ctx c) :
    (∀ d ∈ c.deques, f.WorksOn (.deque d)) ∧ ∀ q ∈ c.queues, f.WorksOn (.queue q) := by
  unfold Frame.Waits at h
  split at h
  case h_1 => subst h; exact ⟨by simp [QueueCall.deques], by simp [QueueCall.queues, Frame.WorksOn, Frame.pool]⟩
  case h_2 =>
    obtain ⟨rfl, rfl⟩ := h
    exact ⟨by simp [QueueCall.deques, Frame.WorksOn, Frame.pool], by simp [QueueCall.queues]⟩
  case h_3 w =>
    subst h
    exact ⟨by simpa [QueueCall.deques] using (Frame.worksOn_of_worker (f := .pop w .popWait) rfl).1,
      by simp [QueueCall.queues]⟩
  case h_4 w =>
    subst h
    exact ⟨by simp [QueueCall.deques],
      by simpa [QueueCall.queues] using (Frame.worksOn_of_worker (f := .pop w .inboxWait) rfl).2⟩
  case h_5 w tick =>
    obtain ⟨max, rfl⟩ := h
    exact ⟨by simpa [QueueCall.deques] using
        (Frame.worksOn_of_worker (f := .steal w tick .refillWait) rfl).1,
      by simp [QueueCall.queues, Frame.WorksOn, Frame.pool]⟩
  case h_6 =>
    obtain ⟨i, rfl⟩ := h
    exact ⟨by simp [QueueCall.deques], by simp [QueueCall.queues, Frame.WorksOn, Frame.pool]⟩
  case h_7 =>
    obtain ⟨i, rfl⟩ := h
    exact ⟨by simp [QueueCall.deques, Frame.WorksOn, Frame.pool], by simp [QueueCall.queues]⟩
  case h_8 w tick offset =>
    obtain ⟨i, max, rfl⟩ := h
    have hown := (Frame.worksOn_of_worker (f := .steal w tick (.stealWait offset)) rfl).1
    refine ⟨fun d hd => ?_, by simp [QueueCall.queues]⟩
    simp only [QueueCall.deques, List.mem_cons, List.not_mem_nil, or_false] at hd
    obtain rfl | rfl := hd
    · rfl
    · exact hown
  case h_9 => subst h; exact ⟨by simp [QueueCall.deques, Frame.WorksOn, Frame.pool], by simp [QueueCall.queues]⟩
  case h_10 => exact h.elim

end WorksOn

section Unused

variable {s : PoolState} {t u : Tid} {p r i : Nat}

/-- Nobody works on the containers of a pool that is not live. -/
theorem unused_of_not_live (hs : poolMachine.Reachable s) (h : ¬ s.mem.Live p) (i : Nat) :
    s.Unused (.deque (.slot p i)) ∧ s.Unused (.queue (.inbox p i)) ∧ s.Unused (.queue (.tasks p)) :=
  ⟨fun _ _ hmem hf => h (live_of_pool hs hmem hf), fun _ _ hmem hf => h (live_of_pool hs hmem hf),
    fun _ _ hmem hf => h (live_of_pool hs hmem hf)⟩

/-- Nobody works on the containers of a helper while the frame of its call is the
innermost one. -/
theorem unused_of_scope {pc : ScopePc} {rest : List Frame} (hs : poolMachine.Reachable s)
    (hstack : (s.threads t).stack = .scope p r pc :: rest) :
    s.Unused (.deque (.helper r)) ∧ s.Unused (.queue (.helperInbox r)) :=
  ⟨fun _ _ hmem ⟨_, hf⟩ => no_helper hs hstack hmem hf,
    fun _ _ hmem ⟨_, hf⟩ => no_helper hs hstack hmem hf⟩

/-- An operation shows nothing of a deque nobody works on. -/
theorem PoolState.Unused.deque {d : DequeId} (h : s.Unused (.deque d))
    (hs : poolMachine.Reachable s) (u : Tid) :
    (s.threads u).op.claimAt d = none ∧ (s.threads u).op.ownAt d = none := by
  rcases calling hs u with hidle | ⟨f, rest, c, hstack, hwaits, hwithin⟩
  · rw [hidle]
    exact ⟨rfl, rfl⟩
  · exact hwithin.deques fun hd => h u f (hstack ▸ List.mem_cons_self) (hwaits.worksOn.1 d hd)

/-- An operation holds no lock of a queue nobody works on. -/
theorem PoolState.Unused.queue {q : QueueId} (h : s.Unused (.queue q))
    (hs : poolMachine.Reachable s) (u : Tid) : (s.threads u).op.holds ≠ some q := by
  intro hq
  rcases calling hs u with hidle | ⟨f, rest, c, hstack, hwaits, hwithin⟩
  · rw [hidle] at hq
    cases hq
  · exact h u f (hstack ▸ List.mem_cons_self) (hwaits.worksOn.2 q (hwithin.queues hq))

end Unused

/-! ## Pools that are not live -/

section NotLive

variable {t : Tid} {m : Mem} {p : Nat} {rest : List Frame}

theorem not_live_of_fresh : ¬ m.Live m.nextPool :=
  fun h => h.id.2.false

/-- A pool that is being built is not live. -/
theorem Frame.Fits.not_live_of_newPool {pc : NewPc} (h : (Frame.newPool p pc).Fits t m rest) :
    ¬ m.Live p := by
  intro hlive
  have hbuilt := hlive.built
  rw [h.2.2.1] at hbuilt
  cases hbuilt

/-- A pool that is taken down, and whose workers have ended, is not live. -/
theorem ThreadPoolInner.Managed.not_live (h : (m.pools p).Managed t)
    (hquiet : (m.pools p).Quiescent) : ¬ m.Live p := by
  intro hlive
  rcases hlive.active with hu | hactive
  · rw [h.usable] at hu
    cases hu
  · exact hactive hquiet

end NotLive

end XynokConcurrency
