import XynokConcurrency.ThreadPool.BatchAssignment
import XynokConcurrency.ThreadPool.QueueState

/-!
# Who publishes a batch

A call of {lit}`publish_batch` assigns the jobs starting with its caller's own slot.  The
caller is what the thread-local context says, and the context is that of the host slot
only for the thread that holds the host lock.  The jobs are assigned under the locks of all
inboxes, which nobody else changes until then.

Main results:

- Theorem {lit}`calls`: the caller of a batch is a slot of the pool, and it is the host slot
  only where the thread stands for it.
- Theorem {lit}`levels`: an assignment stands above one level for each inbox.
- Theorem {lit}`queue_of_held`: an inbox that is locked for a batch is changed by its own
  level, and by its own assignment.

Source: {lit}`thread_pool/mod.rs`, {lit}`thread_pool/shared.rs`.
-/

namespace XynokConcurrency

/-- The caller of a batch is a slot of the pool; where it is the host slot, the thread
stands for it. -/
def CallerOk (m : Mem) (rest : List Frame) (p caller : Nat) : Prop :=
  caller ≤ (m.pools p).hostIndex ∧
    (caller = (m.pools p).hostIndex → contextOf m rest = ⟨p, caller⟩)

/-- The caller of a batch is in order, and the jobs are assigned above the level of the last
inbox. -/
def Frame.Calls (m : Mem) (rest : List Frame) : Frame → Prop
  | .inboxes p _ caller _ _ => CallerOk m rest p caller
  | .assign p s caller _ _ =>
      CallerOk m rest p caller ∧
        ∃ held n below, rest = .inboxes p s caller (m.pools p).totalWorker (.nested held n) :: below
  | _ => True

section Calls

variable {t u : Tid} {c : Choice} {m m' : Mem} {ctx ctx' : Context} {f f' : Frame}
  {fs rest stack : List Frame} {th th' : Thread} {n : Nat}

theorem Frame.calls_of_tag (hi : f.tag ≠ .inboxes) (ha : f.tag ≠ .assign) : f.Calls m rest := by
  cases f <;> trivial

/-- Frames of other functions add nothing. -/
theorem everywhere_calls_of_tags (h : ∀ g ∈ fs, g.tag ≠ .inboxes ∧ g.tag ≠ .assign) :
    Everywhere (fun above g => g.Calls m (above ++ rest)) fs :=
  .of_forall fun g hg _ => Frame.calls_of_tag (h g hg).1 (h g hg).2

theorem Frame.Calls.resume {o : Outcome} (h : f.Calls m rest) :
    Everywhere (fun above g => g.Calls m (above ++ rest)) (f.resume o) := by
  unfold Frame.resume
  split <;> (try split) <;>
    first
      | exact ⟨h, trivial⟩
      | exact ⟨trivial, trivial⟩
      | exact ⟨trivial, trivial, trivial⟩

theorem Frame.Calls.answer {r : QueueRes Nat} (h : f.Calls m rest) :
    Everywhere (fun above g => g.Calls m (above ++ rest)) (f.answer r) := by
  unfold Frame.answer
  split <;> (try split) <;>
    first
      | exact ⟨h, trivial⟩
      | exact ⟨trivial, trivial⟩
      | exact ⟨trivial, trivial, trivial⟩

theorem Frame.call_calls {q : QueueCall DequeId QueueId Nat} (h : f.call m ctx = some (q, f')) :
    f'.Calls m rest := by
  unfold Frame.call at h
  split at h <;> (try split at h) <;> cases h <;> trivial

/-- Slots do not move, nor does what the stack says about the context. -/
theorem calls_grows (hg : m.Grows m') (hfits : Everywhere (Frame.Fits u m) stack)
    (hid : ∀ f ∈ stack, ∀ p, f.pool = some p → m.PoolId p)
    (h : Everywhere (Frame.Calls m) stack) : Everywhere (Frame.Calls m') stack := by
  induction stack with
  | nil => trivial
  | cons f rest ih =>
      refine ⟨?_, ih hfits.2 (fun g hg => hid g (List.mem_cons_of_mem _ hg)) h.2⟩
      have hctx := contextOf_grows hg hfits.2
      have hself := h.1
      have hpool := hid f List.mem_cons_self
      cases f with
      | inboxes p s caller index pc | assign p s caller index pc =>
          have htotal := (hg.pools p (hpool p rfl)).totalWorker
          simp only [Frame.Calls, CallerOk, hctx, ThreadPoolInner.hostIndex, htotal] at hself ⊢
          exact hself
      | _ => trivial

/-- What is above the level of the last inbox assigns the jobs. -/
theorem Linked.last_level {p r caller index : Nat} {pc : InboxPc}
    (hl : Linked t (.inboxes p r caller index pc :: rest)) (hindex : index = n + 1) :
    ∃ held len below, rest = .inboxes p r caller n (.nested held len) :: below := by
  cases rest with
  | nil => exact hl.1.elim
  | cons g below =>
      obtain ⟨-, h⟩ | ⟨i, held, len, rfl, h⟩ := hl.1
      · rw [h] at hindex
        cases hindex
      · obtain rfl : i = n := by omega
        exact ⟨held, len, below, rfl⟩

/-- A step of a frame hands the caller on, or starts with the one the context names. -/
theorem Frame.step_calls (hok : PoolsOk m)
    (hlive : ∀ p s pc, f = .batch p s pc →
      m.PoolId p ∧ (ctx.pool = p → ctx.index < (m.pools p).workersLen))
    (hl : Linked t (f :: rest))
    (hctx : ctx = contextOf m (f :: rest)) (hbelow : contextOf m' rest = contextOf m rest)
    (hs : f.step t c m ctx = some (m', ctx', fs)) (h : f.Calls m rest) :
    Everywhere (fun above g => g.Calls m' (above ++ rest)) fs := by
  have htags := Frame.step_givesWay hs
  cases f <;> simp only [Frame.step, keep_eq, keepMem_eq] at hs
  case batch p r pc =>
    obtain ⟨hs, rfl, -⟩ := hs
    cases pc <;> simp only [batchStep, reduceCtorEq] at hs
    cases hs
    refine ⟨?_, trivial, trivial, trivial⟩
    obtain ⟨hid, hindex⟩ := hlive p r _ rfl
    have hpos : 0 < (m'.pools p).hostIndex := (hok.pools p).total hid
    simp only [currentWorker]
    split <;> rename_i hw
    · split at hw <;> cases hw
      rename_i hpool
      refine ⟨Nat.lt_succ_iff.mp (hindex hpool), fun _ => ?_⟩
      change contextOf m' rest = ⟨p, ctx.index⟩
      rw [← hpool]
      exact hctx.symm
    · exact ⟨hpos.le, fun h => absurd h hpos.ne⟩
  case inboxes p r caller index pc =>
    obtain ⟨hs, -⟩ := hs
    cases pc <;> simp only [inboxesStep, reduceCtorEq] at hs <;> (try split at hs) <;> cases hs
    case enter.isTrue hindex =>
      obtain ⟨held, n, below, rfl⟩ := hl.last_level hindex
      exact ⟨⟨h, held, n, below, rfl⟩, trivial⟩
    all_goals
      first
        | exact ⟨⟨h.1, fun hc => hbelow.trans (h.2 hc)⟩, trivial⟩
        | exact ⟨h, h, trivial⟩
        | exact ⟨trivial, ⟨h.1, fun hc => hbelow.trans (h.2 hc)⟩, trivial⟩
        | exact ⟨trivial, trivial⟩
  case assign p r caller index pc =>
    obtain ⟨hs, -⟩ := hs
    cases pc <;> simp only [assignStep, reduceCtorEq] at hs <;> cases hs <;>
      first
        | exact ⟨⟨⟨h.1.1, fun hc => hbelow.trans (h.1.2 hc)⟩, h.2⟩, trivial⟩
        | exact ⟨trivial, h, trivial⟩
  all_goals
    exact everywhere_calls_of_tags fun g hg => by
      have := htags g hg
      constructor <;> intro hg <;> rw [hg] at this <;> simp [FrameTag.next, Frame.tag] at this

end Calls

/-- The caller of a batch is a slot of the pool, and it is the host slot only where the
thread stands for it. -/
theorem calls {s : PoolState} (hs : poolMachine.Reachable s) (t : Tid) :
    Everywhere (Frame.Calls s.mem) (s.threads t).stack := by
  refine Machine.thread_invariant (A := fun _ m th => Everywhere (Frame.Calls m) th.stack) ?_ ?_ ?_
    hs t
  · rintro s rfl (e | ⟨p, i⟩) <;> exact ⟨trivial, trivial⟩
  · intro s t ch m th hr _ hA hth
    have hlocal := threadStep_cases hth
    have hplaced := placed hr.reachable t
    have hg := (hlocal.life hplaced (linked hr.reachable t)).grows
    have hid : ∀ f ∈ (s.threads t).stack, ∀ p, f.pool = some p → s.mem.PoolId p :=
      fun f hf p hp => (live_of_pool hr.reachable hf hp).id
    refine hlocal.everywhere (hA t) ?_ ?_ ?_ ?_ ?_
    · exact fun o f rest h => h.resume
    · exact fun f f' rest q hc _ => Frame.call_calls hc
    · exact fun r f rest h => h.answer
    · intro f rest ctx' fs hstack hstep h
      have hfits := hplaced.fits
      rw [hstack] at hfits
      refine Frame.step_calls (poolsOk hr.reachable) ?_ (hstack ▸ linked hr.reachable t)
        (hstack ▸ hplaced.context)
        (contextOf_grows hg hfits.2) hstep h
      rintro p r pc rfl
      have hl := linked hr.reachable t
      obtain ⟨role, previous, hscope⟩ :=
        hl.scope_of_publishes (hstack ▸ List.mem_cons_self : Frame.batch p r pc ∈ _) rfl
      obtain ⟨_, _, _, hfit, _⟩ := hplaced.fits.of_mem hscope
      refine ⟨hfit.1, fun hp => ?_⟩
      exact ((single_producer_discipline hr.reachable).2.2.1 t p _ hfit.1 (by rw [← hp])).1
    · intro above rest hstack h
      have hfits := hplaced.fits
      rw [hstack] at hfits
      exact calls_grows hg (everywhere_append.mp hfits).2
        (fun f hf => hid f (by rw [hstack]; exact List.mem_append_right _ hf)) h
  · intro s t ch m th u hr _ hA _ hth
    have hg := ((threadStep_cases hth).life (placed hr.reachable t) (linked hr.reachable t)).grows
    exact calls_grows hg (placed hr.reachable u).fits
      (fun f hf p hp => (live_of_pool hr.reachable hf hp).id) (hA u)

/-! ## The locks of a batch -/

section Levels

variable {s s' : PoolState} {t u : Tid} {l : Tid × Choice} {f f' : Frame} {rest stack : List Frame}
  {p r caller index : Nat} {q : QueueId}

/-- Below a level are those of all inboxes before it. -/
theorem Linked.levels_below {pc : InboxPc} (hl : Linked t (.inboxes p r caller index pc :: rest)) :
    ∀ i, i < index → ∃ held n, .inboxes p r caller i (.nested held n) ∈ rest := by
  induction index generalizing pc rest with
  | zero => exact fun i hi => absurd hi (Nat.not_lt_zero i)
  | succ index ih =>
      intro i hi
      obtain ⟨held, n, below, rfl⟩ := hl.last_level rfl
      rcases Nat.lt_succ_iff_lt_or_eq.mp hi with hlt | rfl
      · obtain ⟨held', n', hmem⟩ := ih hl.2 i hlt
        exact ⟨held', n', List.mem_cons_of_mem _ hmem⟩
      · exact ⟨held, n, List.mem_cons_self⟩

/-- An assignment stands above one level for each inbox. -/
theorem levels {pc : AssignPc} (hs : poolMachine.Reachable s)
    (hmem : .assign p r caller index pc ∈ (s.threads t).stack) {i : Nat}
    (hi : i < (s.mem.pools p).workersLen) :
    ∃ held n, .inboxes p r caller i (.nested held n) ∈ (s.threads t).stack := by
  obtain ⟨above, rest, hstack, ⟨-, held, n, below, rfl⟩, -⟩ := (calls hs t).of_mem hmem
  have hlinked := linked hs t
  rw [hstack] at hlinked
  have hl : Linked t (.inboxes p r caller _ (.nested held n) :: below) :=
    (everywhere_append.mp hlinked).2.2
  have hsub : ∀ g ∈ (.inboxes p r caller (s.mem.pools p).totalWorker (.nested held n) :: below),
      g ∈ (s.threads t).stack := fun g hg => by simp [hstack, hg]
  rcases Nat.lt_succ_iff_lt_or_eq.mp hi with hlt | rfl
  · obtain ⟨held', n', h⟩ := hl.levels_below i hlt
    exact ⟨held', n', hsub _ (List.mem_cons_of_mem _ h)⟩
  · exact ⟨held, n, hsub _ List.mem_cons_self⟩

/-- A lock is held by one frame. -/
theorem holder_unique (hs : poolMachine.Reachable s) {k : LockId} (hf : f ∈ (s.threads t).stack)
    (hk : f.holds = some k) (hf' : f' ∈ (s.threads u).stack) (hk' : f'.holds = some k) :
    u = t ∧ f' = f := by
  have hnamed : ∀ {u : Tid} {f : Frame}, f ∈ (s.threads u).stack → f.holds = some k →
      s.mem.lockedBy k = some u := fun hf hk =>
    ((holdsExactly hs _).named k).mpr
      (List.mem_append_right _ (List.mem_filterMap.mpr ⟨_, hf, hk⟩))
  obtain rfl : u = t := Option.some.inj ((hnamed hf' hk').symm.trans (hnamed hf hk))
  refine ⟨rfl, ?_⟩
  have hnodup := (List.nodup_append.mp (holdsExactly hs u).nodup).2.1
  clear hnamed
  generalize (s.threads u).stack = stack at hf hf' hnodup
  induction stack with
  | nil => cases hf
  | cons g rest ih =>
      have hmem : ∀ {f : Frame}, f ∈ rest → f.holds = some k → k ∈ rest.filterMap Frame.holds :=
        fun hf hk => List.mem_filterMap.mpr ⟨_, hf, hk⟩
      rcases List.mem_cons.mp hf with rfl | hfr <;> rcases List.mem_cons.mp hf' with h | hfr'
      · exact h
      · rw [List.filterMap_cons, hk, List.nodup_cons] at hnodup
        exact absurd (hmem hfr' hk') hnodup.1
      · rw [List.filterMap_cons, ← h, hk', List.nodup_cons] at hnodup
        exact absurd (hmem hfr hk) hnodup.1
      · exact ih hfr hfr' (hnodup.sublist ((List.sublist_cons_self g rest).filterMap Frame.holds))

/-- A thread whose operation holds a lock has no frame that does. -/
theorem not_holds_of_op (hs : poolMachine.Reachable s) (hop : (s.threads u).op.holds = some q)
    (hf : f ∈ (s.threads t).stack) : f.holds ≠ some (.queue q) := by
  intro hk
  have hopMem : .queue q ∈ ((s.threads u).op.holds.map LockId.queue).toList := by simp [hop]
  have hu : s.mem.lockedBy (.queue q) = some u :=
    ((holdsExactly hs u).named _).mpr (List.mem_append_left _ hopMem)
  have hfMem : .queue q ∈ (s.threads t).stack.filterMap Frame.holds :=
    List.mem_filterMap.mpr ⟨f, hf, hk⟩
  have ht : s.mem.lockedBy (.queue q) = some t :=
    ((holdsExactly hs t).named _).mpr (List.mem_append_right _ hfMem)
  obtain rfl : u = t := Option.some.inj (hu.symm.trans ht)
  exact (List.nodup_append.mp (holdsExactly hs u).nodup).2.2 _ hopMem _ hfMem rfl

/-- A queue a frame has locked is changed by that frame, and by an assignment of the same
thread. -/
theorem queue_of_held (hs : poolMachine.Reachable s) (hstep : poolMachine.step s l = some s')
    (hf : f ∈ (s.threads t).stack) (hq : f.holds = some (.queue q)) :
    s'.mem.queues.queue q = s.mem.queues.queue q ∨
      l.1 = t ∧ ((∃ rest, (s.threads t).stack = f :: rest) ∨
        ∃ p r caller index j rest held n,
          (s.threads t).stack = .assign p r caller index (.place j) :: rest ∧
            q = .inbox p (batchTarget (s.mem.pools p) caller index) ∧
            f = .inboxes p r caller (batchTarget (s.mem.pools p) caller index) (.nested held n)) := by
  obtain ⟨m, th, hth, rfl⟩ := Machine.ofThreads_step hstep
  have hlocked : (s.mem.queues.queue q).locked = some t := locked_of_frame hs hf hq
  have hlocal := threadStep_cases hth
  revert hlocal
  generalize hthread : s.threads l.1 = th₀
  intro hlocal
  cases hlocal with
  | resume | call | answer => exact .inl rfl
  | @frame ctx ctx' f' rest fs m' h =>
      have hstack : (s.threads l.1).stack = f' :: rest := by rw [hthread]
      have hself : f'.holds = some (.queue q) → l.1 = t ∧ ∃ rest, (s.threads t).stack = f :: rest :=
        fun h => by
          have hmem : f' ∈ (s.threads l.1).stack := by simp [hstack]
          obtain ⟨ht, rfl⟩ := holder_unique hs hf hq hmem h
          exact ⟨ht, rest, ht ▸ hstack⟩
      have hset : ∀ q' b, q' ≠ q → (s.mem.setQueue q' b).queues.queue q = s.mem.queues.queue q :=
        fun q' b hne => Function.update_of_ne hne.symm ..
      cases step_jobs hs hstack h with
      | quiet hq' | push _ hq' => exact .inl (by rw [hq'])
      | spawn | start | finish => exact .inl rfl
      | drop j => exact .inl (by rw [s.mem.dropJob_queues])
      | relock q' b hb hlock =>
          rcases eq_or_ne q' q with rfl | hne
          · rcases hlock with hnone | hholds
            · rw [hlocked] at hnone
              cases hnone
            · exact .inr ⟨(hself hholds).1, .inl (hself hholds).2⟩
          · exact .inl (hset q' b hne)
      | truncate q' n hlock =>
          rcases eq_or_ne q' q with rfl | hne
          · exact .inr ⟨(hself hlock).1, .inl (hself hlock).2⟩
          · exact .inl (hset q' _ hne)
      | place p r caller index j hplace =>
          subst hplace
          by_cases hne : .inbox p (batchTarget (s.mem.pools p) caller index) = q
          · have hmem : .assign p r caller index (.place j) ∈ (s.threads l.1).stack := by simp [hstack]
            obtain ⟨_, _, _, ⟨⟨hcaller, -⟩, -⟩, -⟩ := (calls hs l.1).of_mem hmem
            have hid := (live_of_pool hs hmem rfl).id
            obtain ⟨held, n, hlevel⟩ := levels hs hmem
              (batchTarget_lt (((poolsOk hs).pools p).total hid) hcaller index)
            obtain ⟨ht, hf'⟩ := holder_unique hs hf hq hlevel (congrArg (some ∘ LockId.queue) hne)
            subst ht
            exact .inr ⟨rfl, .inr ⟨p, r, caller, index, j, rest, held, n, hstack, hne.symm, hf'.symm⟩⟩
          · exact .inl (hset _ _ hne)
      | clear xs _ hxs _ _ _ hqueue =>
          refine .inl (hqueue q fun hmem => ?_)
          exact (hxs _ hmem).unused hs hstack t f hf (Frame.worksOn_of_holds hq)
  | @tick ctx stack o o' queues i hi hexec =>
      refine .inl (i.exec_queue_of_locked hexec (fun hguards => ?_) hlocked)
      have hop : (s.threads l.1).op.holds = some q := by
        rw [hthread]
        exact Op.holds_of_guards hi hguards
      exact not_holds_of_op hs hop hf hq

end Levels

end XynokConcurrency
