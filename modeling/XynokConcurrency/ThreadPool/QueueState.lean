import XynokConcurrency.ThreadPool.CallReturn
import XynokConcurrency.ThreadPool.JobSteps

/-!
# The queues of the pools are in order

The invariants of the queue operations hold of all the queues of all the pools at
once: the owner side of every deque has one thread at most, a deque or a queue is
created afresh only while nobody uses it, and what is created afresh was empty.

Main results:

- Theorem {lit}`lyingIn_untouched`: a container nobody has used yet is empty.
- Theorem {lit}`queues_ok`: every deque is modelled by a ring in good order, and the
  operations keep to the locks.

Source: {lit}`thread_pool/mod.rs`, {lit}`thread_pool/shared.rs`.
-/

namespace XynokConcurrency

/-- The operations of all threads. -/
def PoolState.ops (s : PoolState) (t : Tid) : Op DequeId QueueId Nat :=
  (s.threads t).op

/-- Nobody has used a container yet: its pool is not built, or the scope it belongs
to has not decided about a helper. -/
def PoolState.Untouched (s : PoolState) : Place → Prop
  | .deque (.slot p _) | .queue (.tasks p) | .queue (.inbox p _) =>
      ¬ (s.mem.PoolId p ∧ (s.mem.pools p).initCompleted = true)
  | .deque (.helper r) | .queue (.helperInbox r) =>
      s.mem.nextScope ≤ r ∨
        ∃ t p pc, .scope p r pc ∈ (s.threads t).stack ∧ pc.role = none

section Unused

variable {s s' : PoolState} {t u : Tid} {f g : Frame} {rest above : List Frame} {x : Place}
  {p q r : Nat}

/-- What a frame empties, nobody works on. -/
theorem Frame.Clears.unused (hx : f.Clears s.mem x) (hs : poolMachine.Reachable s)
    (hstack : (s.threads t).stack = f :: rest) : s.Unused x := by
  have hfit : f.Fits t s.mem rest := by
    have hfits := (placed hs t).fits
    rw [hstack] at hfits
    exact hfits.1
  cases f with
  | user u =>
      obtain rfl := hx
      exact (unused_of_not_live hs not_live_of_fresh 0).2.2
  | newPool p pc =>
      obtain ⟨i, rfl | rfl⟩ := hx
      · exact (unused_of_not_live hs hfit.not_live_of_newPool i).1
      · exact (unused_of_not_live hs hfit.not_live_of_newPool i).2.1
  | scope p r pc =>
      obtain rfl | rfl := hx
      · exact (unused_of_scope hs hstack).1
      · exact (unused_of_scope hs hstack).2
  | shutdown p handles count pc =>
      obtain ⟨-, hmanaged, hlt, hjoined⟩ := hfit
      cases pc with
      | dropTasks i =>
          obtain rfl := hx
          exact (unused_of_not_live hs (hmanaged.not_live (hjoined.quiescent hlt)) i).1
      | dropInbox i =>
          obtain rfl := hx
          have hquiet : (s.mem.pools p).Quiescent := fun k hk => hjoined k (hlt k hk)
          exact (unused_of_not_live hs (hmanaged.not_live hquiet) i).2.1
      | _ => exact hx.elim
  | dropPool p pc =>
      obtain ⟨-, hmanaged, -, hquiet⟩ := hfit
      cases pc with
      | tasks =>
          obtain rfl := hx
          exact (unused_of_not_live hs (hmanaged.not_live (hquiet (by simp))) 0).2.2
      | _ => exact hx.elim
  | _ => exact hx.elim

/-- What a frame creates afresh, nobody has used yet. -/
theorem Frame.Creates.untouched (hx : f.Creates s.mem x) (hs : poolMachine.Reachable s)
    (hstack : (s.threads t).stack = f :: rest) : s.Untouched x := by
  have hfit : f.Fits t s.mem rest := by
    have hfits := (placed hs t).fits
    rw [hstack] at hfits
    exact hfits.1
  cases f with
  | user u =>
      obtain rfl := hx
      exact fun h => lt_irrefl _ h.1.2
  | newPool p pc =>
      obtain ⟨i, rfl | rfl⟩ := hx <;> exact fun h => by simp [hfit.2.2.1] at h
  | scope p r pc =>
      cases pc with
      | tryHost previous =>
          have hmem : .scope p r (.tryHost previous) ∈ (s.threads t).stack :=
            hstack ▸ List.mem_cons_self
          obtain rfl | rfl := hx <;> exact .inr ⟨t, p, _, hmem, rfl⟩
      | _ => exact hx.elim
  | _ => exact hx.elim

/-- Nothing but a result stands on a scope call that has not decided how it takes part. -/
theorem Linked.ret_above {pc : ScopePc} (hl : Linked t (above ++ .scope p r pc :: rest))
    (hpc : pc.role = none) : ∀ f ∈ above, ∃ o, f = .ret o := by
  have hscope : ∀ {f : Frame}, f.Under (.scope p r pc) → ∃ o, f = .ret o := by
    intro f hu
    cases f with
    | user u => cases pc <;> cases hpc <;> cases u <;> simp [Frame.Under] at hu
    | ret o => exact ⟨o, rfl⟩
    | _ => cases pc <;> cases hpc <;> simp [Frame.Under] at hu
  have hret : ∀ {f : Frame} {o}, f.Under (.ret o) → ∃ o, f = .ret o := by
    intro f o hu
    cases f with
    | user u => cases u <;> simp [Frame.Under] at hu
    | ret o => exact ⟨o, rfl⟩
    | _ => simp [Frame.Under] at hu
  induction above with
  | nil => simp
  | cons g above ih =>
      obtain ⟨hon, hl⟩ := hl
      refine List.forall_mem_cons.mpr ⟨?_, ih hl⟩
      cases above with
      | nil => exact hscope hon
      | cons h above =>
          obtain ⟨o, rfl⟩ := ih hl _ List.mem_cons_self
          exact hret hon

/-- No frame works for a helper of a scope call that has not decided how it takes part. -/
theorem no_helper_of_undecided (hs : poolMachine.Reachable s) {pc : ScopePc}
    (hmem : .scope p r pc ∈ (s.threads t).stack) (hpc : pc.role = none)
    (hf : f ∈ (s.threads u).stack) : f.worker ≠ some (.helper q r) := by
  intro hw
  obtain ⟨above, below, hstack, hfit, -⟩ := (placed hs t).fits.of_mem hmem
  obtain ⟨hcaller, above', below', pc', hstack', hscope⟩ := scope_of_helper hs hf hw
  obtain rfl : t = u := hfit.2.2.2.1.symm.trans hcaller
  have hlinked := linked hs t
  rw [hstack] at hlinked
  have hret := hlinked.ret_above hpc
  have hnot : ∀ g ∈ above, g ≠ f := by
    rintro g hg rfl
    obtain ⟨o, rfl⟩ := hret g hg
    cases hw
  rw [hstack] at hstack'
  rcases List.append_eq_append_iff.mp hstack' with ⟨as, rfl, htail⟩ | ⟨as, rfl, htail⟩
  · cases as with
    | nil =>
        obtain ⟨rfl, -⟩ := List.cons.inj htail
        cases hw
    | cons g as =>
        obtain ⟨-, rfl⟩ := List.cons.inj htail
        exact hfit.2.2.2.2.2.2.2.1 _ (List.mem_append_right _ (List.mem_cons_of_mem _ hscope)) rfl
  · cases as with
    | nil =>
        obtain ⟨rfl, -⟩ := List.cons.inj htail
        cases hw
    | cons g as =>
        obtain ⟨rfl, -⟩ := List.cons.inj htail
        exact hnot f (by simp) rfl

/-- Nobody works on a container nobody has used yet. -/
theorem PoolState.Untouched.unused (h : s.Untouched x) (hs : poolMachine.Reachable s) :
    s.Unused x := by
  have hpool : ∀ {p}, ¬ (s.mem.PoolId p ∧ (s.mem.pools p).initCompleted = true) → ¬ s.mem.Live p :=
    fun hp hlive => hp ⟨hlive.id, hlive.built⟩
  have hhelper : ∀ {r}, (s.mem.nextScope ≤ r ∨
      ∃ t p pc, .scope p r pc ∈ (s.threads t).stack ∧ pc.role = none) →
      ∀ u, ∀ f ∈ (s.threads u).stack, ¬ ∃ p, f.worker = some (.helper p r) := by
    rintro r (hr | ⟨t, p, pc, hmem, hpc⟩) u f hf ⟨q, hw⟩
    · obtain ⟨-, above, below, pc, hstack, hscope⟩ := scope_of_helper hs hf hw
      have hmem : Frame.scope q r pc ∈ (s.threads u).stack := by
        rw [hstack]
        exact List.mem_append_right _ (List.mem_cons_of_mem _ hscope)
      obtain ⟨_, _, _, hfit, -⟩ := (placed hs u).fits.of_mem hmem
      exact absurd hfit.2.1 (not_lt.mpr hr)
    · exact no_helper_of_undecided hs hmem hpc hf hw
  rcases x with (⟨p, i⟩ | r) | (p | ⟨p, i⟩ | r)
  · exact (unused_of_not_live hs (hpool h) i).1
  · exact hhelper h
  · exact (unused_of_not_live hs (hpool h) 0).2.2
  · exact (unused_of_not_live hs (hpool h) i).2.1
  · exact hhelper h

end Unused

/-! ## Containers nobody has used are empty -/

section Untouched

variable {s s' : PoolState} {t : Tid} {c : Choice} {m m' : Mem} {ctx ctx' : Context} {f : Frame}
  {fs : List Frame} {th th' : Thread} {p r : Nat} {pc : ScopePc} {x : Place}

/-- A scope call that has not decided how it takes part was there before, or is new. -/
theorem Frame.step_undecided (hs : f.step t c m ctx = some (m', ctx', fs))
    (hmem : .scope p r pc ∈ fs) (hpc : pc.role = none) :
    (∃ pc', f = .scope p r pc' ∧ pc'.role = none) ∨ m.nextScope ≤ r := by
  refine or_iff_not_imp_right.mpr fun hlt => ?_
  obtain ⟨_, _, -, hg, -⟩ := (Frame.step_standsOn hs (not_le.mp hlt)).of_mem hmem
  obtain ⟨-, hf⟩ := hg rfl
  cases f with
  | scope q s pc' =>
      simp only [Frame.step] at hs
      cases pc' <;> simp only [scopeStep] at hs <;> (repeat' split at hs) <;> cases hs <;>
        simp_all [ScopePc.role]
  | _ => cases hf

/-- No result makes a scope call undecided. -/
theorem Frame.resume_undecided {o : Outcome} (hmem : .scope p r pc ∈ f.resume o)
    (hpc : pc.role = none) : f = .scope p r pc := by
  rcases (f.resume_givesWay o).tag hmem with rfl | htag
  · rfl
  · cases f with
    | scope q s pc' => cases pc' <;> cases o <;> simp_all [Frame.resume, ScopePc.role]
    | user u => simp [Frame.resume] at hmem
    | _ => simp [Frame.tag, FrameTag.next] at htag

theorem ThreadStep.undecided (hs : ThreadStep t c m th m' th') (hmem : .scope p r pc ∈ th'.stack)
    (hpc : pc.role = none) :
    (∃ pc', .scope p r pc' ∈ th.stack ∧ pc'.role = none) ∨ m.nextScope ≤ r := by
  cases hs with
  | resume =>
      rcases List.mem_append.mp hmem with hmem | hmem
      · exact .inl ⟨pc, by simp [Frame.resume_undecided hmem hpc], hpc⟩
      · exact .inl ⟨pc, by simp [hmem], hpc⟩
  | call h =>
      rcases List.mem_cons.mp hmem with rfl | hmem
      · exact absurd (Frame.waits_of_call h) (by simp [Frame.Waits])
      · exact .inl ⟨pc, List.mem_cons_of_mem _ hmem, hpc⟩
  | frame h =>
      rcases List.mem_append.mp hmem with hmem | hmem
      · obtain ⟨pc', rfl, hpc'⟩ | hr := Frame.step_undecided h hmem hpc
        · exact .inl ⟨pc', List.mem_cons_self, hpc'⟩
        · exact .inr hr
      · exact .inl ⟨pc, List.mem_cons_of_mem _ hmem, hpc⟩
  | answer =>
      rename_i f rest q
      rcases List.mem_append.mp hmem with hmem | hmem
      · rcases (f.answer_givesWay q).tag hmem with rfl | htag
        · exact .inl ⟨pc, List.mem_cons_self, hpc⟩
        · cases f with
          | scope q r' pc' =>
              exact .inl ⟨pc, List.mem_cons.mpr (.inl (List.mem_singleton.mp hmem)), hpc⟩
          | user u => simp [Frame.answer] at hmem
          | _ => simp [Frame.tag, FrameTag.next] at htag
      · exact .inl ⟨pc, List.mem_cons_of_mem _ hmem, hpc⟩
  | tick => exact .inl ⟨pc, hmem, hpc⟩

/-- What nobody has used after a step, nobody had used before. -/
theorem untouched_before (hs : poolMachine.Reachable s) {l : Tid × Choice}
    (hstep : poolMachine.step s l = some s') (hx : s'.Untouched x) : s.Untouched x := by
  obtain ⟨m, th, hth, rfl⟩ := Machine.ofThreads_step hstep
  have hstep := threadStep_cases hth
  have hg : s.mem.Grows m := (hstep.life (placed hs l.1) (linked hs l.1)).grows
  have hpool : ∀ {p}, ¬ (m.PoolId p ∧ (m.pools p).initCompleted = true) →
      ¬ (s.mem.PoolId p ∧ (s.mem.pools p).initCompleted = true) :=
    fun h ⟨hp, hinit⟩ => h ⟨hg.poolId hp, (hg.pools _ hp).initCompleted hinit⟩
  have hhelper : ∀ {r}, (m.nextScope ≤ r ∨ ∃ t p pc,
      .scope p r pc ∈ (Function.update s.threads l.1 th t).stack ∧ pc.role = none) →
      s.mem.nextScope ≤ r ∨ ∃ t p pc, .scope p r pc ∈ (s.threads t).stack ∧ pc.role = none := by
    rintro r (hr | ⟨t, p, pc, hmem, hpc⟩)
    · exact .inl (hg.nextScope.trans hr)
    · by_cases ht : t = l.1
      · subst ht
        rw [Function.update_self] at hmem
        obtain ⟨pc', hmem, hpc⟩ | hr := hstep.undecided hmem hpc
        · exact .inr ⟨_, p, pc', hmem, hpc⟩
        · exact .inl hr
      · rw [Function.update_of_ne ht] at hmem
        exact .inr ⟨t, p, pc, hmem, hpc⟩
  rcases x with (⟨p, i⟩ | r) | (p | ⟨p, i⟩ | r)
  exacts [hpool hx, hhelper hx, hpool hx, hpool hx, hhelper hx]

/-- A frame that holds the lock of a queue works on it. -/
theorem Frame.worksOn_of_holds {q : QueueId} (h : f.holds = some (.queue q)) :
    f.WorksOn (.queue q) := by
  unfold Frame.holds at h
  split at h <;> (try split at h) <;> cases h
  exact rfl

/-- What a frame does not work on keeps its jobs, or is emptied. -/
theorem Frame.JobStep.lyingIn (h : f.JobStep t m m' fs) (hx : ¬ f.WorksOn x) :
    m'.lyingIn x = m.lyingIn x ∨ f.Clears m x ∧ m'.lyingIn x = [] := by
  have hset : ∀ q b, (.queue q ≠ x ∨ b.elements = (m.queues.queue q).elements) →
      (m.setQueue q b).lyingIn x = m.lyingIn x := by
    intro q b hb
    cases x with
    | deque d => rfl
    | queue r =>
        rcases eq_or_ne r q with rfl | hne
        · simpa [Mem.lyingIn, Queues.setQueue] using hb
        · simp [Mem.lyingIn, Queues.setQueue, hne]
  have hsame : ∀ m'' : Mem, m''.queues = m.queues → m''.lyingIn x = m.lyingIn x := by
    intro m'' hq
    cases x <;> simp [Mem.lyingIn, hq]
  cases h with
  | quiet hq => exact .inl (hsame _ hq)
  | push p hq => exact .inl (hsame _ hq)
  | spawn | start | finish => exact .inl (hsame _ rfl)
  | drop j js hf => exact .inl (hsame _ (m.dropJob_queues j))
  | relock q b hb => exact .inl (hset q b (.inr hb))
  | truncate q n hlock =>
      exact .inl (hset q _ (.inl fun h => hx (h ▸ Frame.worksOn_of_holds hlock)))
  | place p s caller index j hf =>
      refine .inl (hset _ _ (.inl fun h => hx ?_))
      subst hf h
      exact rfl
  | clear xs hnodup hxs hm hdeque hnew hqueue hempty =>
      by_cases hmem : x ∈ xs
      · cases x with
        | deque d =>
            obtain ⟨capacity, hcap, hd, -⟩ := hnew d hmem
            exact .inr ⟨hxs _ hmem, (congrArg WorkerQueue.unclaimed hd).trans
              (WorkerQueue.unclaimed_new capacity hcap)⟩
        | queue q => exact .inr ⟨hxs _ hmem, hempty q hmem⟩
      · cases x with
        | deque d => exact .inl (congrArg WorkerQueue.unclaimed (hdeque d hmem))
        | queue q => exact .inl (congrArg QueueBatching.elements (hqueue q hmem))

end Untouched

/-- An empty container stays empty while nobody works on it. -/
theorem lyingIn_unused_step {s s' : PoolState} {l : Tid × Choice} {x : Place}
    (hs : poolMachine.Reachable s) (hstep : poolMachine.step s l = some s') (hunused : s.Unused x)
    (hblank : ∀ f rest, (s.threads l.1).stack = f :: rest → ∀ y, f.Creates s.mem y →
      s.mem.lyingIn y = [])
    (hempty : s.mem.lyingIn x = []) : s'.mem.lyingIn x = [] := by
  obtain ⟨m, th, hth, rfl⟩ := Machine.ofThreads_step hstep
  have hlocal := threadStep_cases hth
  revert hlocal
  generalize hthread : s.threads l.1 = th₀
  intro hlocal
  cases hlocal with
  | resume | call | answer => exact hempty
  | @frame ctx ctx' f rest fs m' h =>
      have hstack : (s.threads l.1).stack = f :: rest := by rw [hthread]
      have hjobs := Frame.step_jobs h (hblank f rest hstack)
      rcases hjobs.lyingIn (hunused l.1 f (by simp [hstack])) with h | ⟨-, h⟩
      · exact h.trans hempty
      · exact h
  | @tick ctx stack o o' queues i hi hexec =>
      rcases calling hs l.1 with hidle | ⟨f, rest, c, hstack, hwaits, hwithin⟩
      · rw [hthread] at hidle
        rw [show o = .idle from hidle] at hi
        cases hi
      · have hworks := hwaits.worksOn
        have hfree := hunused l.1 f (hstack ▸ List.mem_cons_self)
        rw [hthread] at hwithin
        have hframe := hwithin.frame hi hexec
        cases x with
        | deque d =>
            exact (congrArg WorkerQueue.unclaimed
              (hframe.1 d fun hd => hfree (hworks.1 d hd))).trans hempty
        | queue q =>
            exact (congrArg QueueBatching.elements
              (hframe.2 q fun hq => hfree (hworks.2 q hq))).trans hempty

/-- A container nobody has used yet is empty. -/
theorem lyingIn_untouched {s : PoolState} (hs : poolMachine.Reachable s) :
    ∀ {x}, s.Untouched x → s.mem.lyingIn x = [] := by
  refine hs.invariant (I := fun s => ∀ {x}, s.Untouched x → s.mem.lyingIn x = []) ?_ ?_
  · rintro s rfl x -
    cases x with
    | deque d => exact WorkerQueue.unclaimed_new 1 acceptsCapacity_one
    | queue q => rfl
  · intro s l s' hr hI hstep x hx
    have hbefore := untouched_before hr hstep hx
    exact lyingIn_unused_step hr hstep (hbefore.unused hr)
      (fun f rest hstack y hy => hI (hy.untouched hr hstack)) (hI hbefore)

/-- An empty container nobody works on stays empty. -/
theorem lyingIn_unused {s s' : PoolState} {l : Tid × Choice} {x : Place}
    (hs : poolMachine.Reachable s) (hstep : poolMachine.step s l = some s') (hunused : s.Unused x)
    (hempty : s.mem.lyingIn x = []) : s'.mem.lyingIn x = [] :=
  lyingIn_unused_step hs hstep hunused
    (fun _ _ hstack _ hy => lyingIn_untouched hs (hy.untouched hs hstack)) hempty

/-- Every step of a frame of a run is one of the ways. -/
theorem step_jobs {s : PoolState} {t : Tid} {c : Choice} {f : Frame} {rest fs : List Frame}
    {m : Mem} {ctx ctx' : Context} (hs : poolMachine.Reachable s)
    (hstack : (s.threads t).stack = f :: rest) (h : f.step t c s.mem ctx = some (m, ctx', fs)) :
    f.JobStep t s.mem m fs :=
  Frame.step_jobs h fun _ hx => lyingIn_untouched hs (hx.untouched hs hstack)

/-! ## The invariants of the queues -/

section Hands

variable {δ κ τ α : Type} [DecidableEq δ] {o : Op δ κ α} {m m' : Queues δ κ τ α}

/-- An operation that has slots of a deque in its hands shows state of that deque. -/
theorem Op.shown_of_stretch {d : δ} {cursor : UInt32} {n : Nat}
    (h : o.staged = some (d, cursor, n) ∨ o.won = some (d, cursor, n)) :
    o.claimAt d ≠ none ∨ o.ownAt d ≠ none := by
  rcases h with h | h <;> cases o <;> simp only [Op.staged, Op.won, reduceCtorEq] at h <;> cases h
  case inr.stealTake | inr.stealWrite => exact .inl (by simp [Op.claimAt])
  all_goals exact .inr (by simp [Op.ownAt])

/-- What an operation has in its hands depends on what it shows state of, and on the
front of the queue it drains. -/
theorem Op.hands_congr
    (hd : ∀ d, o.claimAt d ≠ none ∨ o.ownAt d ≠ none → m'.deque d = m.deque d)
    (hq : ∀ q n, o.drains = some (q, n) →
      (m'.queue q).elements.take n = (m.queue q).elements.take n) : o.hands m' = o.hands m := by
  have hstretch : ∀ p, o.staged = p ∨ o.won = p → m'.stretch p = m.stretch p := by
    rintro (_ | ⟨d, cursor, n⟩) hp
    · rfl
    · simp only [Queues.stretch, hd d (Op.shown_of_stretch hp)]
  have hfront : m'.front o.drains = m.front o.drains := by
    cases hdrains : o.drains with
    | none => rfl
    | some p => exact hq p.1 p.2 hdrains
  rw [Op.hands, Op.hands, hstretch _ (.inl rfl), hstretch _ (.inr rfl), hfront]

end Hands

/-- Every deque is modelled by a ring in good order, the operations keep to the locks,
and both refine the atomic deques. -/
structure QueuesOk (s : PoolState) : Prop where
  deques : DequesInv s.mem.queues.deque s.ops
  queues : QueuesInv s.mem.queues.queue s.ops
  spec : ∃ b, Refines s.mem.queues s.ops b

/-- The invariants from those of the operations under way. -/
theorem QueuesOk.of_ops {s : PoolState} {ops : Tid → Op DequeId QueueId Nat} (h : s.ops = ops)
    (hdeques : DequesInv s.mem.queues.deque ops) (hqueues : QueuesInv s.mem.queues.queue ops)
    (hspec : ∃ b, Refines s.mem.queues ops b) : QueuesOk s := by
  subst h
  exact ⟨hdeques, hqueues, hspec⟩

section Steps

variable {s : PoolState} {t u : Tid} {c : Choice} {f : Frame} {rest fs : List Frame} {m : Mem}
  {ctx ctx' : Context}

/-- Operations of all threads after a step. -/
theorem PoolState.ops_update (m : Mem) (th : Thread) :
    PoolState.ops ⟨m, Function.update s.threads t th⟩ = Function.update s.ops t th.op := by
  funext u
  rcases eq_or_ne u t with rfl | hu
  · simp [PoolState.ops]
  · simp [PoolState.ops, hu]

/-- A step of a frame leaves the deques alone but for those it creates afresh, which no
operation is on. -/
theorem step_deque (hs : poolMachine.Reachable s) (hstack : (s.threads t).stack = f :: rest)
    (h : f.step t c s.mem ctx = some (m, ctx', fs)) (d : DequeId) :
    m.queues.deque d = s.mem.queues.deque d ∨
      (∃ capacity, ∃ hcap : acceptsCapacity capacity,
        m.queues.deque d = .new capacity hcap ∧ ∀ r, d = .helper r → capacity = 1) ∧
        ∀ u, (s.ops u).claimAt d = none ∧ (s.ops u).ownAt d = none := by
  cases step_jobs hs hstack h with
  | clear xs hnodup hxs hm hdeque hnew =>
      by_cases hmem : .deque d ∈ xs
      · exact .inr ⟨hnew d hmem, fun u => ((hxs _ hmem).unused hs hstack).deque hs u⟩
      · exact .inl (hdeque d hmem)
  | quiet hq | push p hq => exact .inl (by rw [hq])
  | drop j js hf => exact .inl (by rw [s.mem.dropJob_queues])
  | _ => exact .inl rfl

/-- The lock of a queue names the operation that holds it. -/
theorem locked_of_holds (hs : poolMachine.Reachable s) {q : QueueId}
    (h : (s.ops t).holds = some q) : (s.mem.queues.queue q).locked = some t :=
  ((holdsExactly hs t).named (.queue q)).mpr
    (List.mem_append_left _ (by simpa [PoolState.ops] using h))

/-- The lock of a queue names the frame that holds it. -/
theorem locked_of_frame (hs : poolMachine.Reachable s) {q : QueueId}
    (hf : f ∈ (s.threads t).stack) (h : f.holds = some (.queue q)) :
    (s.mem.queues.queue q).locked = some t :=
  ((holdsExactly hs t).named (.queue q)).mpr
    (List.mem_append_right _ (List.mem_filterMap.mpr ⟨f, hf, h⟩))

/-- A step of a frame leaves the queues alone that an operation has locked, but for what
it puts at the end. -/
theorem step_queue (hs : poolMachine.Reachable s) (hstack : (s.threads t).stack = f :: rest)
    (hidle : (s.threads t).op = .idle) (h : f.step t c s.mem ctx = some (m, ctx', fs)) {q : QueueId}
    (hq : (s.ops u).holds = some q) :
    (m.queues.queue q).locked = (s.mem.queues.queue q).locked ∧
      ∃ more, (m.queues.queue q).elements = (s.mem.queues.queue q).elements ++ more := by
  have hlocked := locked_of_holds hs hq
  have hsame : ∀ {m' : Mem}, m'.queues.queue q = s.mem.queues.queue q →
      (m'.queues.queue q).locked = (s.mem.queues.queue q).locked ∧
        ∃ more, (m'.queues.queue q).elements = (s.mem.queues.queue q).elements ++ more :=
    fun h => by rw [h]; exact ⟨rfl, [], (List.append_nil _).symm⟩
  have hother : ∀ {r} b, (s.mem.queues.queue r).locked = none ∨ f.holds = some (.queue r) →
      (s.mem.setQueue r b).queues.queue q = s.mem.queues.queue q := by
    intro r b hr
    have hne : q ≠ r := by
      rintro rfl
      rcases hr with hr | hr
      · rw [hlocked] at hr
        cases hr
      · have hmine := locked_of_frame hs (hstack ▸ List.mem_cons_self) hr
        obtain rfl : u = t := Option.some.inj (hlocked.symm.trans hmine)
        simp only [PoolState.ops, hidle, Op.holds, reduceCtorEq] at hq
    simp [Queues.setQueue, hne]
  cases step_jobs hs hstack h with
  | quiet hqueues | push p hqueues => exact hsame (by rw [hqueues])
  | spawn | start | finish => exact hsame rfl
  | drop j js hf => exact hsame (by rw [s.mem.dropJob_queues])
  | relock r b hb hlock => exact hsame (hother b hlock)
  | truncate r n hlock => exact hsame (hother _ (.inr hlock))
  | place p r caller index j hf =>
      rcases eq_or_ne q (.inbox p (batchTarget (s.mem.pools p) caller index)) with rfl | hne
      · exact ⟨by simp [Queues.setQueue], [j], by simp [Queues.setQueue]⟩
      · exact hsame (by simp [Queues.setQueue, hne])
  | clear xs hnodup hxs hm hdeque hnew hqueue =>
      by_cases hmem : .queue q ∈ xs
      · exact absurd hq (((hxs _ hmem).unused hs hstack).queue hs u)
      · exact hsame (hqueue q hmem)

/-- A step of a frame changes the hands of no operation. -/
theorem step_hands (hs : poolMachine.Reachable s) (hqueues : QueuesInv s.mem.queues.queue s.ops)
    (hstack : (s.threads t).stack = f :: rest) (hidle : (s.threads t).op = .idle)
    (h : f.step t c s.mem ctx = some (m, ctx', fs)) (u : Tid) :
    (s.ops u).hands m.queues = (s.ops u).hands s.mem.queues := by
  refine Op.hands_congr (fun d hd => ?_) fun q n hdrains => ?_
  · rcases step_deque hs hstack h d with hsame | ⟨-, hfree⟩
    · exact hsame
    · exact absurd hd (by simp [hfree u])
  · have hholds := Op.holds_of_drains hdrains
    obtain ⟨-, more, hmore⟩ := step_queue hs hstack hidle h hholds
    have henough := hqueues.enough u q hholds
    simp only [Op.draining, hdrains, if_true] at henough
    rw [hmore, List.take_append_of_le_length henough]

end Steps

/-- A frame may call an operation on a deque only while no other thread is on its owner
side. -/
theorem free_of_call {s s' : PoolState} {t : Tid} {q : QueueCall DequeId QueueId Nat}
    (hs' : poolMachine.Reachable s') (hops : s'.ops = Function.update s.ops t (.start q)) (d : DequeId)
    (hd : q.ownerSide = some d) (u : Tid) (hu : u ≠ t) : (s.ops u).ownAt d = none := by
  have hop : ∀ u, (s'.threads u).op = Function.update s.ops t (.start q) u := fun u => congrFun hops u
  by_contra hown
  have hother : (s'.threads u).op.ownerSide = some d := by
    rw [hop u, Function.update_of_ne hu]
    exact (Op.ownAt_isSome_iff _ d).mp (Option.isSome_iff_ne_none.mpr hown)
  have hmine : (s'.threads t).op.ownerSide = some d := by
    rw [hop t, Function.update_self, ← hd]
    cases q <;> rfl
  exact hu (owner_unique hs' hother hmine)

/-- The invariants of the queue operations hold of all the queues of all the pools. -/
theorem queuesOk {s : PoolState} (hs : poolMachine.Reachable s) : QueuesOk s := by
  refine hs.invariant (I := QueuesOk) ?_ ?_
  · rintro s rfl
    have hidle : ∀ t, PoolState.ops ⟨.initial, Thread.initial⟩ t = .idle := by
      intro t
      cases t <;> rfl
    refine ⟨.initial hidle fun d => ⟨0, 1, acceptsCapacity_one, rfl⟩, ⟨fun t q hq => ?_,
      fun t q hq => ?_⟩, ⟨⟨_, _, _, fun _ => .idle⟩, fun _ => rfl, fun _ => rfl, fun _ => rfl,
      fun t => ?_⟩⟩
    · simp [hidle, Op.holds] at hq
    · simp [hidle, Op.holds] at hq
    · rw [hidle]
      rfl
  · intro s l s' hr hI hstep
    have hr' : poolMachine.Reachable s' := .step hr trivial hstep
    obtain ⟨m, th, hth, rfl⟩ := Machine.ofThreads_step hstep
    have hops := PoolState.ops_update (s := s) (t := l.1) m th
    have hlocal := threadStep_cases hth
    obtain ⟨hdeques, hqueues, b, hb⟩ := hI
    revert hlocal
    generalize hthread : s.threads l.1 = th₀
    intro hlocal
    have hop : s.ops l.1 = th₀.op := congrArg Thread.op hthread
    have hsame : th₀.op = .idle → Function.update s.ops l.1 .idle = s.ops := by
      intro hidle
      rw [← hidle, ← hop]
      exact Function.update_eq_self ..
    cases hlocal with
    | resume =>
        rw [hsame rfl] at hops
        exact .of_ops hops hdeques hqueues ⟨b, hb⟩
    | call h =>
        refine .of_ops hops (hdeques.call hop _ (free_of_call hr' hops)) (hqueues.update (Op.holds_start _))
          ⟨_, hb.enter ?_ ?_ (Op.matches_start _ _)⟩
        · rw [hop]
          rfl
        · exact Op.drains_start _
    | answer =>
        have hidle : Op.Matches [] Op.idle (Status.idle : Status DequeId QueueId Nat) := rfl
        exact .of_ops hops (hdeques.ret hop) (hqueues.update rfl)
          ⟨_, hb.enter (by rw [hop]; rfl) rfl hidle⟩
    | @frame ctx ctx' f rest fs m' h =>
        have hstack : (s.threads l.1).stack = f :: rest := by rw [hthread]
        rw [hsame rfl] at hops
        obtain ⟨b', hb', -⟩ := hb.change (step_hands hr hqueues hstack (by rw [hthread]) h)
        refine .of_ops hops (hdeques.renew fun d => ?_) (hqueues.change fun u q hq => ?_) ⟨b', hb'⟩
        · refine (step_deque hr hstack h d).imp_right fun hnew => ?_
          obtain ⟨⟨capacity, hcap, hd, -⟩, hfree⟩ := hnew
          exact ⟨⟨capacity, hcap, hd⟩, hfree⟩
        obtain ⟨hlocked, more, hmore⟩ := step_queue hr hstack (by rw [hthread]) h hq
        exact ⟨hlocked, by simp [hmore]⟩
    | @tick ctx stack o o' queues i hi hexec =>
        have hop : s.ops l.1 = o := hop
        rw [← hop] at hi
        obtain ⟨b', -, hb'⟩ := hb.tick (fun _ => rfl) hdeques hqueues hi hexec
        exact .of_ops hops (hdeques.tick hi hexec) (hqueues.tick hi hexec) ⟨b', hb'⟩

end XynokConcurrency
