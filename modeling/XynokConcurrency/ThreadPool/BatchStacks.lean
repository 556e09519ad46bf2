import XynokConcurrency.ThreadPool.BatchCalls
import XynokConcurrency.ThreadPool.ScopeSteps

/-!
# The frames of one batch

The frames that publish a batch stand on each other without a gap, down to the call of
{lit}`scope` that runs the batch.  So a thread has one innermost frame of a batch, and all
others wait for it.

Main results:

- Theorem {lit}`publishes_pair`: of two frames of one batch one waits for the other.
- Theorem {lit}`not_early_of_makes`: no job is made for a scope that has not begun to run
  its closure.

Source: {lit}`thread_pool/mod.rs`, {lit}`thread_pool/shared.rs`.
-/

namespace XynokConcurrency

/-! ## What stands on a frame -/

/-- The kinds of frames that may stand on a frame, results apart. -/
def Frame.bears : Frame → List FrameTag
  | .user _ => [.callEnd, .callDone, .spawnEnd, .spawnDone, .newPool, .dropPool]
  | .callEnd _ => [.enqueue, .enqueueWait, .wake, .scope]
  | .spawnEnd _ => [.enqueue, .enqueueWait, .wake, .spawn, .spawnWait]
  | .scope _ _ (.closure _ _) => [.user, .batch]
  | .scope _ _ (.waiting _ _ _) => [.runUntil]
  | .runUntil _ _ _ .popping | .steal _ _ .popRefilled | .steal _ _ (.popStolen _)
  | .loop _ _ _ _ .popping => [.pop]
  | .runUntil _ _ _ .stealing | .loop _ _ _ _ .stealing => [.steal]
  | .pop _ .running | .steal _ _ .running => [.task]
  | .task _ .plain | .task _ (.scoped _) | .batch _ _ .intoIter | .assign _ _ _ _ .waiting => [.user]
  | .batch _ _ .publishing => [.publish]
  | .publish _ _ .assigning | .inboxes _ _ _ _ (.nested _ _) => [.inboxes, .assign]
  | .loop _ _ _ _ .sleeping => [.sleep]
  | .newPool _ .failed | .dropPool _ .shutdown => [.shutdown]
  | .scope _ _ (.dropHelper _ _) | .inboxes _ _ _ _ (.dropping _ _)
  | .shutdown _ _ _ (.tasksDropped _) | .shutdown _ _ _ (.inboxDropped _)
  | .dropPool _ .tasksDropped => [.dropJobs, .dropEnv]
  | _ => []

/-- A frame stands on one that may bear its kind. -/
theorem Frame.Under.tag_mem {f g : Frame} (h : f.Under g) : f.tag = .ret ∨ f.tag ∈ g.bears := by
  cases f with
  | ret => exact .inl rfl
  | user u =>
      refine .inr ?_
      cases u with
      | main => exact h.elim
      | body j => rcases h with rfl | ⟨_, rfl⟩ <;> simp [Frame.tag, Frame.bears]
      | closure s =>
          obtain ⟨_, _, _, rfl⟩ := h
          simp [Frame.tag, Frame.bears]
      | intoIter s =>
          obtain ⟨_, rfl⟩ := h
          simp [Frame.tag, Frame.bears]
      | iterNext s =>
          obtain ⟨_, _, _, rfl⟩ := h
          simp [Frame.tag, Frame.bears]
  | loop => exact h.elim
  | callEnd | callDone | spawnEnd | spawnDone | newPool | dropPool =>
      obtain ⟨_, rfl⟩ := h
      simp [Frame.tag, Frame.bears]
  | enqueue | enqueueWait | wake => rcases h with rfl | ⟨_, rfl⟩ <;> simp [Frame.tag, Frame.bears]
  | spawn | spawnWait | scope | publish =>
      obtain rfl := h
      simp [Frame.tag, Frame.bears]
  | runUntil =>
      obtain ⟨_, _, _, rfl⟩ := h
      simp [Frame.tag, Frame.bears]
  | pop =>
      rcases h with ⟨_, _, rfl⟩ | ⟨_, rfl⟩ | ⟨_, _, rfl⟩ | ⟨_, _, _, _, -, rfl⟩ <;>
        simp [Frame.tag, Frame.bears]
  | steal => rcases h with ⟨_, rfl⟩ | ⟨_, _, _, -, rfl⟩ <;> simp [Frame.tag, Frame.bears]
  | task => rcases h with ⟨_, rfl⟩ | ⟨_, _, rfl⟩ <;> simp [Frame.tag, Frame.bears]
  | batch | sleep =>
      obtain ⟨_, _, rfl⟩ := h
      simp [Frame.tag, Frame.bears]
  | inboxes => rcases h with ⟨rfl, -⟩ | ⟨_, _, _, rfl, -⟩ <;> simp [Frame.tag, Frame.bears]
  | assign => rcases h with rfl | ⟨_, _, _, rfl⟩ <;> simp [Frame.tag, Frame.bears]
  | shutdown => rcases h with rfl | rfl <;> simp [Frame.tag, Frame.bears]
  | dropJobs | dropEnv =>
      rcases h with ⟨_, _, _, _, rfl⟩ | ⟨_, _, _, _, _, _, rfl⟩ | ⟨_, _, _, _, rfl⟩ |
        ⟨_, _, _, _, rfl⟩ | ⟨_, rfl⟩ <;> simp [Frame.tag, Frame.bears]

/-- On the wrapper of a scope's job stands the job's closure. -/
theorem Linked.body_of_scoped {t : Tid} {f : Frame} {below : List Frame} {j r : Nat}
    (hl : Linked t (f :: .task j (.scoped r) :: below)) (hret : f.tag ≠ .ret) :
    f = .user (.body j) := by
  have hunder : f.Under (.task j (.scoped r)) := hl.1
  have htag := hunder.tag_mem.resolve_left hret
  simp only [Frame.bears, List.mem_singleton] at htag
  cases f <;> cases htag
  rename_i u
  cases u with
  | body k =>
      obtain h | ⟨_, h⟩ := hunder <;> cases h
      rfl
  | main => exact hunder.elim
  | closure =>
      obtain ⟨_, _, _, h⟩ := hunder
      cases h
  | intoIter =>
      obtain ⟨_, h⟩ := hunder
      cases h
  | iterNext =>
      obtain ⟨_, _, _, h⟩ := hunder
      cases h

/-! ## Frames that only wait -/

/-- A frame that only waits for the one above it. -/
structure Frame.Passive (f : Frame) : Prop where
  step : ∀ t c m ctx, f.step t c m ctx = none
  call : ∀ m ctx, f.call m ctx = none
  waits : ∀ ctx q, ¬ f.Waits ctx q
  ret : ∀ o, f ≠ .ret o

section Passive

variable {s s' : PoolState} {t : Tid} {l : Tid × Choice} {f : Frame} {rest : List Frame}

theorem Frame.passive_nested {p r caller i n : Nat} {held : List Nat} :
    (Frame.inboxes p r caller i (.nested held n)).Passive :=
  ⟨fun _ _ _ _ => rfl, fun _ _ => rfl, fun _ _ => id, by simp⟩

/-- A frame that only waits stays, or takes a result. -/
theorem Frame.Passive.stays (hf : f.Passive) (hs : poolMachine.Reachable s)
    (hstep : poolMachine.step s l = some s') (hmem : f ∈ (s.threads t).stack) :
    f ∈ (s'.threads t).stack ∨
      t = l.1 ∧ s'.mem = s.mem ∧ ∃ o rest, (s.threads l.1).stack = .ret o :: f :: rest ∧
        (s'.threads l.1).stack = f.resume o ++ rest := by
  obtain ⟨hlocal, hothers⟩ := thread_step hstep
  by_cases ht : t = l.1
  · subst ht
    have hcalling := calling hs l.1
    revert hlocal hmem hcalling
    generalize s.threads l.1 = th₀
    generalize s'.threads l.1 = th₁
    generalize s'.mem = m'
    intro hlocal hmem hcalling
    cases hlocal with
    | @resume ctx o g rest =>
        rcases List.mem_cons.mp hmem with h | hmem
        · exact absurd h (hf.ret o)
        · rcases List.mem_cons.mp hmem with rfl | hmem
          · exact .inr ⟨rfl, rfl, o, rest, rfl, rfl⟩
          · exact .inl (List.mem_append_right _ hmem)
    | call hc =>
        rcases List.mem_cons.mp hmem with rfl | hmem
        · rw [hf.call] at hc
          cases hc
        · exact .inl (List.mem_cons_of_mem _ hmem)
    | frame h =>
        rcases List.mem_cons.mp hmem with rfl | hmem
        · rw [hf.step] at h
          cases h
        · exact .inl (List.mem_append_right _ hmem)
    | answer =>
        rcases List.mem_cons.mp hmem with rfl | hmem
        · rcases hcalling with h | ⟨g, rest', q, h, hwaits, -⟩
          · cases h
          · cases h
            exact absurd hwaits (hf.waits _ _)
        · exact .inl (List.mem_append_right _ hmem)
    | tick => exact .inl hmem
  · rw [hothers t ht]
    exact .inl hmem

/-- A frame that calls nothing and waits for nothing steps by itself. -/
theorem step_of_top (hs : poolMachine.Reachable s) (hstep : poolMachine.step s l = some s')
    (hstack : (s.threads l.1).stack = f :: rest) (hret : ∀ o, f ≠ .ret o)
    (hcall : ∀ m ctx, f.call m ctx = none) (hwaits : ∀ ctx q, ¬ f.Waits ctx q) :
    ∃ ctx' fs, f.step l.1 l.2 s.mem (s.threads l.1).ctx = some (s'.mem, ctx', fs) ∧
      (s'.threads l.1).stack = fs ++ rest := by
  have hidle : (s.threads l.1).op = .idle := by
    rcases calling hs l.1 with h | ⟨g, rest', q, hstack', h, -⟩
    · exact h
    · rw [hstack] at hstack'
      cases hstack'
      exact absurd h (hwaits _ _)
  have hlocal := (thread_step hstep).1
  revert hstack hidle hlocal
  generalize s.threads l.1 = th₀
  generalize s'.threads l.1 = th₁
  generalize s'.mem = m'
  intro hstack hidle hlocal
  cases hlocal with
  | resume => exact absurd (List.cons.inj hstack).1.symm (hret _)
  | call hc =>
      rw [(List.cons.inj hstack).1, hcall] at hc
      cases hc
  | @frame ctx ctx' f' rest' fs m' h =>
      obtain ⟨rfl, rfl⟩ := List.cons.inj hstack
      exact ⟨ctx', fs, h, rfl⟩
  | answer => cases hidle
  | tick hi =>
      cases hidle
      cases hi

/-- A frame that only waits is not what its thread steps. -/
theorem Frame.Passive.not_steps (hf : f.Passive) (hs : poolMachine.Reachable s)
    (hstep : poolMachine.step s l = some s') : (s.threads l.1).stack ≠ f :: rest := by
  intro hstack
  obtain ⟨ctx', fs, h, -⟩ := step_of_top hs hstep hstack hf.ret hf.call hf.waits
  rw [hf.step] at h
  cases h

/-- A frame that does not wait for another one is the innermost. -/
theorem top_of_not_awaits (hs : poolMachine.Reachable s) (hmem : f ∈ (s.threads t).stack)
    (hf : f.awaits = false) : ∃ rest, (s.threads t).stack = f :: rest := by
  have htail := awaits hs t
  revert hmem htail
  generalize (s.threads t).stack = stack
  intro hmem htail
  cases stack with
  | nil => cases hmem
  | cons g rest =>
      rcases List.mem_cons.mp hmem with rfl | h
      · exact ⟨rest, rfl⟩
      · have h' := htail f h
        rw [hf] at h'
        cases h'

end Passive

/-! ## The frames of a batch -/

/-- A frame that waits for other frames of its batch. -/
def Frame.Publishing (p r : Nat) : Frame → Prop
  | .inboxes q s _ _ (.nested _ _) | .publish q s .assigning | .batch q s .publishing => q = p ∧ s = r
  | _ => False

/-- A frame of a scope that has not made a job yet. -/
def Frame.Early (r : Nat) : Frame → Prop
  | .scope _ s .start | .scope _ s (.tryHost _) | .scope _ s (.enter _ _) => s = r
  | .batch _ s .intoIter | .batch _ s .caller => s = r
  | .inboxes _ s _ _ .enter | .inboxes _ s _ _ .lock | .inboxes _ s _ _ (.originalLen _) => s = r
  | _ => False

section Stack

variable {t : Tid} {m : Mem} {f g k : Frame} {rest stack : List Frame} {p q r : Nat}

/-- A frame that waits for its batch is one of the batch. -/
theorem Frame.Publishing.publishes (h : f.Publishing p r) : f.publishes = some (p, r) := by
  unfold Frame.Publishing at h
  split at h <;> first | exact h.elim | (obtain ⟨rfl, rfl⟩ := h; rfl)

/-- What a frame of a batch stands on. -/
theorem Frame.Under.below_publishes (h : f.Under k) (hf : f.publishes = some (p, r)) :
    (∃ role previous, k = .scope p r (.closure role previous)) ∨ k.Publishing p r := by
  cases f <;> simp only [Frame.publishes, reduceCtorEq, Option.some.injEq, Prod.mk.injEq] at hf <;>
    obtain ⟨rfl, rfl⟩ := hf
  case batch => exact .inl h
  case inboxes => obtain ⟨rfl, -⟩ | ⟨i, held, len, rfl, -⟩ := h <;> exact .inr ⟨rfl, rfl⟩
  case assign => obtain rfl | ⟨i, held, len, rfl⟩ := h <;> exact .inr ⟨rfl, rfl⟩
  case publish =>
    obtain rfl := h
    exact .inr ⟨rfl, rfl⟩

/-- Below a frame of a batch all others wait. -/
theorem Linked.below_publishes (hl : Linked t (f :: rest)) (hfits : Everywhere (Frame.Fits t m) (f :: rest))
    (hf : f.publishes = some (p, r)) (hg : g ∈ rest) (hgr : g.publishes = some (q, r)) :
    g.Publishing p r := by
  induction rest generalizing f with
  | nil => cases hg
  | cons k below ih =>
      rcases Frame.Under.below_publishes hl.1 hf with ⟨role, previous, rfl⟩ | hk
      · rcases List.mem_cons.mp hg with rfl | hg
        · cases hgr
        · -- a batch of the same scope further down would stand on a second call of it
          have hbelow : Linked t below := hl.2.2
          obtain ⟨role', previous', hscope⟩ := hbelow.scope_of_publishes hg hgr
          obtain ⟨-, -, -, -, -, -, -, hunique, -⟩ := hfits.2.1
          exact absurd rfl (hunique _ hscope)
      · rcases List.mem_cons.mp hg with h | hg
        · exact h ▸ hk
        · exact ih hl.2 hfits.2 hk.publishes hg

/-- A frame that stands on the frame of scope {lit}`r`. -/
def Frame.InScope (r : Nat) (f : Frame) : Prop :=
  f = .user (.closure r) ∨ ∃ p pc, f = .batch p r pc

/-- What stands on the frame of a scope. -/
theorem Linked.scope_of_inScope (hl : Linked t (f :: rest)) (hf : f.InScope r) :
    ∃ p role previous below, rest = .scope p r (.closure role previous) :: below := by
  cases rest with
  | nil => obtain rfl | ⟨p, pc, rfl⟩ := hf <;> exact hl.1.elim
  | cons k below =>
      obtain rfl | ⟨p, pc, rfl⟩ := hf
      · obtain ⟨p, role, previous, rfl⟩ := hl.1
        exact ⟨p, role, previous, below, rfl⟩
      · obtain ⟨role, previous, rfl⟩ := hl.1
        exact ⟨p, role, previous, below, rfl⟩

/-- One frame stands on the frame of a scope. -/
theorem Linked.inScope_unique (hl : Linked t stack) (hfits : Everywhere (Frame.Fits t m) stack)
    (hf : f ∈ stack) (hg : g ∈ stack) (hfr : f.InScope r) (hgr : g.InScope r) : f = g := by
  have hbelow : ∀ {f g : Frame} {rest : List Frame}, Linked t (f :: rest) →
      Everywhere (Frame.Fits t m) (f :: rest) → f.InScope r → g.InScope r → g ∉ rest := by
    intro f g rest hl hfits hfr hgr hg
    obtain ⟨p, role, previous, below, rfl⟩ := hl.scope_of_inScope hfr
    rcases List.mem_cons.mp hg with rfl | hg
    · obtain h | ⟨q, pc, h⟩ := hgr <;> cases h
    · have hrest : Linked t below := hl.2.2
      obtain ⟨above', rest', rfl, -, -⟩ := hrest.of_mem hg
      have hlevel : Linked t (g :: rest') := (everywhere_append.mp hrest).2
      obtain ⟨q, role', previous', below', rfl⟩ := hlevel.scope_of_inScope hgr
      obtain ⟨-, -, -, -, -, -, -, hunique, -⟩ := hfits.2.1
      exact hunique (.scope q r (.closure role' previous')) (by simp) rfl
  induction stack with
  | nil => cases hf
  | cons k rest ih =>
      rcases List.mem_cons.mp hf with rfl | hf' <;> rcases List.mem_cons.mp hg with h | hg'
      · exact h.symm
      · exact absurd hg' (hbelow hl hfits hfr hgr)
      · subst h
        exact absurd hf' (hbelow hl hfits hgr hfr)
      · exact ih hl.2 hfits.2 hf' hg'

/-- A stack has one frame of a call of a scope. -/
theorem scope_unique {pc pc' : ScopePc} (hfits : Everywhere (Frame.Fits t m) stack)
    (hf : .scope p r pc ∈ stack) (hg : .scope q r pc' ∈ stack) : p = q ∧ pc = pc' := by
  induction stack with
  | nil => cases hf
  | cons k rest ih =>
      rcases List.mem_cons.mp hf with rfl | hf' <;> rcases List.mem_cons.mp hg with h | hg'
      · cases h
        exact ⟨rfl, rfl⟩
      · obtain ⟨-, -, -, -, -, -, -, hunique, -⟩ := hfits.1
        exact absurd rfl (hunique _ hg')
      · subst h
        obtain ⟨-, -, -, -, -, -, -, hunique, -⟩ := hfits.1
        exact absurd rfl (hunique _ hf')
      · exact ih hfits.2 hf' hg'

/-- A frame of a batch that is not the call stands on its call. -/
theorem Linked.batch_of_publishes (hl : Linked t stack) (hf : f ∈ stack)
    (hfp : f.publishes = some (p, r)) :
    (∃ pc, f = .batch p r pc) ∨ .batch p r .publishing ∈ stack := by
  induction stack generalizing f with
  | nil => cases hf
  | cons g rest ih =>
      rcases List.mem_cons.mp hf with rfl | hf
      · cases rest with
        | nil => cases f <;> first | exact hl.1.elim | cases hfp
        | cons k below =>
            rcases Frame.Under.below_publishes hl.1 hfp with ⟨role, previous, rfl⟩ | hk
            · left
              cases f <;> simp only [Frame.publishes, reduceCtorEq, Option.some.injEq,
                Prod.mk.injEq] at hfp <;> obtain ⟨rfl, rfl⟩ := hfp
              case batch pc => exact ⟨pc, rfl⟩
              case inboxes => obtain ⟨h, -⟩ | ⟨i, held, len, h, -⟩ := hl.1 <;> cases h
              case assign => obtain h | ⟨i, held, len, h⟩ := hl.1 <;> cases h
              case publish => cases hl.1
            · right
              rcases ih hl.2 List.mem_cons_self hk.publishes with ⟨pc, rfl⟩ | hmem
              · cases pc <;> first | exact hk.elim | simp
              · exact List.mem_cons_of_mem _ hmem
      · exact (ih hl.2 hf hfp).imp_right (List.mem_cons_of_mem _)

end Stack

section Threads

variable {s : PoolState} {t u : Tid} {f g : Frame} {rest : List Frame} {p q r : Nat}

/-- The caller of a scope has its frame. -/
theorem caller_of_scope {pc : ScopePc} (hs : poolMachine.Reachable s)
    (hf : .scope p r pc ∈ (s.threads t).stack) :
    (s.mem.scopes r).caller = t ∧ r < s.mem.nextScope ∧ (s.mem.scopes r).root = p := by
  obtain ⟨_, _, _, hfit, _⟩ := (placed hs t).fits.of_mem hf
  exact ⟨hfit.2.2.2.1, hfit.2.1, hfit.2.2.1⟩

/-- The caller of the scope of a batch publishes it. -/
theorem caller_of_publishes (hs : poolMachine.Reachable s) (hf : f ∈ (s.threads t).stack)
    (hfp : f.publishes = some (p, r)) :
    (s.mem.scopes r).caller = t ∧ r < s.mem.nextScope ∧ (s.mem.scopes r).root = p := by
  obtain ⟨role, previous, hscope⟩ := (linked hs t).scope_of_publishes hf hfp
  exact caller_of_scope hs hscope

/-- Of two frames of one batch one waits for the other. -/
theorem publishes_pair (hs : poolMachine.Reachable s) (hf : f ∈ (s.threads t).stack)
    (hg : g ∈ (s.threads u).stack) (hfp : f.publishes = some (p, r))
    (hgp : g.publishes = some (q, r)) : f = g ∨ f.Publishing q r ∨ g.Publishing p r := by
  obtain rfl : t = u :=
    (caller_of_publishes hs hf hfp).1.symm.trans (caller_of_publishes hs hg hgp).1
  have hl := linked hs t
  have hfits := (placed hs t).fits
  revert hf hg hl hfits
  generalize (s.threads t).stack = stack
  intro hf hg hl hfits
  induction stack with
  | nil => cases hf
  | cons k rest ih =>
      rcases List.mem_cons.mp hf with rfl | hf' <;> rcases List.mem_cons.mp hg with h | hg'
      · exact .inl h.symm
      · exact .inr (.inr (hl.below_publishes hfits hfp hg' hgp))
      · subst h
        exact .inr (.inl (hl.below_publishes hfits hgp hf' hfp))
      · exact ih hf' hg' hl.2 hfits.2

/-- The closure of a scope somebody borrows runs on the thread that called it. -/
theorem closure_of_spawnEnd (hs : poolMachine.Reachable s) (hmem : .spawnEnd r ∈ (s.threads t).stack) :
    .user (.closure r) ∈ (s.threads (s.mem.scopes r).caller).stack := by
  have hpos : 0 < (s.threads t).stack.countP (Frame.isSpawn r) :=
    List.countP_pos_iff.mpr ⟨_, hmem, by simp [Frame.isSpawn]⟩
  rw [← (placed hs t).spawners, List.count_pos_iff] at hpos
  exact (placed hs _).opened r ((poolsOk hs).spawners r (List.ne_nil_of_mem hpos)) rfl

/-- Who spawns on a scope borrows it. -/
theorem spawnEnd_of_spawn {pc : SpawnPc} (hs : poolMachine.Reachable s)
    (hmem : .spawn p r pc ∈ (s.threads t).stack) : .spawnEnd r ∈ (s.threads t).stack := by
  obtain ⟨above, rest, hstack, hon, -⟩ := (linked hs t).of_mem hmem
  cases rest with
  | nil => exact hon.elim
  | cons g below =>
      obtain rfl := hon
      simp [hstack]

/-- Where a job of a scope is made, the scope's closure runs, or its batch is published. -/
theorem inScope_of_makes (hs : poolMachine.Reachable s) (hf : f ∈ (s.threads t).stack)
    (hmakes : f.Makes r) :
    ∃ g ∈ (s.threads (s.mem.scopes r).caller).stack,
      g = .user (.closure r) ∨ ∃ p, g = .batch p r .publishing := by
  unfold Frame.Makes at hmakes
  split at hmakes
  · subst hmakes
    exact ⟨_, closure_of_spawnEnd hs (spawnEnd_of_spawn hs hf), .inl rfl⟩
  · subst hmakes
    rcases (linked hs t).batch_of_publishes hf rfl with ⟨pc, h⟩ | hmem
    · cases h
    · exact ⟨_, (caller_of_publishes hs hf rfl).1 ▸ hmem, .inr ⟨_, rfl⟩⟩
  · exact hmakes.elim

/-- The frame of the call that an early frame of a scope belongs to. -/
theorem Frame.Early.cases (hs : poolMachine.Reachable s) (hf : f ∈ (s.threads t).stack)
    (hearly : f.Early r) :
    (s.mem.scopes r).caller = t ∧
      ((∃ p pc, f = .scope p r pc ∧ pc.seated = false) ∨ ∃ p, f.publishes = some (p, r)) := by
  unfold Frame.Early at hearly
  split at hearly <;> first
    | exact hearly.elim
    | subst hearly; exact ⟨(caller_of_scope hs hf).1, .inl ⟨_, _, rfl, rfl⟩⟩
    | subst hearly; exact ⟨(caller_of_publishes hs hf rfl).1, .inr ⟨_, rfl⟩⟩

/-- An early frame does not wait for its batch. -/
theorem Frame.Early.not_publishing (hearly : f.Early r) : ¬ f.Publishing p q := by
  intro h
  unfold Frame.Publishing at h
  split at h <;> first | exact h | exact hearly

/-- A batch that is assigned is not early. -/
theorem not_early_of_assign {caller index : Nat} {pc : AssignPc} (hs : poolMachine.Reachable s)
    (hf : f ∈ (s.threads t).stack) (hearly : f.Early r)
    (ha : .assign p r caller index pc ∈ (s.threads u).stack) : False := by
  obtain ⟨hcaller, ⟨q, pc', rfl, hseated⟩ | ⟨q, hfp⟩⟩ := hearly.cases hs hf
  · obtain ⟨role, previous, hscope⟩ := (linked hs u).scope_of_publishes ha rfl
    obtain rfl : t = u := hcaller.symm.trans (caller_of_publishes hs ha rfl).1
    obtain ⟨-, rfl⟩ := scope_unique (placed hs t).fits hf hscope
    cases hseated
  · rcases publishes_pair hs hf ha hfp rfl with rfl | h | h
    · exact hearly
    · exact hearly.not_publishing h
    · exact h

/-- No job is made for a scope that is early. -/
theorem not_early_of_makes (hs : poolMachine.Reachable s) (hf : f ∈ (s.threads t).stack)
    (hearly : f.Early r) (hg : g ∈ (s.threads u).stack) (hmakes : g.Makes r) : False := by
  unfold Frame.Makes at hmakes
  split at hmakes
  · subst hmakes
    have hclosure := closure_of_spawnEnd hs (spawnEnd_of_spawn hs hg)
    obtain ⟨rfl, ⟨p, pc, rfl, hseated⟩ | ⟨p, hfp⟩⟩ := hearly.cases hs hf
    · obtain ⟨q, role, previous, hscope⟩ := (linked hs _).scope_of_closure hclosure
      obtain ⟨-, rfl⟩ := scope_unique (placed hs _).fits hf hscope
      cases hseated
    · rcases (linked hs _).batch_of_publishes hf hfp with ⟨pc, rfl⟩ | hbatch
      · cases (linked hs _).inScope_unique (placed hs _).fits hf hclosure (.inr ⟨_, _, rfl⟩) (.inl rfl)
      · cases (linked hs _).inScope_unique (placed hs _).fits hbatch hclosure (.inr ⟨_, _, rfl⟩)
          (.inl rfl)
  · subst hmakes
    exact not_early_of_assign hs hf hearly hg
  · exact hmakes

end Threads

end XynokConcurrency
