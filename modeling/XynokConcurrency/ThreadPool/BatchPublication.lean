import XynokConcurrency.ThreadPool.BatchIterators

/-!
# A batch is published at once or not at all

While the iterator of a batch runs, every job it has given out lies behind what the inboxes
held when they were locked, and nobody else gets at it.  When the iterator panics, every
level cuts its inbox back to that, and drops what it cut off.

Main results:

- Theorem {lit}`inbox_levels`: a locked inbox holds what it held before, and jobs of the
  batch behind it.
- Theorem {lit}`batch_published_at_once`: a batch is published at once or not at all.

Source: {lit}`thread_pool/shared.rs`, {lit}`utils/queue_batching.rs`.
-/

namespace XynokConcurrency

/-! ## The content of a locked inbox -/

/-- What a locked inbox held, with jobs of scope {lit}`r` behind it. -/
def Mem.Extends (m : Mem) (r : Nat) (held elements : List Nat) : Prop :=
  ∃ placed, elements = held ++ placed ∧ ∀ j ∈ placed, m.JobOf r j

/-- The inbox of a level holds what it held when it was locked, and jobs of the batch behind
it until they are taken back. -/
def Frame.LevelOk (m : Mem) : Frame → Prop
  | .inboxes p r _ i pc =>
      let b := m.queues.queue (.inbox p i)
      match pc with
      | .enter | .lock => True
      | .originalLen held | .dropping held _ => b.elements = held
      | .nested held n | .truncate held n _ => n = held.length ∧ m.Extends r held b.elements
      | .storeLen held o => m.Extends r held b.elements ∧ (o.payload ≠ none → b.elements = held)
      | .unlock held o =>
          m.Extends r held b.elements ∧ (o.payload ≠ none → b.elements = held) ∧
            b.len = b.elements.length
  | .assign _ r _ _ (.place j) => m.JobOf r j
  | _ => True

section Levels

variable {s s' : PoolState} {t u : Tid} {l : Tid × Choice} {c : Choice} {m m' : Mem}
  {ctx ctx' : Context} {f g : Frame} {fs rest : List Frame} {p r i j : Nat}

theorem Frame.levelOk_of_tag (hi : f.tag ≠ .inboxes) (ha : f.tag ≠ .assign) : f.LevelOk m := by
  cases f <;> simp_all [Frame.LevelOk, Frame.tag]

theorem Mem.Extends.mono {held elements : List Nat} (h : m.Extends r held elements)
    (hm : ∀ j, m.JobOf r j → m'.JobOf r j) : m'.Extends r held elements := by
  obtain ⟨placed, rfl, hplaced⟩ := h
  exact ⟨placed, rfl, fun j hj => hm j (hplaced j hj)⟩

/-- A level is in order while its inbox is left alone. -/
theorem Frame.LevelOk.congr (h : f.LevelOk m) (hm : ∀ r j, m.JobOf r j → m'.JobOf r j)
    (hq : ∀ q, f.holds = some (.queue q) → m'.queues.queue q = m.queues.queue q) :
    f.LevelOk m' := by
  cases f with
  | inboxes p r caller i pc =>
      cases pc <;> simp only [Frame.LevelOk] at h ⊢ <;> rw [hq _ rfl]
      case originalLen | dropping => exact h
      case nested | truncate => exact ⟨h.1, h.2.mono (hm r)⟩
      case storeLen => exact ⟨h.1.mono (hm r), h.2⟩
      case unlock => exact ⟨h.1.mono (hm r), h.2⟩
  | assign p r caller index pc =>
      cases pc with
      | place j => exact hm r j h
      | _ => trivial
  | _ => trivial

/-- Taking a result. -/
theorem Frame.LevelOk.resume {o : Outcome} (h : f.LevelOk m) (hg : g ∈ f.resume o) :
    g.LevelOk m := by
  unfold Frame.resume at hg
  split at hg <;> (try split at hg) <;> simp only [List.mem_cons, List.not_mem_nil, or_false] at hg <;>
    (try rcases hg with rfl | rfl) <;> first | exact h | exact trivial | skip
  case h_23 hret => exact ⟨h.2, fun hne => absurd (o.payload_of_returns hret) hne⟩
  case h_24 held x =>
    have heq : _ = held := h
    exact ⟨⟨[], by simpa using heq, by simp⟩, fun _ => heq⟩

/-- Starting a queue operation. -/
theorem Frame.call_levelOk {q : QueueCall DequeId QueueId Nat} (hc : f.call m ctx = some (q, g)) :
    g.LevelOk m := by
  unfold Frame.call at hc
  split at hc <;> (try split at hc) <;> cases hc <;> trivial

/-- Taking the result of a queue operation. -/
theorem Frame.LevelOk.answer {res : QueueRes Nat} (h : f.LevelOk m) (hg : g ∈ f.answer res) :
    g.LevelOk m := by
  unfold Frame.answer at hg
  split at hg <;> (try split at hg) <;> simp only [List.mem_cons, List.not_mem_nil, or_false] at hg <;>
    (try rcases hg with rfl | rfl) <;> exact h

/-- One level of the recursion. -/
theorem inboxesStep_levelOk {caller : Nat} {pc : InboxPc}
    (h : (Frame.inboxes p r caller i pc).LevelOk m)
    (hs : inboxesStep t m p r caller i pc = some (m', fs)) (hg : g ∈ fs) : g.LevelOk m' := by
  cases pc <;> simp only [inboxesStep, reduceCtorEq] at hs <;> (try split at hs) <;> cases hs <;>
    simp only [List.mem_cons, List.not_mem_nil, or_false] at hg
  case isTrue.refl => subst hg; trivial
  case isFalse.refl => subst hg; trivial
  case h_1.refl => subst hg; simp [Frame.LevelOk, Queues.setQueue]
  case originalLen.refl held =>
    have heq : _ = held := h
    rcases hg with rfl | rfl
    · trivial
    · exact ⟨congrArg List.length heq, [], by simpa using heq, by simp⟩
  case truncate.refl held n x =>
    obtain ⟨rfl, placed, heq, -⟩ := h
    rcases hg with rfl | rfl
    · trivial
    · simp [Frame.LevelOk, heq, Queues.setQueue]
  case storeLen.refl held o =>
    obtain ⟨hext, hpanic⟩ := h
    subst hg
    simp only [Frame.LevelOk, Mem.setQueue_queues, Queues.setQueue, Function.update_self]
    exact ⟨hext.mono fun _ hj => hj, hpanic, trivial⟩
  case unlock.refl => subst hg; trivial

/-- A step of a frame. -/
theorem Frame.LevelOk.step (h : f.LevelOk m) (hs : f.step t c m ctx = some (m', ctx', fs))
    (hg : g ∈ fs) : g.LevelOk m' := by
  by_cases htag : g.tag = .inboxes ∨ g.tag = .assign
  · have hnext := Frame.step_givesWay hs g hg
    have hfrom : f.tag = .batch ∨ f.tag = .inboxes ∨ f.tag = .assign := by
      rcases htag with h | h <;> rw [h] at hnext <;> revert hnext <;> cases f.tag <;>
        simp [FrameTag.next]
    cases f with
    | batch p r pc =>
        simp only [Frame.step, keepMem_eq] at hs
        obtain ⟨hs, -, -⟩ := hs
        cases pc <;> simp only [batchStep, reduceCtorEq] at hs
        cases hs
        simp only [List.mem_cons, List.not_mem_nil, or_false] at hg
        rcases hg with rfl | rfl | rfl <;> trivial
    | inboxes p r caller i pc =>
        simp only [Frame.step, keep_eq] at hs
        exact inboxesStep_levelOk h hs.1 hg
    | assign p r caller index pc =>
        simp only [Frame.step, keep_eq] at hs
        obtain ⟨hs, -⟩ := hs
        cases pc <;> simp only [assignStep, reduceCtorEq] at hs <;> cases hs <;>
          simp only [List.mem_cons, List.not_mem_nil, or_false] at hg
        · rcases hg with rfl | rfl <;> trivial
        · subst hg
          exact ⟨Nat.lt_succ_self _, by simp [newJob, Job.fresh]⟩
        · subst hg
          trivial
    | _ => simp [Frame.tag] at hfrom
  · push Not at htag
    exact Frame.levelOk_of_tag htag.1 htag.2

end Levels

section Levels

variable {s s' : PoolState} {t : Tid} {l : Tid × Choice} {f g : Frame} {rest : List Frame}
  {p r caller index i j : Nat}

/-- What a step that puts a job of a batch into an inbox does. -/
theorem step_place (hs : poolMachine.Reachable s) (hstep : poolMachine.step s l = some s')
    (hstack : (s.threads l.1).stack = .assign p r caller index (.place j) :: rest) :
    s'.mem = s.mem.setQueue (.inbox p (batchTarget (s.mem.pools p) caller index))
      { s.mem.queues.queue (.inbox p (batchTarget (s.mem.pools p) caller index)) with
        elements := (s.mem.queues.queue
          (.inbox p (batchTarget (s.mem.pools p) caller index))).elements ++ [j] } ∧
      (s'.threads l.1).stack = .assign p r caller (index + 1) .next :: rest := by
  obtain ⟨ctx', fs, h, hstack'⟩ := step_of_top hs hstep hstack (by simp) (fun _ _ => rfl) fun _ _ => id
  simp only [Frame.step, keep_eq, assignStep, Option.some.injEq, Prod.mk.injEq] at h
  obtain ⟨⟨hm, rfl⟩, -⟩ := h
  exact ⟨hm.symm, hstack'⟩

/-- A frame that holds a lock does not stand on itself. -/
theorem not_below_itself (hs : poolMachine.Reachable s) {k : LockId}
    (hstack : (s.threads t).stack = g :: rest) (hk : g.holds = some k) : g ∉ rest := by
  have hnodup := (List.nodup_append.mp (holdsExactly hs t).nodup).2.1
  rw [hstack, List.filterMap_cons, hk, List.nodup_cons] at hnodup
  exact fun hmem => hnodup.1 (List.mem_filterMap.mpr ⟨g, hmem, hk⟩)

/-- A level that does not step itself stays in order. -/
theorem Frame.LevelOk.stays (hs : poolMachine.Reachable s) (hstep : poolMachine.step s l = some s')
    (hall : ∀ t, ∀ f ∈ (s.threads t).stack, f.LevelOk s.mem) (hg : g ∈ (s.threads t).stack)
    (hself : l.1 = t → g ∈ (s.threads t).stack.tail ∨ ∀ rest, (s.threads t).stack ≠ g :: rest) :
    g.LevelOk s'.mem := by
  have h := hall t g hg
  have hjobs : ∀ r j, s.mem.JobOf r j → s'.mem.JobOf r j := fun r j hj => hj.step hs hstep
  by_cases hq : ∀ q, g.holds = some (.queue q) → s'.mem.queues.queue q = s.mem.queues.queue q
  · exact h.congr hjobs hq
  · push Not at hq
    obtain ⟨q, hholds, hchanged⟩ := hq
    rcases queue_of_held hs hstep hg hholds with hsame | ⟨rfl, ⟨rest, hstack⟩ |
      ⟨p, r, caller, index, j, rest, held, n, hstack, rfl, rfl⟩⟩
    · exact absurd hsame hchanged
    · rcases hself rfl with htail | hne
      · rw [hstack] at htail
        exact absurd htail (not_below_itself hs hstack hholds)
      · exact absurd hstack (hne rest)
    · -- the job of the batch goes behind what is there
      obtain ⟨hm, -⟩ := step_place hs hstep hstack
      have hj : s.mem.JobOf r j := hall l.1 (.assign p r caller index (.place j)) (by simp [hstack])
      obtain ⟨hn, placed, heq, hplaced⟩ := h
      refine ⟨hn, placed ++ [j], ?_, fun k hk => ?_⟩
      · simp [hm, heq, Queues.setQueue]
      · rcases List.mem_append.mp hk with hk | hk
        · exact hjobs r k (hplaced k hk)
        · rw [List.mem_singleton.mp hk]
          exact hjobs r j hj

end Levels

/-- A locked inbox holds what it held before, and jobs of the batch behind it. -/
theorem inbox_levels {s : PoolState} (hs : poolMachine.Reachable s) (t : Tid) :
    ∀ f ∈ (s.threads t).stack, f.LevelOk s.mem := by
  revert t
  refine Machine.Reachable.invariant (I := fun s => ∀ t, ∀ f ∈ (s.threads t).stack, f.LevelOk s.mem)
    ?_ ?_ hs
  · rintro s rfl (e | ⟨p, i⟩) f hf <;> rw [List.mem_singleton.mp hf] <;> trivial
  · intro s l s' hr hI hstep t g hg
    obtain ⟨hlocal, hothers⟩ := thread_step hstep
    by_cases ht : t = l.1
    · subst ht
      by_cases htag : g.tag = .inboxes ∨ g.tag = .assign
      · cases hlocal.of_mem hg with
        | kept h => exact Frame.LevelOk.stays hr hstep hI (List.mem_of_mem_tail h) fun _ => .inl h
        | waits hop _ h =>
            refine Frame.LevelOk.stays hr hstep hI h fun _ => .inr fun rest hstack => ?_
            rcases calling hr l.1 with hidle | ⟨f, rest', q, hstack', hwaits, -⟩
            · exact hop hidle
            · rw [hstack] at hstack'
              cases hstack'
              cases g <;> first | exact hwaits | simp [Frame.tag] at htag
        | @resumed o f rest hstack h hm => exact hm ▸ (hI l.1 f (by simp [hstack])).resume h
        | called _ h hm => exact hm ▸ Frame.call_levelOk h
        | @answered f rest res hstack h hm => exact hm ▸ (hI l.1 f (by simp [hstack])).answer h
        | @stepped f rest ctx' fs hstack hf _ h => exact (hI l.1 f (by simp [hstack])).step hf h
      · push Not at htag
        exact Frame.levelOk_of_tag htag.1 htag.2
    · rw [hothers t ht] at hg
      exact Frame.LevelOk.stays hr hstep hI hg fun h => absurd h.symm ht

/-! ## The jobs of a batch that is not published yet -/

/-- The job lies behind what a level's inbox held. -/
def PoolState.InLevel (s : PoolState) (r j : Nat) : Prop :=
  ∃ t p caller i held n, .inboxes p r caller i (.nested held n) ∈ (s.threads t).stack ∧
    j ∈ (s.mem.queues.queue (.inbox p i)).elements.drop n

/-- The job is about to be taken back out of a level's inbox. -/
def PoolState.InCut (s : PoolState) (r j : Nat) : Prop :=
  ∃ t p caller i held n x, .inboxes p r caller i (.truncate held n x) ∈ (s.threads t).stack ∧
    j ∈ (s.mem.queues.queue (.inbox p i)).elements.drop n

/-- The job is among those a level has taken back and drops. -/
def PoolState.InDrop (s : PoolState) (r j : Nat) : Prop :=
  ∃ t f p caller i held x rest, (s.threads t).stack = f :: .inboxes p r caller i (.dropping held x) :: rest ∧
    j ∈ f.carries

/-- The job is held back by the batch of scope {lit}`r`. -/
def PoolState.Retained (s : PoolState) (r j : Nat) : Prop :=
  s.InLevel r j ∨ s.InCut r j ∨ s.InDrop r j

section Accounting

variable {s s' : PoolState} {t u : Tid} {l : Tid × Choice} {f g : Frame} {rest : List Frame}
  {p r caller index i j : Nat}

/-- A job behind a level stays there until the level takes its result. -/
theorem PoolState.InLevel.step (h : s.InLevel r j) (hs : poolMachine.Reachable s)
    (hstep : poolMachine.step s l = some s') :
    s'.InLevel r j ∨
      ∃ p caller i held n o rest, s'.mem = s.mem ∧
        (s.threads l.1).stack = .ret o :: .inboxes p r caller i (.nested held n) :: rest ∧
        (s'.threads l.1).stack = (Frame.inboxes p r caller i (.nested held n)).resume o ++ rest ∧
        j ∈ (s.mem.queues.queue (.inbox p i)).elements.drop n := by
  obtain ⟨t, p, caller, i, held, n, hmem, hj⟩ := h
  rcases Frame.passive_nested.stays hs hstep hmem with hmem' | ⟨rfl, hm, o, rest, hstack, hstack'⟩
  · refine .inl ⟨t, p, caller, i, held, n, hmem', ?_⟩
    rcases queue_of_held hs hstep hmem rfl with hq | ⟨rfl, ⟨rest, hstack⟩ |
      ⟨p', r', caller', index, k, rest, held', n', hstack, hq, hlevel⟩⟩
    · rwa [hq]
    · exact absurd hstack (Frame.passive_nested.not_steps hs hstep)
    · cases hlevel
      obtain ⟨hm, -⟩ := step_place hs hstep hstack
      rw [hm]
      simp only [Mem.setQueue_queues, Queues.setQueue, Function.update_self, List.drop_append]
      exact List.mem_append_left _ hj
  · exact .inr ⟨p, caller, i, held, n, o, rest, hm, hstack, hstack', hj⟩

/-- Where a batch is assigned, its jobs are made by that assignment. -/
theorem assign_of_makes {pc : AssignPc} (hs : poolMachine.Reachable s)
    (ha : .assign p r caller index pc ∈ (s.threads t).stack) (hg : g ∈ (s.threads u).stack)
    (hmakes : g.Makes r) : u = t ∧ g = .assign p r caller index pc := by
  unfold Frame.Makes at hmakes
  split at hmakes
  · subst hmakes
    have hclosure := closure_of_spawnEnd hs (spawnEnd_of_spawn hs hg)
    obtain rfl := (caller_of_publishes hs ha rfl).1
    rcases (linked hs _).batch_of_publishes ha rfl with ⟨pc, h⟩ | hbatch
    · cases h
    · cases (linked hs _).inScope_unique (placed hs _).fits hbatch hclosure (.inr ⟨_, _, rfl⟩) (.inl rfl)
  · subst hmakes
    refine ⟨(caller_of_publishes hs hg rfl).1.symm.trans (caller_of_publishes hs ha rfl).1, ?_⟩
    rcases publishes_pair hs hg ha rfl rfl with h | h | h
    · exact h
    · exact h.elim
    · exact h.elim
  · exact hmakes.elim

/-- What an assignment comes from, when it takes a result. -/
theorem Frame.resume_assign {o : Outcome} {pc : AssignPc}
    (hg : .assign p r caller index pc ∈ f.resume o) :
    f = .assign p r caller index pc ∨ f = .assign p r caller index .waiting ∧ pc = .ticket := by
  unfold Frame.resume at hg
  split at hg <;> (try split at hg) <;>
    simp only [List.mem_cons, List.not_mem_nil, or_false, reduceCtorEq, Frame.assign.injEq] at hg
  · obtain ⟨rfl, rfl, rfl, rfl, rfl⟩ := hg
    exact .inr ⟨rfl, rfl⟩
  · exact .inl hg.symm

/-- What an assignment comes from, when it takes the result of an operation. -/
theorem Frame.answer_assign {res : QueueRes Nat} {pc : AssignPc}
    (hg : .assign p r caller index pc ∈ f.answer res) : f = .assign p r caller index pc := by
  unfold Frame.answer at hg
  split at hg <;> (try split at hg) <;>
    simp only [List.mem_cons, List.not_mem_nil, or_false, reduceCtorEq] at hg
  exact hg.symm

/-- What an assignment comes from, when a frame steps. -/
theorem Frame.step_assign {c : Choice} {m m' : Mem} {ctx ctx' : Context} {fs : List Frame}
    {pc : AssignPc} (hs : f.step t c m ctx = some (m', ctx', fs))
    (hg : .assign p r caller index pc ∈ fs) :
    ((∃ i, f = .inboxes p r caller i .enter) ∧ m' = m) ∨
      (f = .assign p r caller index .next ∧ pc = .waiting ∧ m' = m) ∨
        (f = .assign p r caller index .ticket ∧ pc = .place m.nextJob ∧ m' = newJob m r) ∨
          ∃ i k, f = .assign p r caller i (.place k) ∧ pc = .next := by
  have hnext := Frame.step_givesWay hs _ hg
  have hfrom : f.tag = .inboxes ∨ f.tag = .assign := by
    revert hnext
    cases f.tag <;> simp [FrameTag.next, Frame.tag]
  cases f with
  | inboxes p' r' caller' i pc' =>
      simp only [Frame.step, keep_eq] at hs
      obtain ⟨hs, -⟩ := hs
      cases pc' <;> simp only [inboxesStep, reduceCtorEq] at hs <;> (try split at hs) <;> cases hs <;>
        simp only [List.mem_cons, List.not_mem_nil, or_false, reduceCtorEq, Frame.assign.injEq] at hg
      obtain ⟨rfl, rfl, rfl, rfl, rfl⟩ := hg
      exact .inl ⟨⟨i, rfl⟩, rfl⟩
  | assign p' r' caller' index' pc' =>
      simp only [Frame.step, keep_eq] at hs
      obtain ⟨hs, -⟩ := hs
      cases pc' <;> simp only [assignStep, reduceCtorEq] at hs <;> cases hs <;>
        simp only [List.mem_cons, List.not_mem_nil, or_false, reduceCtorEq, false_or,
          Frame.assign.injEq] at hg <;>
        obtain ⟨rfl, rfl, rfl, rfl, rfl⟩ := hg
      · exact .inr (.inl ⟨rfl, rfl, rfl⟩)
      · exact .inr (.inr (.inl ⟨rfl, rfl, rfl⟩))
      · exact .inr (.inr (.inr ⟨_, _, rfl, rfl⟩))
  | _ => simp [Frame.tag] at hfrom

/-- While a batch is assigned, its levels wait. -/
theorem not_resumed_of_assign {pc : AssignPc} {o : Outcome} {held : List Nat} {n : Nat}
    (hs : poolMachine.Reachable s) (ha : .assign p r caller index pc ∈ (s.threads t).stack)
    (hstack : (s.threads u).stack = .ret o :: .inboxes q r caller' i (.nested held n) :: rest) :
    False := by
  have hmem : .inboxes q r caller' i (.nested held n) ∈ (s.threads u).stack := by simp [hstack]
  obtain rfl : u = t :=
    (caller_of_publishes hs hmem rfl).1.symm.trans (caller_of_publishes hs ha rfl).1
  have hl := linked hs u
  have hfits := (placed hs u).fits
  rw [hstack] at ha hl hfits
  simp only [List.mem_cons, reduceCtorEq, false_or] at ha
  have hlevel : Linked u (.inboxes q r caller' i (.nested held n) :: rest) := hl.2
  exact hlevel.below_publishes hfits.2 rfl ha rfl

/-- While a batch is assigned, its jobs are behind the levels, but for the one that is placed. -/
theorem inLevel_of_assign {s : PoolState} (hs : poolMachine.Reachable s) {t : Tid}
    {p r caller index j : Nat} {pc : AssignPc}
    (ha : .assign p r caller index pc ∈ (s.threads t).stack) (hj : s.mem.JobOf r j) :
    pc = .place j ∨ s.InLevel r j := by
  revert t p r caller index j pc
  refine Machine.Reachable.invariant (I := fun s => ∀ {t : Tid} {p r caller index j : Nat}
    {pc : AssignPc}, .assign p r caller index pc ∈ (s.threads t).stack → s.mem.JobOf r j →
      pc = .place j ∨ s.InLevel r j) ?_ ?_ hs
  · rintro s rfl t p r caller index j pc - ⟨h, -⟩
    exact absurd h (Nat.not_lt_zero j)
  · intro s l s' hr hI hstep t p r caller index j pc ha hj
    obtain ⟨hlocal, hothers⟩ := thread_step hstep
    have hbehind : ∀ {u : Tid} {index' : Nat} {pc' : AssignPc},
        .assign p r caller index' pc' ∈ (s.threads u).stack → s.InLevel r j → s'.InLevel r j := by
      intro u index' pc' hmem h
      rcases h.step hr hstep with h | ⟨q, caller', i, held, n, o, rest, -, hstack, -, -⟩
      · exact h
      · exact (not_resumed_of_assign hr hmem hstack).elim
    have hcases := jobOf_before hr hstep hj
    have htail : ∀ {f g : Frame} {rest : List Frame}, (s.threads l.1).stack = f :: rest → g ∈ rest →
        g.awaits := fun hstack hg => awaits hr l.1 _ (by simpa [hstack] using hg)
    by_cases hold : .assign p r caller index pc ∈ (s.threads t).stack
    · rcases hcases with hjold | ⟨rfl, -, f, rest, fs, ctx', hstack, hmakes, hf, hstack'⟩
      · exact (hI hold hjold).imp_right (hbehind hold)
      · -- the assignment that made the job has gone on
        have hmem : f ∈ (s.threads l.1).stack := by simp [hstack]
        obtain ⟨rfl, rfl⟩ := assign_of_makes hr hold hmem hmakes
        cases pc <;> cases hmakes
        simp only [Frame.step, keep_eq, assignStep, Option.some.injEq, Prod.mk.injEq] at hf
        obtain ⟨⟨-, rfl⟩, -⟩ := hf
        rw [hstack'] at ha
        simp only [List.cons_append, List.nil_append, List.mem_cons, Frame.assign.injEq,
          reduceCtorEq, and_false, false_or] at ha
        cases htail hstack ha
    · obtain rfl : t = l.1 := by
        by_contra ht
        exact hold (hothers t ht ▸ ha)
      cases hlocal.of_mem ha with
      | kept h => exact absurd (List.mem_of_mem_tail h) hold
      | waits _ _ h => exact absurd h hold
      | @resumed o f rest hstack h hm =>
          rw [hm] at hj
          rcases Frame.resume_assign h with rfl | ⟨rfl, rfl⟩
          · exact absurd (by simp [hstack]) hold
          · have hmem : .assign p r caller index .waiting ∈ (s.threads l.1).stack := by simp [hstack]
            rcases hI hmem hj with h | h
            · cases h
            · exact .inr (hbehind hmem h)
      | called hstack h =>
          have hwaits := Frame.waits_of_call h
          cases pc <;> exact hwaits.elim
      | @answered f rest res hstack h =>
          obtain rfl := Frame.answer_assign h
          exact absurd (by simp [hstack]) hold
      | @stepped f rest ctx' fs hstack hf hstack' h =>
          have hmem : f ∈ (s.threads l.1).stack := by simp [hstack]
          rcases Frame.step_assign hf h with ⟨⟨i, rfl⟩, hm⟩ | ⟨rfl, rfl, hm⟩ | ⟨rfl, rfl, hm⟩ |
            ⟨i, k, rfl, rfl⟩
          · rw [hm] at hj
            exact absurd hj (no_jobs_of_early hr hmem rfl)
          · rw [hm] at hj
            rcases hI hmem hj with h | h
            · cases h
            · exact .inr (hbehind hmem h)
          · rcases hcases with hjold | ⟨rfl, -⟩
            · rcases hI hmem hjold with h | h
              · cases h
              · exact .inr (hbehind hmem h)
            · exact .inl rfl
          · obtain ⟨hm, hnew⟩ := step_place hr hstep hstack
            have hjold : s.mem.JobOf r j := by
              rw [hm] at hj
              exact hj
            rcases hI hmem hjold with h | h
            · -- the job is behind the level it was placed at
              obtain rfl : k = j := by
                cases h
                rfl
              obtain ⟨_, _, _, ⟨⟨hcaller, -⟩, -⟩, -⟩ := (calls hr l.1).of_mem hmem
              have hid := (live_of_pool hr hmem rfl).id
              obtain ⟨held, n, hlevel⟩ := levels hr hmem
                (batchTarget_lt (((poolsOk hr).pools p).total hid) hcaller i)
              obtain ⟨rfl, placed, heq, -⟩ := inbox_levels hr l.1 _ hlevel
              rcases Frame.passive_nested.stays hr hstep hlevel with hlevel' | ⟨-, -, o, rest', hret, -⟩
              · refine .inr ⟨l.1, p, caller, _, held, _, hlevel', ?_⟩
                rw [hm]
                simp [Queues.setQueue, heq, List.append_assoc]
              · exact (not_resumed_of_assign hr hmem hret).elim
            · exact .inr (hbehind hmem h)

/-- A job that is about to be cut off is cut off, or stays. -/
theorem PoolState.InCut.step (h : s.InCut r j) (hs : poolMachine.Reachable s)
    (hstep : poolMachine.step s l = some s') : s'.InCut r j ∨ s'.InDrop r j := by
  obtain ⟨t, p, caller, i, held, n, x, hmem, hj⟩ := h
  obtain ⟨rest, hstack⟩ := top_of_not_awaits hs hmem rfl
  by_cases ht : t = l.1
  · subst ht
    obtain ⟨ctx', fs, hf, hstack'⟩ := step_of_top hs hstep hstack (by simp) (fun _ _ => rfl) fun _ _ => id
    simp only [Frame.step, keep_eq, inboxesStep, Option.some.injEq, Prod.mk.injEq] at hf
    obtain ⟨⟨-, rfl⟩, -⟩ := hf
    exact .inr ⟨_, _, p, caller, i, held, x, rest, hstack', hj⟩
  · refine .inl ⟨t, p, caller, i, held, n, x, (thread_step hstep).2 t ht ▸ hmem, ?_⟩
    rcases queue_of_held hs hstep hmem rfl with hq | ⟨h, -⟩
    · rwa [hq]
    · exact absurd h.symm ht

/-- What a level drops. -/
theorem Frame.Under.drops {held : List Nat} {x : Nat}
    (h : f.Under (.inboxes p r caller i (.dropping held x))) (hj : j ∈ f.carries) :
    (∃ js, f = .dropJobs js) ∨ ∃ k js, f = .dropEnv k js := by
  cases f with
  | dropJobs js => exact .inl ⟨js, rfl⟩
  | dropEnv k js => exact .inr ⟨k, js, rfl⟩
  | enqueue => rcases h with h | ⟨_, h⟩ <;> cases h
  | spawn => cases h
  | assign => rcases h with h | ⟨_, _, _, h⟩ <;> cases h
  | task => rcases h with ⟨_, h⟩ | ⟨_, _, h⟩ <;> cases h
  | _ => cases hj

/-- A job that is cut off is dropped. -/
theorem PoolState.InDrop.step (h : s.InDrop r j) (hs : poolMachine.Reachable s)
    (hstep : poolMachine.step s l = some s') : s'.InDrop r j ∨ (s'.mem.jobs j).drops = 1 := by
  obtain ⟨t, f, p, caller, i, held, x, rest, hstack, hj⟩ := h
  by_cases ht : t = l.1
  · subst ht
    have hl := linked hs l.1
    rw [hstack] at hl
    rcases Frame.Under.drops hl.1 hj with ⟨js, rfl⟩ | ⟨k, js, rfl⟩
    · obtain ⟨ctx', fs, hf, hstack'⟩ := step_of_top hs hstep hstack (by simp) (fun _ _ => rfl) fun _ _ => id
      cases js with
      | nil => cases hj
      | cons k js =>
          simp only [Frame.step, keep_eq, dropJobsStep, Option.some.injEq, Prod.mk.injEq] at hf
          obtain ⟨⟨hm, rfl⟩, -⟩ := hf
          rcases List.mem_cons.mp hj with rfl | hj
          · have hwaits : s.mem.Waits j := ((jobsOk hs).held j).mp ⟨.hands l.1, by
              simp [PoolState.held, Thread.carries, hstack, Frame.carries]⟩
            have hdrop : s'.mem = s.mem.dropJob j := hm.symm
            rw [hdrop, (s.mem.dropJob_self j).2.1, hwaits.2.2]
            exact .inr rfl
          · exact .inl ⟨_, _, p, caller, i, held, x, rest, hstack', hj⟩
    · obtain ⟨ctx', fs, hf, hstack'⟩ := step_of_top hs hstep hstack (by simp) (fun _ _ => rfl) fun _ _ => id
      simp only [Frame.step, Option.some.injEq, Prod.mk.injEq] at hf
      obtain ⟨-, -, rfl⟩ := hf
      exact .inl ⟨_, _, p, caller, i, held, x, rest, hstack', hj⟩
  · rw [← (thread_step hstep).2 t ht] at hstack
    exact .inl ⟨t, f, p, caller, i, held, x, rest, hstack, hj⟩

/-- A dropped job is not dropped again. -/
theorem drops_stay (hs : poolMachine.Reachable s) (hstep : poolMachine.step s l = some s')
    (hj : s.mem.JobOf r j) (h : (s.mem.jobs j).drops = 1) : (s'.mem.jobs j).drops = 1 := by
  obtain ⟨_, _, _, _, hchange, -⟩ := step_exchange hs hstep
  have hbound := (jobsOk (.step hs trivial hstep)).bound j
  cases hchange with
  | stay _ hdrops => rw [hdrops, h]
  | made _ hjobs => rw [hjobs, Function.update_of_ne hj.1.ne, h]
  | went k hwent _ hsame =>
      rcases eq_or_ne j k with rfl | hne
      · rcases hwent with ⟨-, hd⟩ | ⟨-, hd⟩ <;> omega
      · rw [hsame j hne, h]

/-- Once the iterator of a batch has panicked, its jobs are held back until they are dropped. -/
theorem retained_or_dropped {s : PoolState} (hs : poolMachine.Reachable s) {r x j : Nat}
    (hpanic : (s.mem.scopes r).iterPanic = some x) (hj : s.mem.JobOf r j) :
    (s.mem.jobs j).drops = 1 ∨ s.Retained r j := by
  revert r x j
  refine Machine.Reachable.invariant (I := fun s => ∀ {r x j : Nat},
    (s.mem.scopes r).iterPanic = some x → s.mem.JobOf r j →
      (s.mem.jobs j).drops = 1 ∨ s.Retained r j) ?_ ?_ hs
  · rintro s rfl r x j - ⟨h, -⟩
    exact absurd h (Nat.not_lt_zero j)
  · intro s l s' hr hI hstep r x j hpanic hj
    rcases iterPanic_before hstep hpanic with hpanic | ⟨rest, hstack⟩
    · rcases jobOf_before hr hstep hj with hjold | ⟨rfl, -, f, rest, fs, ctx', hstack, hmakes, -⟩
      · rcases hI hpanic hjold with hdrops | h | h | h
        · exact .inl (drops_stay hr hstep hjold hdrops)
        · rcases h.step hr hstep with h | ⟨p, caller, i, held, n, o, rest, hm, hstack, hstack', hmem⟩
          · exact .inr (.inl h)
          · -- the level is told of the panic, and takes the jobs back
            have hinformed := iterators hr l.1
            rw [hstack] at hinformed
            have ho : o = .panic x := by
              have h := hinformed.1.of_ret rfl
              rw [hpanic] at h
              cases o <;> cases h
              rfl
            subst ho
            refine .inr (.inr (.inl ⟨l.1, p, caller, i, held, n, x, ?_, hm ▸ hmem⟩))
            simp [hstack', Frame.resume]
        · exact .inr (.inr (h.step hr hstep))
        · rcases h.step hr hstep with h | h
          · exact .inr (.inr (.inr h))
          · exact .inl h
      · -- no job is made once the iterator has panicked
        have hmem : f ∈ (s.threads l.1).stack := by simp [hstack]
        rw [iterPanic_of_makes hr hmem hmakes] at hpanic
        cases hpanic
    · have hjold : s.mem.JobOf r j := by
        rcases jobOf_before hr hstep hj with hjold | ⟨-, -, f, rest', fs, ctx', hstack', hmakes, -⟩
        · exact hjold
        · rw [hstack] at hstack'
          cases hstack'
          exact hmakes.elim
      have hl := linked hr l.1
      rw [hstack] at hl
      cases rest with
      | nil => exact hl.1.elim
      | cons g below =>
          obtain ⟨p, caller, index, rfl⟩ := hl.1
          have hmem : .assign p r caller index .waiting ∈ (s.threads l.1).stack := by simp [hstack]
          rcases inLevel_of_assign hr hmem hjold with h | h
          · cases h
          · rcases h.step hr hstep with h | ⟨_, _, _, _, _, _, _, -, hstack', -⟩
            · exact .inr (.inl h)
            · rw [hstack] at hstack'
              cases hstack'

end Accounting

/-! ## All at once, or not at all -/

/-- Nobody has got at the job: it was never started, and no operation has it in hand. -/
def PoolState.Untaken (s : PoolState) (j : Nat) : Prop :=
  (s.mem.jobs j).starts = 0 ∧ ∀ u, j ∉ (s.ops u).hands s.mem.queues

section Untaken

variable {s : PoolState} {t u : Tid} {f : Frame} {p r j : Nat}

/-- A job that waits in a frame is not taken. -/
theorem untaken_of_carried (hs : poolMachine.Reachable s) (hmem : f ∈ (s.threads t).stack)
    (hj : j ∈ f.carries) : s.Untaken j ∧ (s.mem.jobs j).drops = 0 := by
  have hcarried : j ∈ (s.threads t).carries := List.mem_flatMap.mpr ⟨f, hmem, hj⟩
  have hheld : j ∈ s.held (.hands t) := List.mem_append_right _ hcarried
  have hwaits : s.mem.Waits j := ((jobsOk hs).held j).mp ⟨_, hheld⟩
  refine ⟨⟨hwaits.2.1, fun u hu => ?_⟩, hwaits.2.2⟩
  have hhands : j ∈ s.held (.hands u) := List.mem_append_left _ hu
  obtain rfl : u = t := Spot.hands.inj ((jobsOk hs).once.apart hhands hheld)
  exact List.disjoint_of_nodup_append ((jobsOk hs).once.nodup (.hands u)) hu hcarried

/-- A job in a queue that a frame has locked is not taken. -/
theorem untaken_of_locked {q : QueueId} (hs : poolMachine.Reachable s)
    (hmem : f ∈ (s.threads t).stack) (hq : f.holds = some (.queue q))
    (hj : j ∈ (s.mem.queues.queue q).elements) : s.Untaken j ∧ (s.mem.jobs j).drops = 0 := by
  have hfree : ∀ u, (s.ops u).holds ≠ some q := fun u hop => not_holds_of_op hs hop hmem hq
  have hheld : j ∈ s.held (.queue q) := by
    have heq := held_of_free (x := .queue q) fun q' u h => by
      cases h
      exact hfree u
    exact heq ▸ hj
  have hwaits : s.mem.Waits j := ((jobsOk hs).held j).mp ⟨_, hheld⟩
  refine ⟨⟨hwaits.2.1, fun u hu => ?_⟩, hwaits.2.2⟩
  have hhands : j ∈ s.held (.hands u) := List.mem_append_left _ hu
  cases (jobsOk hs).once.apart hhands hheld

/-- A job that is held back is not taken. -/
theorem PoolState.Retained.untaken (h : s.Retained r j) (hs : poolMachine.Reachable s) :
    s.Untaken j ∧ (s.mem.jobs j).drops = 0 := by
  rcases h with ⟨t, p, caller, i, held, n, hmem, hj⟩ | ⟨t, p, caller, i, held, n, x, hmem, hj⟩ |
    ⟨t, f, p, caller, i, held, x, rest, hstack, hj⟩
  · exact untaken_of_locked hs hmem rfl (List.mem_of_mem_drop hj)
  · exact untaken_of_locked hs hmem rfl (List.mem_of_mem_drop hj)
  · have hmem : f ∈ (s.threads t).stack := by simp [hstack]
    exact untaken_of_carried hs hmem hj

/-- A dropped job was not taken. -/
theorem untaken_of_dropped (hs : poolMachine.Reachable s) (h : (s.mem.jobs j).drops = 1) :
    s.Untaken j := by
  refine ⟨?_, fun u hu => ?_⟩
  · have := (jobsOk hs).bound j
    omega
  · have hhands : j ∈ s.held (.hands u) := List.mem_append_left _ hu
    have hwaits : s.mem.Waits j := ((jobsOk hs).held j).mp ⟨_, hhands⟩
    rw [hwaits.2.2] at h
    cases h

/-- A batch holds jobs back at its levels only. -/
theorem PoolState.Retained.level (h : s.Retained r j) :
    ∃ t p caller i pc, .inboxes p r caller i pc ∈ (s.threads t).stack := by
  rcases h with ⟨t, p, caller, i, held, n, hmem, -⟩ | ⟨t, p, caller, i, held, n, x, hmem, -⟩ |
    ⟨t, f, p, caller, i, held, x, rest, hstack, -⟩
  · exact ⟨t, p, caller, i, _, hmem⟩
  · exact ⟨t, p, caller, i, _, hmem⟩
  · exact ⟨t, p, caller, i, .dropping held x, by simp [hstack]⟩

end Untaken

/-- A batch is published at once or not at all.  While the iterator runs or a job is placed,
every job of the batch is in the hand that places it, or lies in an inbox the caller has locked,
behind what the inbox held, and nobody has got at it.  Once the iterator has panicked, nobody
ever gets at a job of the batch: each is held back until it is dropped, and was dropped once when
the levels are gone.  Every inbox is then released with what it held when it was locked, with
that length, and the batch ends with the payload of the iterator. -/
theorem batch_published_at_once {s : PoolState} (hs : poolMachine.Reachable s) (r : Nat) :
    (∀ t p caller index pc, .assign p r caller index pc ∈ (s.threads t).stack →
      ∀ j, s.mem.JobOf r j → s.Untaken j ∧ (s.mem.jobs j).drops = 0 ∧
        (pc = .place j ∨ ∃ q caller' i held n,
          .inboxes q r caller' i (.nested held n) ∈ (s.threads t).stack ∧
          (s.mem.queues.queue (.inbox q i)).locked = some t ∧
          ∃ placed, (s.mem.queues.queue (.inbox q i)).elements = held ++ placed ∧ j ∈ placed)) ∧
    (∀ t p caller i held, .inboxes p r caller i (.originalLen held) ∈ (s.threads t).stack →
      (s.mem.queues.queue (.inbox p i)).elements = held) ∧
    ∀ x, (s.mem.scopes r).iterPanic = some x →
      (∀ j, s.mem.JobOf r j → s.Untaken j ∧
        ((s.mem.jobs j).drops = 1 ∨ (s.mem.jobs j).drops = 0 ∧ s.Retained r j)) ∧
      ((∀ t p caller i pc, .inboxes p r caller i pc ∉ (s.threads t).stack) →
        ∀ j, s.mem.JobOf r j → (s.mem.jobs j).starts = 0 ∧ (s.mem.jobs j).drops = 1) ∧
      (∀ t p caller i held o, .inboxes p r caller i (.unlock held o) ∈ (s.threads t).stack →
        (s.mem.queues.queue (.inbox p i)).elements = held ∧
          (s.mem.queues.queue (.inbox p i)).len = held.length ∧ o = .panic x) ∧
      ∀ t p o rest, (s.threads t).stack = .ret o :: .batch p r .publishing :: rest →
        o = .panic x := by
  refine ⟨?_, ?_, ?_⟩
  · intro t p caller index pc ha j hj
    rcases inLevel_of_assign hs ha hj with rfl | h
    · obtain ⟨huntaken, hdrops⟩ := untaken_of_carried hs ha (j := j) (by simp [Frame.carries])
      exact ⟨huntaken, hdrops, .inl rfl⟩
    · obtain ⟨huntaken, hdrops⟩ := PoolState.Retained.untaken (.inl h) hs
      obtain ⟨u, q, caller', i, held, n, hmem, hbehind⟩ := h
      obtain rfl : u = t :=
        (caller_of_publishes hs hmem rfl).1.symm.trans (caller_of_publishes hs ha rfl).1
      obtain ⟨rfl, placed, heq, -⟩ := inbox_levels hs u _ hmem
      refine ⟨huntaken, hdrops, .inr ⟨q, caller', i, held, _, hmem, locked_of_frame hs hmem rfl,
        placed, heq, ?_⟩⟩
      rwa [heq, List.drop_left] at hbehind
  · intro t p caller i held hmem
    exact inbox_levels hs t _ hmem
  · intro x hpanic
    have hpayload : ∀ o : Outcome, (s.mem.scopes r).iterPanic = o.payload → o = .panic x := by
      intro o ho
      rw [hpanic] at ho
      cases o <;> cases ho
      rfl
    refine ⟨?_, ?_, ?_, ?_⟩
    · intro j hj
      rcases retained_or_dropped hs hpanic hj with h | h
      · exact ⟨untaken_of_dropped hs h, .inl h⟩
      · exact ⟨(h.untaken hs).1, .inr ⟨(h.untaken hs).2, h⟩⟩
    · intro hgone j hj
      rcases retained_or_dropped hs hpanic hj with h | h
      · exact ⟨(untaken_of_dropped hs h).1, h⟩
      · obtain ⟨t, p, caller, i, pc, hmem⟩ := h.level
        exact absurd hmem (hgone t p caller i pc)
    · intro t p caller i held o hmem
      obtain ⟨_, _, _, hinformed, -⟩ := (iterators hs t).of_mem hmem
      have ho := hpayload o (hinformed r _ rfl)
      subst ho
      obtain ⟨-, hheld, hlen⟩ := inbox_levels hs t _ hmem
      have heq := hheld (by simp [Outcome.payload])
      exact ⟨heq, by rw [hlen, heq], rfl⟩
    · intro t p o rest hstack
      have hinformed := iterators hs t
      rw [hstack] at hinformed
      exact hpayload o (hinformed.1.of_ret rfl)

/-- A run in which the iterator of a batch gives out one job and then panics. -/
def failedBatch : List (Tid × Choice) :=
  hostedScope.take 7 ++ [(.ext 0, .user (.runBatch 1))] ++ List.replicate 3 (.ext 0, .go) ++
    [(.ext 0, .user .finish)] ++ List.replicate 10 (.ext 0, .go) ++
    [(.ext 0, .user .yield)] ++ List.replicate 4 (.ext 0, .go) ++
    [(.ext 0, .user (.panic 7))] ++ List.replicate 16 (.ext 0, .go)

/-- The job is taken back, and the batch ends with the panic. -/
theorem failed_batch_is_taken_back :
    let s := poolMachine.after poolStart failedBatch
    s.Untaken 0 ∧ (s.mem.jobs 0).drops = 1 ∧
      ∀ o, (s.threads (.ext 0)).stack.head? = some (.ret o) → o = .panic 7 := by
  have hrun : (poolMachine.run poolStart failedBatch).isSome := by decide +kernel
  have hpanic : ((poolMachine.after poolStart failedBatch).mem.scopes 0).iterPanic = some 7 := by
    decide +kernel
  have hjob : (poolMachine.after poolStart failedBatch).mem.JobOf 0 0 := by
    refine ⟨?_, ?_⟩ <;> decide +kernel
  have hstack : ((poolMachine.after poolStart failedBatch).threads (.ext 0)).stack.tail.head? =
      some (.batch 1 0 .publishing) := by decide +kernel
  have hs := Machine.Reachable.run (.init poolStart_init) (Machine.run_after hrun)
  obtain ⟨hjobs, -, -, hret⟩ := (batch_published_at_once hs 0).2.2 7 hpanic
  refine ⟨(hjobs 0 hjob).1, by decide +kernel, fun o ho => ?_⟩
  have hret := hret (.ext 0) 1 o
  generalize ((poolMachine.after poolStart failedBatch).threads (.ext 0)).stack = stack
    at ho hstack hret
  obtain ⟨rest, rfl⟩ := List.head?_eq_some_iff.mp ho
  obtain ⟨below, rfl⟩ := List.head?_eq_some_iff.mp hstack
  exact hret below rfl

end XynokConcurrency
