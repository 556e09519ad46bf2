import XynokConcurrency.ThreadPool.JobPlaces

/-!
# A helper leaves nothing behind

A thread that opens a scope without getting the host's seat works with a private deque
of one slot, which no other thread can reach.  Whatever the helper moves into it, the
helper pops before it goes on, so the deque is empty whenever a job runs on the helper,
and when the helper goes.

Main results:

- Theorem {lit}`helper_inbox_empty`: the inbox of a helper is always empty.
- Theorem {lit}`helperOk`: the private deque is empty but for the moments between moving
  a job into it and popping the job.
- Theorem {lit}`helper_leaves_nothing_behind`: a job that a helper took, the helper hands
  to {lit}`run_task`, and nothing is left when a job runs or the helper is dropped.

Source: {lit}`thread_pool/mod.rs`, {lit}`thread_pool/worker.rs`.
-/

namespace XynokConcurrency

/-! ## The inbox of a helper -/

section Inbox

variable {δ κ τ α : Type} [DecidableEq δ] [DecidableEq κ]

/-- Only a push puts elements into a batching queue. -/
theorem QInstr.exec_elements {β : Type} {i : QInstr δ κ α β} {t : τ} {m m' : Queues δ κ τ α} {b : β}
    {q : κ} (hx : i.exec t m = some (m', b)) (hi : ∀ val k, i ≠ .pushBack q val k) :
    (m'.queue q).elements ⊆ (m.queue q).elements := by
  have hset : ∀ r c, (r = q → c.elements ⊆ (m.queue q).elements) →
      ((m.setQueue r c).queue q).elements ⊆ (m.queue q).elements := by
    intro r c hc
    by_cases hr : q = r
    · subst hr
      simpa [Queues.setQueue] using hc rfl
    · simp [Queues.setQueue, hr]
  cases i
  case pushBack r val k =>
    cases hx
    exact hset _ _ fun h => absurd (by rw [h]) (hi val b)
  case drainFront r k =>
    simp only [QInstr.exec] at hx
    split at hx <;> cases hx
    rename_i h
    exact hset _ _ fun hr => by subst hr; simp [h]
  all_goals
    simp only [QInstr.exec] at hx
    (try split at hx) <;> cases hx <;>
      first
        | exact List.Subset.refl _
        | exact hset _ _ fun hr => by subst hr; exact List.Subset.refl _
        | exact hset _ _ fun hr => by subst hr; exact List.tail_subset _
        | exact hset _ _ fun hr => by subst hr; exact List.take_subset _ _

omit [DecidableEq δ] [DecidableEq κ] in
/-- Only a push comes to the access that puts an element into a batching queue. -/
theorem Op.Within.of_pushBack {o : Op δ κ α} {c : QueueCall δ κ α} {spurious : Bool} {q : κ} {val : α}
    {k : Op δ κ α} (h : o.Within c) (hi : o.instr spurious = some (.pushBack q val k)) :
    c = .queuePush q val := by
  cases o <;> simp only [Op.instr, reduceCtorEq, Option.some.injEq] at hi
  case queuePushBack =>
    cases hi
    exact h
  all_goals
    split at hi <;> cases hi

end Inbox

/-- Frames put nothing into the inbox of a helper. -/
theorem Frame.JobStep.helperInbox {t : Tid} {f : Frame} {m m' : Mem} {fs : List Frame} {r : Nat}
    (h : f.JobStep t m m' fs) (hempty : m.lyingIn (.queue (.helperInbox r)) = []) :
    m'.lyingIn (.queue (.helperInbox r)) = [] := by
  have hset : ∀ q b, (q = .helperInbox r → b.elements = []) →
      (m.setQueue q b).lyingIn (.queue (.helperInbox r)) = [] := by
    intro q b hb
    by_cases hq : q = .helperInbox r
    · subst hq
      simpa [Mem.lyingIn, Queues.setQueue] using hb rfl
    · simpa [Mem.lyingIn, Queues.setQueue, Ne.symm hq] using hempty
  simp only [Mem.lyingIn] at hempty
  cases h with
  | quiet hq | push p hq => simpa [Mem.lyingIn, hq] using hempty
  | spawn | start | finish => exact hempty
  | drop j js => simpa [Mem.lyingIn] using hempty
  | relock q b hb => exact hset q b fun hq => by rw [hb, hq, hempty]
  | truncate q n => exact hset q _ fun hq => by simp [hq, hempty]
  | place => exact hset _ _ (by simp)
  | clear xs _ _ _ _ _ hqueue hclear =>
      by_cases hx : .queue (.helperInbox r) ∈ xs
      · exact hclear _ hx
      · simpa [Mem.lyingIn, hqueue _ hx] using hempty

/-- No frame pushes a job into the inbox of a helper. -/
theorem Frame.Waits.not_push_helperInbox {f : Frame} {ctx : Context} {r val : Nat} :
    ¬ f.Waits ctx (.queuePush (.helperInbox r) val) := by
  intro h
  cases f with
  | enqueueWait => cases h
  | pop w pc | steal w tick pc | sleep p i pc => cases pc <;> simp [Frame.Waits] at h
  | _ => simp [Frame.Waits] at h

/-- The inbox of a helper is always empty. -/
theorem helper_inbox_empty {s : PoolState} (hs : poolMachine.Reachable s) (r : Nat) :
    (s.mem.queues.queue (.helperInbox r)).elements = [] := by
  refine hs.invariant (I := fun s => (s.mem.queues.queue (.helperInbox r)).elements = [])
    (fun s h => by rw [h]; rfl) ?_
  intro s l s' hs hempty hstep
  obtain ⟨m, th, hlocal, rfl⟩ := Machine.ofThreads_step hstep
  have hlocal := threadStep_cases hlocal
  have hcalling := calling hs l.1
  revert hlocal hcalling
  generalize hthread : s.threads l.1 = th₀
  intro hlocal hcalling
  cases hlocal with
  | resume | call | answer => exact hempty
  | frame h => exact (step_jobs hs (by rw [hthread]) h).helperInbox hempty
  | @tick ctx stack o o' queues i hi hx =>
      have hsub : (queues.queue (.helperInbox r)).elements ⊆ [] := by
        rw [← hempty]
        refine QInstr.exec_elements hx fun val k hpush => ?_
        subst hpush
        rcases hcalling with rfl | ⟨f, rest, c, -, hwaits, hwithin⟩
        · cases hi
        · obtain rfl := hwithin.of_pushBack hi
          exact Frame.Waits.not_push_helperInbox hwaits
      exact List.eq_nil_of_subset_nil hsub

/-! ## The frames of a helper -/

/-- A helper works for the scope it was made for. -/
def WorkerRef.For (s : Nat) : WorkerRef → Prop
  | .helper _ r => r = s
  | .slot _ _ => True

/-- A caller waits with its own helper. -/
def Frame.ForItself : Frame → Prop
  | .runUntil w s _ _ => w.For s
  | _ => True

section ForItself

variable {t : Tid} {c : Choice} {m m' : Mem} {ctx ctx' : Context} {f f' g : Frame} {fs : List Frame}

/-- Only a scope call, or the search itself, leads to a search for work. -/
theorem FrameTag.of_runUntil {tag : FrameTag} (h : FrameTag.runUntil ∈ tag.next) :
    tag = .scope ∨ tag = .runUntil := by
  cases tag <;> simp [FrameTag.next] at h ⊢

/-- Frames that are no search for work wait for any scope. -/
theorem Frame.forItself_of_tag (h : f.tag ≠ .runUntil) : f.ForItself := by
  cases f with
  | runUntil => exact absurd rfl h
  | _ => trivial

@[simp] theorem Frame.forItself_runUntil {w : WorkerRef} {s tick : Nat} {pc : UntilPc} :
    (Frame.runUntil w s tick pc).ForItself ↔ w.For s := Iff.rfl

theorem Frame.resume_forItself {o : Outcome} (h : f.ForItself) (hg : g ∈ f.resume o) :
    g.ForItself := by
  rcases (Frame.resume_givesWay f o).tag hg with rfl | htag
  · exact h
  by_cases hgtag : g.tag = .runUntil
  · rw [hgtag] at htag
    cases f with
    | scope p r pc =>
        refine Frame.forItself_of_tag fun _ => ?_
        cases pc <;> cases o <;> simp_all [Frame.resume, Frame.tag]
    | runUntil w s tick pc =>
        have hkept : ∀ g' ∈ (Frame.runUntil w s tick pc).resume o,
            g'.tag = .steal ∨ ∃ tick' pc', g' = .runUntil w s tick' pc' := by
          rcases o with _ | (_ | _) | _ <;> cases pc <;> simp [Frame.resume, Frame.tag]
        rcases hkept g hg with htag' | ⟨tick', pc', rfl⟩
        · rw [htag'] at hgtag
          cases hgtag
        · exact h
    | _ => rcases FrameTag.of_runUntil htag with htag' | htag' <;> cases htag'
  · exact Frame.forItself_of_tag hgtag

theorem Frame.call_forItself {q : QueueCall DequeId QueueId Nat} (h : f.ForItself)
    (hc : f.call m ctx = some (q, f')) : f'.ForItself := by
  rcases (Frame.call_givesWay hc).tag List.mem_cons_self with rfl | htag
  · exact h
  refine Frame.forItself_of_tag fun hgtag => ?_
  rw [hgtag] at htag
  cases f <;> rcases FrameTag.of_runUntil htag with htag' | htag' <;> cases htag' <;> cases hc

theorem Frame.answer_forItself {r : QueueRes Nat} (h : f.ForItself) (hg : g ∈ f.answer r) :
    g.ForItself := by
  rcases (Frame.answer_givesWay f r).tag hg with rfl | htag
  · exact h
  by_cases hgtag : g.tag = .runUntil
  · rw [hgtag] at htag
    cases f <;> rcases FrameTag.of_runUntil htag with htag' | htag' <;> cases htag' <;>
      (obtain rfl := List.mem_singleton.mp hg; exact h)
  · exact Frame.forItself_of_tag hgtag

/-- A scope call looks for work with its own helper, or with a slot of the pool. -/
theorem scopeStep_forItself {spurious : Bool} {p r : Nat} {pc : ScopePc}
    (hs : scopeStep t spurious m ctx p r pc = some (m', ctx', fs)) (hg : g ∈ fs) : g.ForItself := by
  by_cases hgtag : g.tag = .runUntil
  · cases pc
    case runUntil role previous outcome =>
      simp only [scopeStep] at hs
      split at hs <;> cases hs
      rename_i w hw
      simp only [List.mem_cons, List.not_mem_nil, or_false] at hg
      rcases hg with rfl | rfl
      · cases role <;> simp only [currentWorker] at hw <;> (try split at hw) <;> cases hw <;>
          first | rfl | trivial
      · cases hgtag
    case closure | waiting => cases hs
    all_goals
      have hnot : ∀ g ∈ fs, g.tag ≠ .runUntil := by
        simp only [scopeStep] at hs
        (try split at hs) <;> cases hs <;> simp [Frame.tag]
      exact absurd hgtag (hnot g hg)
  · exact Frame.forItself_of_tag hgtag

theorem Frame.step_forItself (h : f.ForItself) (hs : f.step t c m ctx = some (m', ctx', fs))
    (hg : g ∈ fs) : g.ForItself := by
  by_cases hgtag : g.tag = .runUntil
  · have htag := Frame.step_givesWay hs g hg
    rw [hgtag] at htag
    cases f with
    | scope p r pc =>
        exact scopeStep_forItself hs hg
    | runUntil w s tick pc =>
        obtain ⟨hs, -, -⟩ := keepMem_eq.mp hs
        cases pc <;> simp only [runUntilStep, reduceCtorEq] at hs
        split at hs <;> cases hs <;> 
          simp only [List.mem_cons, List.not_mem_nil, or_false] at hg
        · subst hg; trivial
        · rcases hg with rfl | rfl
          · trivial
          · exact h
    | _ => rcases FrameTag.of_runUntil htag with htag' | htag' <;> cases htag'
  · exact Frame.forItself_of_tag hgtag

end ForItself

/-- A caller waits with its own helper. -/
theorem forItself {s : PoolState} (hs : poolMachine.Reachable s) (t : Tid) :
    ∀ f ∈ (s.threads t).stack, f.ForItself := by
  refine Machine.thread_invariant (A := fun _ _ th => ∀ f ∈ th.stack, f.ForItself) ?_ ?_ ?_ hs t
  · rintro s rfl t f hf
    cases t <;> (obtain rfl := List.mem_singleton.mp hf; trivial)
  · intro s t c m th _ _ hall hstep
    have hall := hall t
    have hlocal := threadStep_cases hstep
    revert hlocal hall
    generalize s.threads t = th₀
    intro hall hlocal f hf
    cases hlocal with
    | resume =>
        rcases List.mem_append.mp hf with hf | hf
        · exact Frame.resume_forItself (hall _ (by simp)) hf
        · exact hall f (by simp [hf])
    | call h =>
        rcases List.mem_cons.mp hf with rfl | hf
        · exact Frame.call_forItself (hall _ List.mem_cons_self) h
        · exact hall f (List.mem_cons_of_mem _ hf)
    | frame h =>
        rcases List.mem_append.mp hf with hf | hf
        · exact Frame.step_forItself (hall _ List.mem_cons_self) h hf
        · exact hall f (List.mem_cons_of_mem _ hf)
    | answer =>
        rcases List.mem_append.mp hf with hf | hf
        · exact Frame.answer_forItself (hall _ List.mem_cons_self) hf
        · exact hall f (List.mem_cons_of_mem _ hf)
    | tick => exact hall f hf
  · intro s t c m th u _ _ hall _ _
    exact hall u

/-- A thread searches for work with the helper of scope {lit}`r`: its innermost frame does. -/
def PoolState.SearchesFor (s : PoolState) (r : Nat) (t : Tid) : Prop :=
  ∃ f rest p, (s.threads t).stack = f :: rest ∧ f.worker = some (.helper p r)

section Chain

variable {t u : Tid} {m : Mem} {f g : Frame} {rest above below : List Frame} {p q r j : Nat} {pc : TaskPc}

/-- Below a frame of a helper is another one, or the scope call the helper is of. -/
theorem Frame.Under.helper (h : f.Under g) (hself : f.ForItself)
    (hf : f.worker = some (.helper p r)) :
    (∃ pc, g = .scope p r pc) ∨ g.worker = some (.helper p r) := by
  cases f <;> cases hf
  case runUntil s tick pc =>
    obtain rfl : r = s := hself
    obtain ⟨role, previous, outcome, rfl⟩ := h
    exact .inl ⟨_, rfl⟩
  case pop pc =>
    obtain ⟨s, tick, rfl⟩ | ⟨tick, rfl⟩ | ⟨tick, offset, rfl⟩ | ⟨p, i, tick, rounds, hw, -⟩ := h
    · exact .inr rfl
    · exact .inr rfl
    · exact .inr rfl
    · cases hw
  case steal tick pc =>
    obtain ⟨s, rfl⟩ | ⟨p, i, rounds, hw, -⟩ := h
    · exact .inr rfl
    · cases hw

/-- No job runs between two frames of a helper. -/
theorem Linked.no_task_between (hl : Linked t (g :: rest))
    (hfits : Everywhere (Frame.Fits t m) (g :: rest)) (hself : ∀ f ∈ g :: rest, f.ForItself)
    (hg : g.worker = some (.helper p r)) (hrest : rest = above ++ .task j pc :: f :: below) :
    f.worker ≠ some (.helper q r) := by
  induction rest generalizing g above with
  | nil => simp at hrest
  | cons x rest ih =>
      have hx := hl.1.helper (hself g List.mem_cons_self) hg
      cases above with
      | nil =>
          obtain ⟨rfl, -⟩ := List.cons.inj hrest
          rcases hx with ⟨pc', hx⟩ | hx <;> cases hx
      | cons y above =>
          obtain ⟨rfl, hbelow⟩ := List.cons.inj hrest
          replace hrest : rest = above ++ .task j pc :: f :: below := hbelow
          rcases hx with ⟨pc', rfl⟩ | hx
          · intro hf
            -- the scope call of the lower frame would be a second one of the same scope
            have hunique := hfits.2.1.2.2.2.2.2.2.2.1
            have hbelow := hfits.2.2
            rw [hrest] at hbelow
            have howned := (everywhere_append.mp hbelow).2.2.1
            have hscope : ∃ pc, .scope q r pc ∈ below := by
              cases f <;> cases hf <;> exact howned.2.2
            obtain ⟨pc', hmem⟩ := hscope
            exact hunique (.scope q r pc') (by rw [hrest]; simp [hmem]) rfl
          · exact ih hl.2 hfits.2 (fun f hf => hself f (List.mem_cons_of_mem _ hf)) hx hrest

/-- While a job runs on a helper, nobody searches for work with it. -/
theorem not_searching_of_task {s : PoolState} (hs : poolMachine.Reachable s)
    (hstack : (s.threads t).stack = above ++ .task j pc :: f :: below)
    (hf : f.worker = some (.helper q r)) : ¬ s.SearchesFor r u := by
  rintro ⟨g, rest, p, hu, hg⟩
  have hmem : f ∈ (s.threads t).stack := by simp [hstack]
  have hcaller := (scope_of_helper hs hmem hf).1
  have hcaller' := (scope_of_helper hs (by rw [hu]; exact List.mem_cons_self) hg).1
  obtain rfl : t = u := hcaller.symm.trans hcaller'
  have hlinked := linked hs t
  have hfits := (placed hs t).fits
  have hself := forItself hs t
  rw [hu] at hlinked hfits hself
  cases above with
  | nil =>
      rw [hu] at hstack
      obtain ⟨rfl, -⟩ := List.cons.inj hstack
      cases hg
  | cons x above =>
      rw [hu] at hstack
      obtain ⟨rfl, hrest⟩ := List.cons.inj hstack
      exact hlinked.no_task_between hfits hself hg hrest hf

/-- One thread at most searches for work with a helper: the caller of the scope. -/
theorem searches_unique {s : PoolState} (hs : poolMachine.Reachable s) (ht : s.SearchesFor r t)
    (hu : s.SearchesFor r u) : t = u := by
  have hcaller : ∀ {v}, s.SearchesFor r v → (s.mem.scopes r).caller = v := by
    rintro v ⟨f, rest, p, hstack, hf⟩
    exact (scope_of_helper hs (by rw [hstack]; exact List.mem_cons_self) hf).1
  exact (hcaller ht).symm.trans (hcaller hu)

end Chain

/-! ## A deque of one slot -/

section OneSlot

variable {δ κ τ α : Type} {b b' : AtomicDeques δ κ τ α} {capacity : δ → Nat} {t : τ} {d : δ} {n : Nat}

/-- A pop from a deque that held {lit}`n` elements when it was called, and holds
{lit}`l` now. -/
def Status.Takes (d : δ) (n : Nat) (l : List α) : Status δ κ α → Prop
  | .pending (.pop d') => d' = d ∧ l.length = n
  | .decided (.popped val) => l = [] ∧ val.toList.length = n
  | _ => False

/-- A refill of an empty deque of one slot, or a steal into it. -/
def Status.Brings (d : δ) (l : List α) : Status δ κ α → Prop
  | .pending (.pushBatchByTakingFromQueue d' _ _) => d' = d ∧ l = []
  | .pending (.trySteal victim _ d') => d' = d ∧ victim ≠ d ∧ l = []
  | .stealing victim d' vals => d' = d ∧ victim ≠ d ∧ l = [] ∧ vals ≠ []
  | .appending d' vals r =>
      d' = d ∧ l = [] ∧ vals ≠ [] ∧ (r = .moved vals.length ∨ r = .stole (.success vals.length))
  | .decided (.moved n) => l.length = n ∧ n ≤ 1
  | .decided (.stole (.success _)) => l.length = 1
  | .decided (.stole _) => l = []
  | _ => False

/-- A call that moves nothing into a deque. -/
def Status.Looks (l : List α) : Status δ κ α → Prop
  | .pending c => c.ownerSide = none ∧ c.carried = [] ∧ l = []
  | .decided _ => l = []
  | _ => False

variable [DecidableEq δ] [DecidableEq κ] [DecidableEq τ]

theorem AtomicDeques.Acts.takes (h : AtomicDeques.Acts capacity t b b') (hn : n ≤ 1)
    (ht : (b.status t).Takes d n (b.list d)) : (b'.status t).Takes d n (b'.list d) := by
  cases h with
  | @pop d' l val h hlast =>
      rw [h] at ht
      obtain ⟨rfl, hlen⟩ := ht
      rw [hlast, List.length_append, List.length_singleton] at hlen
      have hl : l = [] := List.length_eq_zero_iff.mp (by omega)
      subst hl
      simp_all [setStatus, setList, Status.Takes]
  | popEmpty h hempty =>
      rw [h] at ht
      obtain ⟨rfl, hlen⟩ := ht
      simp_all [setStatus, Status.Takes]
  | queuePop h | queuePopNothing h => rcases h with h | h <;> (rw [h] at ht; exact ht.elim)
  | push h | pushFull h | len h | stealNothing h | stealClaim h | stealPublish h | refillTake h
  | refillNothing h | append h | queuePush h => rw [h] at ht; exact ht.elim

theorem AtomicDeques.Acts.brings (h : AtomicDeques.Acts capacity t b b') (hcap : capacity d = 1)
    (ht : (b.status t).Brings d (b.list d)) : (b'.status t).Brings d (b'.list d) := by
  cases h with
  | @stealNothing victim dst max r h hr =>
      rw [h] at ht
      obtain ⟨rfl, -, hnil⟩ := ht
      rcases hr with rfl | rfl <;> simpa [setStatus, Status.Brings] using hnil
  | @stealClaim victim dst max n h hpos hmax hlen =>
      rw [h] at ht
      obtain ⟨rfl, hne, hnil⟩ := ht
      have htake : (b.list victim).take n ≠ [] := by
        rw [Ne, List.take_eq_nil_iff, not_or]
        exact ⟨by omega, fun h => by simp [h] at hlen; omega⟩
      have hne' : dst ≠ victim := Ne.symm hne
      simp_all [setStatus, setClaimed, setList, Status.Brings]
  | stealPublish h =>
      rw [h] at ht
      obtain ⟨rfl, -, hnil, hvals⟩ := ht
      simp_all [setStatus, setClaimed, Status.Brings]
  | @refillTake d' src max n h hpos hmax hlen =>
      rw [h] at ht
      obtain ⟨rfl, hnil⟩ := ht
      have htake : (b.src src).take n ≠ [] := by
        rw [Ne, List.take_eq_nil_iff, not_or]
        exact ⟨by omega, fun h => by simp [h] at hlen; omega⟩
      simp_all [setStatus, setSrc, Status.Brings]
  | refillNothing h =>
      rw [h] at ht
      simpa [setStatus, Status.Brings] using ht.2
  | @append d' vals r h hroom =>
      rw [h] at ht
      obtain ⟨rfl, hnil, hvals, hr⟩ := ht
      have hlen : vals.length = 1 := by
        have hpos := List.length_pos_iff.mpr hvals
        omega
      rcases hr with rfl | rfl <;> simp_all [setStatus, setList, Status.Brings]
  | queuePop h | queuePopNothing h => rcases h with h | h <;> (rw [h] at ht; exact ht.elim)
  | push h | pushFull h | len h | pop h | popEmpty h | queuePush h => rw [h] at ht; exact ht.elim

theorem AtomicDeques.Acts.looks (h : AtomicDeques.Acts capacity t b b')
    (ht : (b.status t).Looks (b.list d)) : (b'.status t).Looks (b'.list d) := by
  cases h with
  | queuePop h | queuePopNothing h =>
      rcases h with h | h <;> rw [h] at ht <;> simpa [setStatus, setSrc, Status.Looks] using ht.2.2
  | len h | queuePush h =>
      rw [h] at ht
      simpa [setStatus, setSrc, Status.Looks] using ht.2.2
  | push h | pushFull h | pop h | popEmpty h | stealNothing h | stealClaim h | refillTake h
  | refillNothing h => rw [h] at ht; cases ht.1
  | stealPublish h | append h => rw [h] at ht; exact ht.elim

/-- Deque into which a call still has to put something, or from which it takes. -/
def Status.own : Status δ κ α → Option δ
  | .pending c => c.ownerSide
  | .stealing _ dst _ | .appending dst _ _ => some dst
  | _ => none

/-- The thread gives nothing away: what it has, and what it will have, goes to deque
{lit}`d`. -/
def Status.Keeps (d : δ) (st : Status δ κ α) : Prop :=
  (∀ c, st = .pending c → c.carried = []) ∧ ∀ d', st.own = some d' → d' = d

omit [DecidableEq δ] [DecidableEq κ] [DecidableEq τ] in
theorem Status.Takes.keeps {l : List α} {st : Status δ κ α} (h : st.Takes d n l) : st.Keeps d := by
  cases st with
  | pending c =>
      cases c <;> simp only [Status.Takes] at h
      obtain ⟨rfl, -⟩ := h
      exact ⟨fun c hc => by cases hc; rfl, fun d' hd => by cases hd; rfl⟩
  | decided r => exact ⟨nofun, nofun⟩
  | _ => exact h.elim

omit [DecidableEq δ] [DecidableEq κ] [DecidableEq τ] in
theorem Status.Brings.keeps {l : List α} {st : Status δ κ α} (h : st.Brings d l) : st.Keeps d := by
  cases st with
  | pending c =>
      cases c <;> simp only [Status.Brings] at h <;> obtain ⟨rfl, -⟩ := h <;>
        exact ⟨fun c hc => by cases hc; rfl, fun d' hd => by cases hd; rfl⟩
  | stealing | appending => exact ⟨nofun, fun d' hd => by cases hd; exact h.1⟩
  | decided r => exact ⟨nofun, nofun⟩
  | idle => exact h.elim

omit [DecidableEq δ] [DecidableEq κ] [DecidableEq τ] in
theorem Status.Looks.keeps {l : List α} {st : Status δ κ α} (h : st.Looks l) : st.Keeps d := by
  cases st with
  | pending c =>
      refine ⟨fun c' hc => by cases hc; exact h.2.1, fun d' hd => ?_⟩
      cases h.1.symm.trans hd
  | decided r => exact ⟨nofun, nofun⟩
  | _ => exact h.elim

/-- What such a thread has in its hands and in the deque stays there. -/
theorem AtomicDeques.Acts.keeps (h : AtomicDeques.Acts capacity t b b')
    (hkeeps : (b.status t).Keeps d) :
    b.list d ++ (b.status t).carried ⊆ b'.list d ++ (b'.status t).carried := by
  obtain ⟨hcarried, hown⟩ := hkeeps
  have hgiven : ∀ {c}, b.status t = .pending c → (b.status t).carried = [] := fun hc => by
    rw [hc]
    exact hcarried _ hc
  intro a ha
  cases h with
  | push h | pushFull h | queuePush h => cases hcarried _ h
  | @pop d' l val h hlast =>
      obtain rfl := hown d' (by rw [h]; rfl)
      rw [hgiven h, List.append_nil, hlast] at ha
      simpa [setStatus, setList, Status.carried, QueueRes.elements] using ha
  | @stealClaim victim dst max n h hpos hmax hlen =>
      rw [hgiven h, List.append_nil] at ha
      by_cases hd : d = victim
      · subst hd
        rw [← List.take_append_drop n (b.list d)] at ha
        have := List.perm_append_comm.mem_iff.mp ha
        simpa [setStatus, setClaimed, setList, Status.carried] using this
      · simp [setStatus, setClaimed, setList, hd, ha]
  | stealPublish h =>
      rw [h] at ha
      simpa [setStatus, setClaimed, Status.carried, QueueRes.elements] using ha
  | @append d' vals r h hroom =>
      obtain rfl := hown d' (by rw [h]; rfl)
      rw [h] at ha
      simpa [setStatus, setList, Status.carried, or_assoc] using ha
  | queuePop h | queuePopNothing h =>
      rcases h with h | h <;> rw [hgiven h, List.append_nil] at ha <;>
        exact List.mem_append_left _ ha
  | refillTake h | popEmpty h | len h | stealNothing h | refillNothing h =>
      rw [hgiven h, List.append_nil] at ha
      exact List.mem_append_left _ ha

end OneSlot

/-! ## What the private deque of a helper holds -/

/-- Jobs the frame below has moved into the deque for the pop that is next. -/
def ready : List Frame → Nat
  | .steal _ _ .popRefilled :: _ | .steal _ _ (.popStolen _) :: _ => 1
  | _ => 0

/-- What the deque of a helper holds while a frame of the helper is the innermost one,
with the status of the frame's queue operation. -/
def Frame.Leaves (st : Status DequeId QueueId Nat) (l : List Nat) (rest : List Frame) : Frame → Prop
  | .pop _ .pop => l.length = ready rest
  | .pop w .popWait => st.Takes w.tasks (ready rest) l
  | .steal w _ .refillWait | .steal w _ (.stealWait _) => st.Brings w.tasks l
  | .pop _ .inboxWait | .steal _ _ (.tryPopWait _) | .steal _ _ (.victimLenWait _) => st.Looks l
  | _ => l = []

section Leaves

variable {t : Tid} {c : Choice} {m m' : Mem} {ctx ctx' : Context} {f f' g : Frame}
  {rest fs gs : List Frame} {w : WorkerRef} {q : QueueCall DequeId QueueId Nat} {l : List Nat}
  {st : Status DequeId QueueId Nat} {p r : Nat}

theorem ready_le (stack : List Frame) : ready stack ≤ 1 := by
  unfold ready
  split <;> decide

/-- Queue operations of a helper keep the deque as the frame says. -/
theorem Frame.Leaves.tick {b b' : AtomicDeques DequeId QueueId Tid Nat} {capacity : DequeId → Nat}
    (h : f.Leaves (b.status t) (b.list w.tasks) rest) (hwaits : f.Waits ctx q)
    (hw : f.worker = some w) (hcap : capacity w.tasks = 1) (hact : AtomicDeques.Acts capacity t b b') :
    f.Leaves (b'.status t) (b'.list w.tasks) rest := by
  cases f <;> cases hw
  case runUntil => exact hwaits.elim
  case pop pc =>
    cases pc with
    | popWait => exact hact.takes (ready_le rest) h
    | inboxWait => exact hact.looks h
    | _ => exact hwaits.elim
  case steal tick pc =>
    cases pc with
    | refillWait | stealWait => exact hact.brings hcap h
    | tryPopWait | victimLenWait => exact hact.looks h
    | _ => exact hwaits.elim

/-- A helper gives nothing away. -/
theorem Frame.Leaves.keeps (h : f.Leaves st l rest) (hwaits : f.Waits ctx q)
    (hw : f.worker = some w) : st.Keeps w.tasks := by
  cases f <;> cases hw
  case runUntil => exact hwaits.elim
  case pop pc =>
    cases pc with
    | popWait => exact Status.Takes.keeps h
    | inboxWait => exact Status.Looks.keeps h
    | _ => exact hwaits.elim
  case steal tick pc =>
    cases pc with
    | refillWait | stealWait => exact Status.Brings.keeps h
    | tryPopWait | victimLenWait => exact Status.Looks.keeps h
    | _ => exact hwaits.elim

theorem Frame.Leaves.call (h : f.Leaves st l rest) (hc : f.call m ctx = some (q, f'))
    (hw : f.worker = some (.helper p r)) : f'.Leaves (.pending q) l rest := by
  cases f <;> cases hw
  case runUntil => cases hc
  case pop pc =>
    cases pc <;> cases hc
    · exact ⟨rfl, h⟩
    · exact ⟨rfl, rfl, h⟩
  case steal tick pc =>
    cases pc <;> cases hc
    · exact ⟨rfl, h⟩
    · exact ⟨rfl, rfl, h⟩
    · exact ⟨rfl, rfl, h⟩
    · exact ⟨rfl, nofun, h⟩

/-- What a helper has moved into its deque it pops next; else the deque is empty. -/
theorem Frame.Leaves.answer {res : QueueRes Nat} (h : f.Leaves (.decided res) l rest)
    (hwaits : f.Waits ctx q) (hres : q.Returns res) (hw : f.worker = some w)
    (hg : f.answer res = g :: gs) :
    (g.worker = some w → g.Leaves st l (gs ++ rest)) ∧ (g.worker ≠ some w → l = []) := by
  cases f <;> cases hw
  case runUntil => exact hwaits.elim
  case pop pc =>
    cases pc with
    | popWait =>
        obtain rfl := hwaits
        obtain ⟨val, rfl⟩ := hres
        cases val <;> cases hg <;> exact ⟨fun _ => h.1, fun _ => h.1⟩
    | inboxWait =>
        obtain rfl := hwaits
        obtain ⟨val, rfl⟩ := hres
        cases val <;> cases hg <;> exact ⟨nofun, fun _ => h⟩
    | _ => exact hwaits.elim
  case steal tick pc =>
    cases pc with
    | refillWait =>
        obtain ⟨max, rfl⟩ := hwaits
        obtain ⟨n, rfl⟩ := hres
        simp only [Frame.answer] at hg
        split at hg <;> cases hg
        · have hone : l.length = 1 := by
            have := h.1
            have := h.2
            omega
          exact ⟨fun _ => hone, fun hne => absurd rfl hne⟩
        · have hnil : l = [] := List.length_eq_zero_iff.mp (by have := h.1; omega)
          exact ⟨fun _ => hnil, fun _ => hnil⟩
    | tryPopWait offset =>
        obtain ⟨i, rfl⟩ := hwaits
        obtain ⟨val, rfl⟩ := hres
        cases val <;> cases hg <;> exact ⟨fun _ => h, fun _ => h⟩
    | victimLenWait offset =>
        obtain ⟨i, rfl⟩ := hwaits
        obtain ⟨n, rfl⟩ := hres
        cases hg
        exact ⟨fun _ => h, fun _ => h⟩
    | stealWait offset =>
        obtain ⟨i, max, rfl⟩ := hwaits
        obtain ⟨out, rfl⟩ := hres
        cases out <;> cases hg
        · exact ⟨fun _ => h, fun _ => h⟩
        · exact ⟨fun _ => h, fun _ => h⟩
        · exact ⟨fun _ => h, fun hne => absurd rfl hne⟩
    | _ => exact hwaits.elim

/-- A frame that steps by itself finds the deque of the helper empty. -/
theorem Frame.Leaves.of_step (h : f.Leaves st l rest) (hs : f.step t c m ctx = some (m', ctx', fs))
    (hw : f.worker = some w) : l = [] := by
  cases f <;> cases hw
  case runUntil => exact h
  case pop pc => cases hs
  case steal tick pc =>
    cases pc with
    | scan | inboxLen => exact h
    | _ => cases hs

/-- A frame that waits for another one has nothing in the deque. -/
theorem Frame.leaves_of_awaits (hf : g.awaits) (hw : g.worker = some w) : g.Leaves st [] rest := by
  cases g with
  | runUntil => rfl
  | pop w pc => cases pc <;> first | rfl | cases hf
  | steal w tick pc => cases pc <;> first | rfl | cases hf
  | _ => cases hw

/-- A frame that took a result starts on an empty deque. -/
theorem Frame.resume_leaves {o : Outcome} (hf : f.awaits) (hg : f.resume o = g :: gs)
    (hw : g.worker = some w) : g.Leaves st [] (gs ++ rest) := by
  rcases (Frame.resume_givesWay f o).tag (hg ▸ List.mem_cons_self) with rfl | htag
  · exact Frame.leaves_of_awaits hf hw
  · cases f with
    | runUntil w s tick pc => cases pc <;> rcases o with _ | (_ | _) | _ <;> cases hg <;> rfl
    | pop w pc => cases pc <;> first | (cases hf; done) | (cases hg; cases hw)
    | steal w tick pc =>
        cases pc <;> first
          | (cases hf; done)
          | (rcases o with _ | (_ | _) | _ <;> cases hg <;> rfl)
    | loop p i tick rounds pc =>
        cases g with
        | steal w tick' pc' =>
            cases pc <;> rcases o with _ | (_ | _) | _ <;> simp only [Frame.resume] at hg <;>
              (try split at hg) <;> cases hg <;> rfl
        | pop w pc' =>
            cases pc <;> rcases o with _ | (_ | _) | _ <;> simp only [Frame.resume] at hg <;>
              (try split at hg) <;> cases hg
        | _ => first | (cases hw; done) | simp [FrameTag.next, Frame.tag] at htag
    | _ => cases g <;> cases hw <;> simp [FrameTag.next, Frame.tag] at htag <;> rfl

/-- A frame that stepped by itself leaves an empty deque to the next frame of the helper. -/
theorem Frame.step_leaves (hs : f.step t c m ctx = some (m', ctx', g :: gs))
    (hw : g.worker = some (.helper p r)) : g.Leaves st [] (gs ++ rest) := by
  have htag := Frame.step_givesWay hs g List.mem_cons_self
  cases f with
  | runUntil w s tick pc =>
      obtain ⟨hs, -, -⟩ := keepMem_eq.mp hs
      cases pc <;> simp only [runUntilStep, reduceCtorEq] at hs
      split at hs <;> cases hs
      · cases hw
      · rfl
  | steal w tick pc =>
      obtain ⟨hs, -, -⟩ := keepMem_eq.mp hs
      cases pc <;> simp only [stealStep, reduceCtorEq] at hs <;> (try split at hs) <;>
        (try split at hs) <;> cases hs <;> rfl
  | loop p i tick rounds pc =>
      cases pc <;> simp only [Frame.step, loopStep, reduceCtorEq] at hs <;> (try split at hs) <;> 
        cases hs <;> cases hw
  | pop w pc => cases hs
  | _ => cases g <;> cases hw <;> simp [FrameTag.next, Frame.tag] at htag <;> rfl

/-- Whichever frame is the innermost one after a result was taken, or after a step, it
starts on an empty deque. -/
theorem leaves_of_replaced (hnew : ∀ gs', fs = g :: gs' → g.Leaves st [] (gs' ++ rest))
    (hrest : ∀ x ∈ rest, x.awaits) (h : fs ++ rest = g :: gs) (hw : g.worker = some w) :
    g.Leaves st [] gs := by
  rcases List.append_eq_cons_iff.mp h with ⟨rfl, rfl⟩ | ⟨gs', rfl, rfl⟩
  · exact Frame.leaves_of_awaits (hrest g List.mem_cons_self) hw
  · exact hnew gs' rfl

theorem Frame.call_worker (hc : f.call m ctx = some (q, f')) : f'.worker = f.worker := by
  cases f with
  | enqueue => cases hc; rfl
  | spawn p s pc =>
      cases pc <;> simp only [Frame.call, reduceCtorEq] at hc
      split at hc <;> cases hc
      rfl
  | pop w pc | steal w tick pc | sleep p i pc => cases pc <;> cases hc <;> rfl
  | _ => cases hc

/-- A frame of a search leads on to frames of the same search only. -/
theorem Frame.answer_worker {res : QueueRes Nat} (hg : g ∈ f.answer res)
    (hw : g.worker = some w) : f.worker = some w := by
  have hsame : ∀ g ∈ f.answer res, g.worker = f.worker ∨ g.worker = none := by
    unfold Frame.answer
    split <;> (try split) <;> simp [Frame.worker]
  rcases hsame g hg with h | h
  · exact h ▸ hw
  · rw [h] at hw
    cases hw

/-- A job that a search got hold of is handed to {lit}`run_task`. -/
theorem Frame.answer_hands {res : QueueRes Nat} {j : Nat} (hwaits : f.Waits ctx q)
    (hres : q.Returns res) (hw : f.worker = some w) (hj : j ∈ res.elements) :
    ∃ g gs, f.answer res = .task j .start :: g :: gs ∧ g.worker = some w := by
  have hpopped : ∀ val : Option Nat, res = .popped val → res = .popped (some j) := by
    rintro val rfl
    rw [Option.mem_toList.mp hj]
  cases f <;> cases hw
  case runUntil => exact hwaits.elim
  case pop pc =>
    cases pc with
    | popWait | inboxWait =>
        obtain rfl := hwaits
        obtain ⟨val, hval⟩ := hres
        obtain rfl := hpopped val hval
        exact ⟨_, _, rfl, rfl⟩
    | _ => exact hwaits.elim
  case steal tick pc =>
    cases pc with
    | refillWait =>
        obtain ⟨max, rfl⟩ := hwaits
        obtain ⟨n, rfl⟩ := hres
        cases hj
    | tryPopWait offset =>
        obtain ⟨i, rfl⟩ := hwaits
        obtain ⟨val, hval⟩ := hres
        obtain rfl := hpopped val hval
        exact ⟨_, _, rfl, rfl⟩
    | victimLenWait offset =>
        obtain ⟨i, rfl⟩ := hwaits
        obtain ⟨n, rfl⟩ := hres
        cases hj
    | stealWait offset =>
        obtain ⟨i, max, rfl⟩ := hwaits
        obtain ⟨out, rfl⟩ := hres
        cases hj
    | _ => exact hwaits.elim

theorem Frame.answer_ne_nil (f : Frame) (res : QueueRes Nat) : f.answer res ≠ [] := by
  unfold Frame.answer
  split <;> (try split) <;> exact List.cons_ne_nil _ _

/-- The frames of a search leave the memory to their queue operations. -/
theorem Frame.step_mem (hs : f.step t c m ctx = some (m', ctx', fs)) (hw : f.worker = some w) :
    m' = m := by
  cases f <;> cases hw
  case pop => cases hs
  all_goals exact (keepMem_eq.mp hs).2.1

end Leaves

/-! ## The private deque over whole runs -/

/-- The ring of a helper has one slot. -/
theorem helper_capacity {s : PoolState} (hs : poolMachine.Reachable s) (r : Nat) :
    (s.mem.queues.deque (.helper r)).buffer.capacity = 1 := by
  refine hs.invariant (I := fun s => (s.mem.queues.deque (.helper r)).buffer.capacity = 1)
    (fun s h => by rw [h]; exact FixedRingBuffer.capacity_new acceptsCapacity_one) ?_
  intro s l s' hs hcap hstep
  obtain ⟨m, th, hlocal, rfl⟩ := Machine.ofThreads_step hstep
  have hlocal := threadStep_cases hlocal
  revert hlocal
  generalize hthread : s.threads l.1 = th₀
  intro hlocal
  cases hlocal with
  | resume | call | answer => exact hcap
  | frame h =>
      rcases step_deque hs (by rw [hthread]) h (.helper r) with hd | ⟨⟨n, hn, hd, hone⟩, -⟩
      · rw [hd]
        exact hcap
      · rw [hd]
        exact (FixedRingBuffer.capacity_new hn).trans (hone r rfl)
  | tick hi hx =>
      have hmask := QInstr.exec_mask hx (.helper r)
      rw [FixedRingBuffer.capacity] at hcap ⊢
      rw [hmask]
      exact hcap

/-- What the private deque of scope {lit}`r`'s helper holds, whoever searches with it. -/
structure PoolState.HelperOk (s : PoolState) (b : AtomicDeques DequeId QueueId Tid Nat) (r : Nat) :
    Prop where
  leaves : ∀ t f rest p, (s.threads t).stack = f :: rest → f.worker = some (.helper p r) →
    f.Leaves (b.status t) (b.list (.helper r)) rest
  empty : b.list (.helper r) = [] ∨ ∃ t, s.SearchesFor r t

section HelperOk

variable {s s' : PoolState} {t u : Tid} {r : Nat} {b b' : AtomicDeques DequeId QueueId Tid Nat}
  {m : Mem} {th : Thread}

theorem searchesFor_of_ne (hu : u ≠ t) :
    PoolState.SearchesFor ⟨m, Function.update s.threads t th⟩ r u ↔ s.SearchesFor r u := by
  simp only [PoolState.SearchesFor, Function.update_of_ne hu]

theorem searchesFor_self :
    PoolState.SearchesFor ⟨m, Function.update s.threads t th⟩ r t ↔
      ∃ f rest p, th.stack = f :: rest ∧ f.worker = some (.helper p r) := by
  simp only [PoolState.SearchesFor, Function.update_self]

/-- A step of thread {lit}`t` that leaves the deque alone concerns thread {lit}`t` only. -/
theorem PoolState.HelperOk.step (h : s.HelperOk b r)
    (hstatus : ∀ u, u ≠ t → b'.status u = b.status u)
    (hlist : b'.list (.helper r) = b.list (.helper r))
    (hself : ∀ f rest p, th.stack = f :: rest → f.worker = some (.helper p r) →
      f.Leaves (b'.status t) (b'.list (.helper r)) rest)
    (hleft : s.SearchesFor r t → (∀ f rest p, th.stack = f :: rest → f.worker ≠ some (.helper p r)) →
      b.list (.helper r) = []) :
    PoolState.HelperOk ⟨m, Function.update s.threads t th⟩ b' r := by
  refine ⟨fun u f rest p hu hf => ?_, ?_⟩
  · by_cases hut : u = t
    · subst hut
      exact hself f rest p (by simpa using hu) hf
    · rw [hstatus u hut, hlist]
      exact h.leaves u f rest p (by simpa [hut] using hu) hf
  · rw [hlist]
    rcases h.empty with hempty | ⟨u, hu⟩
    · exact .inl hempty
    · by_cases hut : u = t
      · subst hut
        by_cases hstill : ∃ f rest p, th.stack = f :: rest ∧ f.worker = some (.helper p r)
        · exact .inr ⟨u, searchesFor_self.mpr hstill⟩
        · exact .inl (hleft hu fun f rest p hf hw => hstill ⟨f, rest, p, hf, hw⟩)
      · exact .inr ⟨u, (searchesFor_of_ne hut).mpr hu⟩

/-- So does one after which the searching thread starts on an empty deque. -/
theorem PoolState.HelperOk.renew (h : s.HelperOk b r)
    (hs' : poolMachine.Reachable ⟨m, Function.update s.threads t th⟩)
    (hstatus : ∀ u, u ≠ t → b'.status u = b.status u)
    (hlist : b'.list (.helper r) = b.list (.helper r) ∨
      b'.list (.helper r) = [] ∧ ∀ u, ¬ s.SearchesFor r u)
    (hbefore : s.SearchesFor r t → b.list (.helper r) = [])
    (hafter : ∀ f rest p, th.stack = f :: rest → f.worker = some (.helper p r) →
      f.Leaves (b'.status t) [] rest) :
    PoolState.HelperOk ⟨m, Function.update s.threads t th⟩ b' r := by
  rcases hlist with hlist | ⟨hempty, hnobody⟩
  · refine h.step hstatus hlist (fun f rest p hf hw => ?_) fun ht _ => hbefore ht
    have hempty : b.list (.helper r) = [] := by
      rcases h.empty with hempty | ⟨u, hu⟩
      · exact hempty
      · -- the thread that searches for work now is the one that did before
        by_cases hut : u = t
        · exact hbefore (hut ▸ hu)
        · exact absurd (searches_unique hs' ((searchesFor_of_ne hut).mpr hu)
            (searchesFor_self.mpr ⟨f, rest, p, hf, hw⟩)) hut
    rw [hlist, hempty]
    exact hafter f rest p hf hw
  · refine ⟨fun u f rest p hu hf => ?_, .inl hempty⟩
    by_cases hut : u = t
    · subst hut
      rw [hempty]
      exact hafter f rest p (by simpa using hu) hf
    · exact absurd ⟨f, rest, p, by simpa [hut] using hu, hf⟩ (hnobody u)

/-- An operation of a thread that does not search with the helper leaves its deque
alone. -/
theorem deque_of_not_searching (hs : poolMachine.Reachable s) (ht : ¬ s.SearchesFor r t)
    {spurious : Bool} {i : QInstr DequeId QueueId Nat (Op DequeId QueueId Nat)}
    {queues : Queues DequeId QueueId Tid Nat} {o' : Op DequeId QueueId Nat}
    (hi : (s.ops t).instr spurious = some i) (hx : i.exec t s.mem.queues = some (queues, o')) :
    queues.deque (.helper r) = s.mem.queues.deque (.helper r) := by
  rcases calling hs t with hidle | ⟨f, rest, q, hstack, hwaits, hwithin⟩
  · rw [PoolState.ops, hidle] at hi
    cases hi
  · refine (hwithin.frame hi hx).1 _ fun hd => ?_
    obtain ⟨p, hf⟩ := hwaits.worksOn.1 _ hd
    exact ht ⟨f, rest, p, hstack, hf⟩

/-- A step of a frame leaves the deque alone, or replaces it by an empty one while nobody
searches with the helper. -/
theorem deque_of_step (hs : poolMachine.Reachable s) {c : Choice} {f : Frame} {rest fs : List Frame}
    {ctx ctx' : Context} (hstack : (s.threads t).stack = f :: rest)
    (h : f.step t c s.mem ctx = some (m, ctx', fs)) :
    (m.queues.deque (.helper r)).unclaimed = (s.mem.queues.deque (.helper r)).unclaimed ∨
      (m.queues.deque (.helper r)).unclaimed = [] ∧ ∀ u, ¬ s.SearchesFor r u := by
  by_cases hworks : f.WorksOn (.deque (.helper r))
  · obtain ⟨p, hw⟩ := hworks
    rw [Frame.step_mem h hw]
    exact .inl rfl
  · rcases (step_jobs hs hstack h).lyingIn hworks with hsame | ⟨hclears, hempty⟩
    · exact .inl hsame
    · refine .inr ⟨hempty, fun u ⟨g, gs, p, hg, hw⟩ => ?_⟩
      exact hclears.unused hs hstack u g (by rw [hg]; exact List.mem_cons_self) ⟨p, hw⟩

theorem PoolState.HelperOk.same (h : s.HelperOk b r)
    (hstack : ∀ u, (s'.threads u).stack = (s.threads u).stack) : s'.HelperOk b r := by
  refine ⟨fun u f rest p hu => h.leaves u f rest p ((hstack u).symm.trans hu), ?_⟩
  exact h.empty.imp_right fun ⟨u, f, rest, p, hu, hw⟩ => ⟨u, f, rest, p, (hstack u).trans hu, hw⟩

/-- The searching thread's own operation keeps the deque as its frame says, and loses
nothing. -/
theorem PoolState.HelperOk.act {capacity : DequeId → Nat} (h : s.HelperOk b r)
    (hs : poolMachine.Reachable s) (ht : s.SearchesFor r t) (hop : s.ops t ≠ .idle)
    (hcap : capacity (.helper r) = 1) (hact : AtomicDeques.Acts capacity t b b')
    (hstack : ∀ u, (s'.threads u).stack = (s.threads u).stack) :
    s'.HelperOk b' r ∧
      b.list (.helper r) ++ (b.status t).carried ⊆ b'.list (.helper r) ++ (b'.status t).carried := by
  obtain ⟨f, rest, p, hf, hw⟩ := ht
  rcases calling hs t with hidle | ⟨f', rest', q, hf', hwaits, -⟩
  · exact absurd hidle hop
  obtain ⟨rfl, rfl⟩ := List.cons.inj (hf.symm.trans hf')
  have hleaves := h.leaves t f rest p hf hw
  refine ⟨⟨fun u g rest' p' hu hg => ?_, .inr ⟨t, f, rest, p, (hstack t).trans hf, hw⟩⟩,
    hact.keeps (hleaves.keeps (w := .helper p r) hwaits hw)⟩
  have hu := (hstack u).symm.trans hu
  obtain rfl : t = u := searches_unique hs ⟨f, rest, p, hf, hw⟩ ⟨g, rest', p', hu, hg⟩
  obtain ⟨rfl, rfl⟩ := List.cons.inj (hf.symm.trans hu)
  exact Frame.Leaves.tick (w := .helper p r) hleaves hwaits hw hcap hact

/-- What a helper has in its deque or in its hands, a queue operation leaves with it. -/
theorem PoolState.HelperOk.has {capacity : DequeId → Nat} {j : Nat} (h : s.HelperOk b r)
    (hs : poolMachine.Reachable s) (hop : s.ops t ≠ .idle) (hcap : capacity (.helper r) = 1)
    (hfollows : b.Follows capacity t b')
    (hlist : ¬ s.SearchesFor r t → b'.list (.helper r) = b.list (.helper r))
    (hhas : j ∈ b.list (.helper r) ∨ ∃ u, s.SearchesFor r u ∧ j ∈ (b.status u).carried) :
    j ∈ b'.list (.helper r) ∨ ∃ u, s.SearchesFor r u ∧ j ∈ (b'.status u).carried := by
  rcases hfollows with rfl | hact
  · exact hhas
  by_cases ht : s.SearchesFor r t
  · have hstack : ∀ u, (s.threads u).stack = (s.threads u).stack := fun _ => rfl
    have hkeeps := (h.act hs ht hop hcap hact hstack).2
    have hj : j ∈ b.list (.helper r) ++ (b.status t).carried := by
      rcases hhas with hj | ⟨u, hu, hj⟩
      · exact List.mem_append_left _ hj
      · obtain rfl := searches_unique hs ht hu
        exact List.mem_append_right _ hj
    exact (List.mem_append.mp (hkeeps hj)).imp_right fun hj => ⟨t, ht, hj⟩
  · rw [hlist ht]
    refine hhas.imp_right fun ⟨u, hu, hj⟩ => ⟨u, hu, ?_⟩
    have hut : u ≠ t := fun h => ht (h ▸ hu)
    rwa [hact.status_of_ne hut]

end HelperOk

/-- The private deque of a helper holds what the frame of the helper says, and nothing
while no frame of the helper is the innermost one. -/
theorem helperOk {s : PoolState} (hs : poolMachine.Reachable s) :
    ∃ b, Refines s.mem.queues s.ops b ∧ ∀ r, s.HelperOk b r := by
  refine hs.invariant (I := fun s => ∃ b, Refines s.mem.queues s.ops b ∧ ∀ r, s.HelperOk b r)
    ?_ ?_
  · rintro s rfl
    obtain ⟨b, hb⟩ := (queuesOk (.init rfl)).spec
    refine ⟨b, hb, fun r => ⟨fun t f rest p hstack hw => ?_, .inl ?_⟩⟩
    · cases t <;> cases hstack <;> cases hw
    · rw [hb.list]
      exact WorkerQueue.unclaimed_new 1 acceptsCapacity_one
  · intro s l s' hr ⟨b, hb, hok⟩ hstep
    have hr' : poolMachine.Reachable s' := .step hr trivial hstep
    obtain ⟨hdeques, hqueues, -⟩ := queuesOk hr
    have hawaits := awaits hr l.1
    have hcalling := calling hr l.1
    obtain ⟨m, th, hth, rfl⟩ := Machine.ofThreads_step hstep
    have hops := PoolState.ops_update (s := s) (t := l.1) m th
    have hlocal := threadStep_cases hth
    revert hlocal
    generalize hthread : s.threads l.1 = th₀
    intro hlocal
    have hop : s.ops l.1 = th₀.op := congrArg Thread.op hthread
    have hsame : th₀.op = .idle → Function.update s.ops l.1 .idle = s.ops := by
      intro hidle
      rw [← hidle, ← hop]
      exact Function.update_eq_self ..
    cases hlocal with
    | @resume ctx o f rest =>
        rw [hsame rfl] at hops
        rw [hthread] at hawaits
        refine ⟨b, hops ▸ hb, fun r => (hok r).renew hr' (fun _ _ => rfl) (.inl rfl) ?_ ?_⟩
        · rintro ⟨g, gs, p, hg, hw⟩
          rw [hthread] at hg
          obtain ⟨rfl, -⟩ := List.cons.inj hg
          cases hw
        · intro g gs p hg hw
          refine leaves_of_replaced (fun gs' hf => ?_) (fun x hx => hawaits x (by simp [hx])) hg hw
          exact Frame.resume_leaves (hawaits f (by simp)) hf hw
    | @call ctx f f' rest q h =>
        have hf : (s.threads l.1).stack = f :: rest := by rw [hthread]
        refine ⟨b.setStatus l.1 (.pending q), hops ▸ hb.enter ?_ ?_ (Op.matches_start _ _), fun r => ?_⟩
        · rw [hop]
          rfl
        · exact Op.drains_start _
        refine (hok r).step (fun u hu => AtomicDeques.setStatus_of_ne hu) rfl ?_ ?_
        · intro g gs p hg hw
          obtain ⟨rfl, rfl⟩ := List.cons.inj hg
          have hleaves := (hok r).leaves l.1 f rest p hf ((Frame.call_worker h).symm.trans hw)
          simpa [AtomicDeques.setStatus] using hleaves.call h ((Frame.call_worker h).symm.trans hw)
        · rintro ⟨g, gs, p, hg, hw⟩ hnot
          obtain ⟨rfl, rfl⟩ := List.cons.inj (hf.symm.trans hg)
          exact absurd ((Frame.call_worker h).trans hw) (hnot f' rest p rfl)
    | @answer ctx f rest res =>
        have hf : (s.threads l.1).stack = f :: rest := by rw [hthread]
        have hstatus : b.status l.1 = .decided res := by
          have := hb.status l.1
          rwa [hop] at this
        refine ⟨b.setStatus l.1 .idle, hops ▸ hb.enter (by rw [hop]; rfl) rfl rfl, fun r => ?_⟩
        obtain ⟨g, gs, hgs⟩ := List.exists_cons_of_ne_nil (Frame.answer_ne_nil f res)
        have hleaves : ∀ p, f.worker = some (.helper p r) →
            (g.worker = some (.helper p r) →
                g.Leaves ((b.setStatus l.1 .idle).status l.1) (b.list (.helper r)) (gs ++ rest)) ∧
              (g.worker ≠ some (.helper p r) → b.list (.helper r) = []) := by
          intro p hw
          have hbefore := (hok r).leaves l.1 f rest p hf hw
          rw [hstatus] at hbefore
          rw [Thread.Calling, hthread] at hcalling
          rcases hcalling with hidle | ⟨f', rest', q, hf', hwaits, hwithin⟩
          · cases hidle
          · obtain ⟨rfl, rfl⟩ := List.cons.inj hf'
            exact hbefore.answer hwaits hwithin hw hgs
        refine (hok r).step (fun u hu => AtomicDeques.setStatus_of_ne hu) rfl ?_ ?_
        · intro g' gs' p hg hw
          rw [show f.answer res ++ rest = g :: (gs ++ rest) by rw [hgs]; rfl] at hg
          obtain ⟨rfl, rfl⟩ := List.cons.inj hg
          exact (hleaves p (Frame.answer_worker (hgs ▸ List.mem_cons_self) hw)).1 hw
        · rintro ⟨f', rest', p, hf', hw⟩ hnot
          obtain ⟨rfl, rfl⟩ := List.cons.inj (hf.symm.trans hf')
          exact (hleaves p hw).2 (hnot g (gs ++ rest) p (by rw [hgs]; rfl))
    | @frame ctx ctx' f rest fs m' h =>
        have hstack : (s.threads l.1).stack = f :: rest := by rw [hthread]
        rw [hsame rfl] at hops
        obtain ⟨b', hb', hstatus⟩ := hb.change (step_hands hr hqueues hstack (by rw [hthread]) h)
        refine ⟨b', hops ▸ hb', fun r => (hok r).renew hr' (fun u _ => by rw [hstatus]) ?_ ?_ ?_⟩
        · rw [hb'.list, hb.list]
          exact deque_of_step hr hstack h
        · rintro ⟨g, gs, p, hg, hw⟩
          obtain ⟨rfl, rfl⟩ := List.cons.inj (hstack.symm.trans hg)
          exact ((hok r).leaves l.1 f rest p hg hw).of_step h hw
        · intro g gs p hg hw
          rw [hthread] at hawaits
          refine leaves_of_replaced (fun gs' hf => ?_) hawaits hg hw
          subst hf
          exact Frame.step_leaves h hw
    | @tick ctx stack o o' queues i hi hx =>
        have hop : s.ops l.1 = o := hop
        rw [← hop] at hi
        obtain ⟨b', hfollows, hb'⟩ := hb.tick (fun _ => rfl) hdeques hqueues hi hx
        refine ⟨b', hops ▸ hb', fun r => ?_⟩
        have hstack : ∀ u, (Function.update s.threads l.1 ⟨ctx, stack, o'⟩ u).stack =
            (s.threads u).stack := by
          intro u
          by_cases hu : u = l.1
          · subst hu
            simp [hthread]
          · simp [hu]
        by_cases ht : s.SearchesFor r l.1
        · rcases hfollows with rfl | hact
          · exact (hok r).same hstack
          · refine ((hok r).act hr ht ?_ (helper_capacity hr r) hact hstack).1
            intro hidle
            rw [hidle] at hi
            cases hi
        · refine (hok r).step (fun u hu => ?_) ?_ (fun g gs p hg hw => ?_) fun h => absurd h ht
          · rcases hfollows with rfl | hact
            · rfl
            · exact hact.status_of_ne hu
          · rw [hb'.list, hb.list, deque_of_not_searching hr ht hi hx]
          · exact absurd ⟨g, gs, p, by simpa [hthread] using hg, hw⟩ ht

/-! ## Jobs a helper took -/

/-- A helper has a job: in its deque, or in the hands of a search with it. -/
def PoolState.HelperHas (s : PoolState) (r j : Nat) : Prop :=
  j ∈ (s.mem.queues.deque (.helper r)).unclaimed ∨
    ∃ t, s.SearchesFor r t ∧ j ∈ (s.ops t).hands s.mem.queues

/-- A helper hands a job to {lit}`run_task`. -/
def PoolState.HandsOver (s : PoolState) (r j : Nat) : Prop :=
  ∃ t f rest p, (s.threads t).stack = .task j .start :: f :: rest ∧ f.worker = some (.helper p r)

/-- A helper keeps a job until it hands it to {lit}`run_task`. -/
theorem helperHas_step {s s' : PoolState} {l : Tid × Choice} {r j : Nat}
    (hs : poolMachine.Reachable s) (hhas : s.HelperHas r j) (hstep : poolMachine.step s l = some s') :
    s'.HelperHas r j ∨ s'.HandsOver r j := by
  obtain ⟨b, hb, hok⟩ := helperOk hs
  obtain ⟨hdeques, hqueues, -⟩ := queuesOk hs
  have hcalling := calling hs l.1
  obtain ⟨m, th, hth, rfl⟩ := Machine.ofThreads_step hstep
  have hops := PoolState.ops_update (s := s) (t := l.1) m th
  have hlocal := threadStep_cases hth
  revert hlocal
  generalize hthread : s.threads l.1 = th₀
  intro hlocal
  have hop : s.ops l.1 = th₀.op := congrArg Thread.op hthread
  -- what another thread has in its hands, it keeps
  have hother : ∀ u, u ≠ l.1 → s.SearchesFor r u → j ∈ (s.ops u).hands m.queues →
      PoolState.HelperHas ⟨m, Function.update s.threads l.1 th⟩ r j := by
    intro u hu hsearch hj
    refine .inr ⟨u, (searchesFor_of_ne hu).mpr hsearch, ?_⟩
    rw [hops, Function.update_of_ne hu]
    exact hj
  cases hlocal with
  | @resume ctx o f rest =>
      rcases hhas with hj | ⟨u, hu, hj⟩
      · exact .inl (.inl hj)
      · refine .inl (hother u (fun hul => ?_) hu hj)
        subst hul
        rw [hop] at hj
        cases hj
  | @call ctx f f' rest q h =>
      rcases hhas with hj | ⟨u, hu, hj⟩
      · exact .inl (.inl hj)
      · refine .inl (hother u (fun hul => ?_) hu hj)
        subst hul
        rw [hop] at hj
        cases hj
  | @answer ctx f rest res =>
      rcases hhas with hj | ⟨u, hu, hj⟩
      · exact .inl (.inl hj)
      · by_cases hul : u = l.1
        · subst hul
          obtain ⟨g, gs, p, hg, hw⟩ := hu
          rw [hthread] at hg
          obtain ⟨rfl, rfl⟩ := List.cons.inj hg
          rw [hop] at hj
          rw [Thread.Calling, hthread] at hcalling
          rcases hcalling with hidle | ⟨f', rest', q, hf', hwaits, hwithin⟩
          · cases hidle
          · obtain ⟨rfl, rfl⟩ := List.cons.inj hf'
            obtain ⟨g, gs, hanswer, hgw⟩ := Frame.answer_hands hwaits hwithin hw (by simpa using hj)
            exact .inr ⟨l.1, g, gs ++ rest, p, by simp [hanswer], hgw⟩
        · exact .inl (hother u hul hu hj)
  | @frame ctx ctx' f rest fs m' h =>
      have hstack : (s.threads l.1).stack = f :: rest := by rw [hthread]
      rcases hhas with hj | ⟨u, hu, hj⟩
      · rcases deque_of_step (r := r) hs hstack h with hsame | ⟨-, hnobody⟩
        · exact .inl (.inl (hsame ▸ hj))
        · rcases (hok r).empty with hempty | ⟨u, hu⟩
          · rw [← hb.list, hempty] at hj
            cases hj
          · exact absurd hu (hnobody u)
      · refine .inl (hother u (fun hul => ?_) hu ?_)
        · subst hul
          rw [hop] at hj
          cases hj
        · rw [step_hands hs hqueues hstack (by rw [hthread]) h u]
          exact hj
  | @tick ctx stack o o' queues i hi hx =>
      have hop : s.ops l.1 = o := hop
      rw [← hop] at hi
      obtain ⟨b', hfollows, hb'⟩ := hb.tick (fun _ => rfl) hdeques hqueues hi hx
      have hhas : j ∈ b.list (.helper r) ∨ ∃ u, s.SearchesFor r u ∧ j ∈ (b.status u).carried := by
        refine hhas.imp (fun hj => (hb.list _).symm ▸ hj) fun ⟨u, hu, hj⟩ => ⟨u, hu, ?_⟩
        rwa [(hb.status u).carried]
      have hbusy : s.ops l.1 ≠ .idle := by
        intro hidle
        rw [hidle] at hi
        cases hi
      rcases (hok r).has hs hbusy (helper_capacity hs r) hfollows
        (fun ht => by rw [hb'.list, hb.list, deque_of_not_searching hs ht hi hx]) hhas
        with hj | ⟨u, hu, hj⟩
      · exact .inl (.inl (hb'.list _ ▸ hj))
      · refine .inl (.inr ⟨u, ?_, ?_⟩)
        · obtain ⟨g, gs, p, hg, hw⟩ := hu
          by_cases hul : u = l.1
          · subst hul
            exact ⟨g, gs, p, by simpa [hthread] using hg, hw⟩
          · exact ⟨g, gs, p, by simpa [hul] using hg, hw⟩
        · rw [hops]
          rwa [(hb'.status u).carried] at hj

/-- Dropping a helper with nothing in it drops no job. -/
theorem step_dropHelper {s s' : PoolState} {t : Tid} {c : Choice} {p r : Nat} {result : Outcome}
    {rest : List Frame} (hs : poolMachine.Reachable s)
    (hdeque : (s.mem.queues.deque (.helper r)).unclaimed = [])
    (hinbox : (s.mem.queues.queue (.helperInbox r)).elements = [])
    (hstack : (s.threads t).stack = .scope p r (.dropHelper .helper result) :: rest)
    (hstep : poolMachine.step s (t, c) = some s') :
    (s'.threads t).stack = .dropJobs [] :: (s.threads t).stack := by
  obtain ⟨m, th, hlocal, rfl⟩ := Machine.ofThreads_step hstep
  have hlocal := threadStep_cases hlocal
  have hcalling := calling hs t
  simp only [Function.update_self, hstack]
  revert hlocal hcalling
  generalize hthread : s.threads t = th₀
  intro hlocal hcalling
  rw [hthread] at hstack
  have hwaits : th₀.op = .idle := by
    rcases hcalling with hidle | ⟨f, rest', q, hf, hwaits, -⟩
    · exact hidle
    · obtain ⟨rfl, -⟩ := List.cons.inj (hstack.symm.trans hf)
      exact hwaits.elim
  cases hlocal with
  | resume | answer => cases hwaits <;> cases hstack
  | call h =>
      obtain ⟨rfl, rfl⟩ := List.cons.inj hstack
      cases h
  | frame h =>
      obtain ⟨rfl, rfl⟩ := List.cons.inj hstack
      simp only [Frame.step, scopeStep, Option.some.injEq, Prod.mk.injEq] at h
      obtain ⟨-, -, rfl⟩ := h
      simp [hdeque, hinbox]
  | tick hi hx =>
      obtain rfl := hwaits
      cases hi

/-- A helper leaves nothing behind.  Its inbox is always empty; its private deque is empty
whenever a job runs on the helper, and when the helper is dropped, so that dropping it
drops no job; and a job the helper took leaves it by being handed to {lit}`run_task`. -/
theorem helper_leaves_nothing_behind {s : PoolState} (hs : poolMachine.Reachable s) (r : Nat) :
    (s.mem.queues.queue (.helperInbox r)).elements = [] ∧
      (∀ t above j pc f below p, (s.threads t).stack = above ++ .task j pc :: f :: below →
        f.worker = some (.helper p r) → (s.mem.queues.deque (.helper r)).unclaimed = []) ∧
      (∀ t p result rest,
        (s.threads t).stack = .scope p r (.dropHelper .helper result) :: rest →
        (s.mem.queues.deque (.helper r)).unclaimed = [] ∧ (∀ j, ¬ s.HelperHas r j) ∧
          ∀ c s', poolMachine.step s (t, c) = some s' →
            (s'.threads t).stack = .dropJobs [] :: (s.threads t).stack) ∧
      ∀ j ls s', s.HelperHas r j → poolMachine.run s ls = some s' → ¬ s'.HelperHas r j →
        ∃ before after s₁, ls = before ++ after ∧ poolMachine.run s before = some s₁ ∧
          s₁.HandsOver r j := by
  obtain ⟨b, hb, hok⟩ := helperOk hs
  have hinbox := helper_inbox_empty hs r
  have hidle : (∀ u, ¬ s.SearchesFor r u) → (s.mem.queues.deque (.helper r)).unclaimed = [] := by
    intro hnobody
    rw [← hb.list]
    exact (hok r).empty.resolve_right fun ⟨u, hu⟩ => hnobody u hu
  refine ⟨hinbox, fun t above j pc f below p hstack hf => ?_, fun t p result rest hstack => ?_,
    fun j ls s' hhas hrun hend => ?_⟩
  · exact hidle fun u => not_searching_of_task hs hstack hf
  · have hnobody : ∀ u, ¬ s.SearchesFor r u := by
      rintro u ⟨g, gs, q, hg, hw⟩
      exact no_helper hs hstack (f := g) (by rw [hg]; exact List.mem_cons_self) hw
    have hempty := hidle hnobody
    refine ⟨hempty, fun j hj => ?_, fun c s' hstep => ?_⟩
    · rcases hj with hj | ⟨u, hu, -⟩
      · rw [hempty] at hj
        cases hj
      · exact hnobody u hu
    · exact step_dropHelper hs hempty hinbox hstack hstep
  · by_cases hover : s'.HandsOver r j
    · exact ⟨ls, [], s', by simp, hrun, hover⟩
    · refine Machine.run_leaves
        (J := fun s => poolMachine.Reachable s ∧ (s.HelperHas r j ∨ s.HandsOver r j))
        (fun s l s' _ ⟨hs, hj⟩ hstep => ?_) ⟨hs, .inl hhas⟩ hrun (by tauto)
      rcases hj with hj | hj
      · exact .inl ⟨.step hs trivial hstep, helperHas_step hs hj hstep⟩
      · exact .inr hj

/-- While a scope is open on the host's seat, a second thread opens one, spawns a job in
it and looks for work with its helper, until the job lies in the helper's deque. -/
def refilledHelper : List (Tid × Choice) :=
  hostedScope ++ [(.ext 1, .user (.scope 1))] ++ List.replicate 3 (.ext 1, .go) ++
    [(.ext 1, .user (.spawn 1))] ++ List.replicate 15 (.ext 1, .go) ++
    [(.ext 1, .user .finish)] ++ List.replicate 23 (.ext 1, .go)

/-- The helper pops the job. -/
def poppedByHelper : List (Tid × Choice) :=
  List.replicate 7 (.ext 1, .go)

/-- The job goes from the helper's deque to {lit}`run_task`. -/
theorem refilled_helper_hands_over :
    let s := poolMachine.after poolStart refilledHelper
    (s.mem.queues.deque (.helper 1)).unclaimed = [0] ∧
      ∃ before after s₁, poppedByHelper = before ++ after ∧ poolMachine.run s before = some s₁ ∧
        s₁.HandsOver 1 0 := by
  have hrun : (poolMachine.run poolStart refilledHelper).isSome := by decide +kernel
  have hrun' : (poolMachine.run poolStart (refilledHelper ++ poppedByHelper)).isSome := by
    decide +kernel
  have hdeque : ((poolMachine.after poolStart refilledHelper).mem.queues.deque
      (.helper 1)).unclaimed = [0] := by
    decide +kernel
  have hempty : ((poolMachine.after poolStart (refilledHelper ++ poppedByHelper)).mem.queues.deque
      (.helper 1)).unclaimed = [] := by
    decide +kernel
  have hstack : ((poolMachine.after poolStart (refilledHelper ++ poppedByHelper)).threads
      (.ext 1)).stack = [] ++ .task 0 .start :: .pop (.helper 1 1) .running ::
        (((poolMachine.after poolStart (refilledHelper ++ poppedByHelper)).threads
          (.ext 1)).stack.drop 2) := by
    decide +kernel
  have hs := Machine.Reachable.run (.init poolStart_init) (Machine.run_after hrun)
  have hs' := Machine.Reachable.run (.init poolStart_init) (Machine.run_after hrun')
  refine ⟨hdeque, (helper_leaves_nothing_behind hs 1).2.2.2 0 poppedByHelper _ ?_
    (Machine.run_after_append hrun') ?_⟩
  · exact .inl (by rw [hdeque]; exact List.mem_singleton_self 0)
  · rintro (hj | ⟨u, hu, -⟩)
    · rw [hempty] at hj
      cases hj
    · exact not_searching_of_task hs' hstack rfl hu

end XynokConcurrency
