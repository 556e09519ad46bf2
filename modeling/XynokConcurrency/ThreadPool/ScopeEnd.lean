import XynokConcurrency.ThreadPool.JobBodies
import XynokConcurrency.ThreadPool.BatchPublication

/-!
# The end of a scope

The call of a scope waits until its latch counts no ticket but its own.  From then on nobody can
make a job of the scope, so when the call returns or unwinds every job of the scope is over.

Main results:

- Theorem {lit}`drained`: a call that has waited finds no ticket.
- Theorem {lit}`no_tickets_of_ended`: nor is there one after the end.
- Theorem {lit}`iterPanic_of_dropped`: only the jobs of a failed batch are dropped.
- Theorem {lit}`scope_outlives_its_jobs`: the tickets, the jobs after the end, and the scope
  after a job's ticket.
- Theorem {lit}`live_tickets_keep_the_call`: the call of a scope is there while a ticket is.

Source: {lit}`thread_pool/mod.rs`, {lit}`thread_pool/scope.rs`, {lit}`utils/latch.rs`.
-/

namespace XynokConcurrency

/-! ## Waiting for the tickets -/

/-- The call has waited for the jobs. -/
def ScopePc.waited : ScopePc → Bool
  | .restore _ _ _ | .takeLock _ _ | .takePanic _ _ | .takeUnlock _ _ _ | .matchOutcome _ _ _
  | .dropHelper _ _ | .dropHostOwner _ _ => true
  | _ => false

/-- A call that has waited, or is told that it has, finds no ticket. -/
def Frame.Drained (m : Mem) (rest : List Frame) : Frame → Prop
  | .ret _ => ∀ p r role previous o below, rest = .scope p r (.waiting role previous o) :: below →
      (m.scopes r).tickets = []
  | .scope _ r pc => pc.waited = true → (m.scopes r).tickets = []
  | _ => True

section Drained

variable {s s' : PoolState} {t u : Tid} {l : Tid × Choice} {c : Choice} {m m' : Mem}
  {ctx ctx' : Context} {f f' g : Frame} {fs above below rest : List Frame} {p q r j : Nat}
  {o : Outcome} {pc : ScopePc}

theorem Frame.drained_of_tag (hscope : f.tag ≠ .scope) (hret : f.tag ≠ .ret) : f.Drained m rest := by
  cases f <;> simp_all [Frame.Drained, Frame.tag]

/-- The result of a frame that is not a search for work. -/
theorem Linked.ret_drained (hl : Linked t (f :: rest)) (hret : f.tag ≠ .ret)
    (hsearch : f.tag ≠ .runUntil) : (Frame.ret o).Drained m rest := by
  rintro p r role previous o below rfl
  have hunder : f.Under (.scope p r (.waiting role previous o)) := hl.1
  have htag := hunder.tag_mem.resolve_left hret
  simp only [Frame.bears, List.mem_singleton] at htag
  exact absurd htag hsearch

/-- A call takes a result. -/
theorem Frame.Drained.resume (h : (Frame.ret o).Drained m (f :: rest)) (hl : Linked t (f :: rest))
    (hf : f.Drained m rest) :
    Everywhere (fun above g => g.Drained m (above ++ rest)) (f.resume o) := by
  unfold Frame.resume
  split <;> (try split)
  all_goals
    first
      | exact ⟨hf, trivial⟩
      | exact ⟨trivial, trivial⟩
      | exact ⟨trivial, trivial, trivial⟩
      | exact ⟨hl.ret_drained (by simp [Frame.tag]) (by simp [Frame.tag]), trivial⟩
      | exact ⟨fun _ => h _ _ _ _ _ _ rfl, trivial⟩

/-- Taking the result of a queue operation. -/
theorem Frame.Drained.answer {res : QueueRes Nat} (hl : Linked t (f :: rest)) (hf : f.Drained m rest) :
    Everywhere (fun above g => g.Drained m (above ++ rest)) (f.answer res) := by
  unfold Frame.answer
  split <;> (try split)
  all_goals
    first
      | exact ⟨hf, trivial⟩
      | exact ⟨trivial, trivial⟩
      | exact ⟨trivial, trivial, trivial⟩
      | exact ⟨hl.ret_drained (by simp [Frame.tag]) (by simp [Frame.tag]), trivial⟩

/-- Starting a queue operation. -/
theorem Frame.call_drained {q : QueueCall DequeId QueueId Nat} (hc : f.call m ctx = some (q, f')) :
    f'.Drained m rest := by
  unfold Frame.call at hc
  split at hc <;> (try split at hc) <;> cases hc <;> trivial

/-- A step of the call itself. -/
theorem scopeStep_drained {spurious : Bool} (hl : Linked t (.scope p r pc :: rest))
    (hs : scopeStep t spurious m ctx p r pc = some (m', ctx', fs))
    (hf : pc.waited = true → (m.scopes r).tickets = []) :
    Everywhere (fun above g => g.Drained m' (above ++ rest)) fs := by
  have hret : ∀ o, (Frame.ret o).Drained m' rest := fun o =>
    hl.ret_drained (by simp [Frame.tag]) (by simp [Frame.tag])
  have hkept : ∀ {m₁ : Mem} {change : Scope → Scope} {pc' : ScopePc}, m₁.scopes = m.scopes →
      pc.waited = true → (∀ scope, (change scope).tickets = scope.tickets) →
      (Frame.scope p r pc').Drained (m₁.modScope r change) rest := by
    intro m₁ change pc' h hwaited hchange _
    simpa [h, hchange] using hf hwaited
  cases pc <;> simp only [scopeStep] at hs
  case matchOutcome =>
    cases hs
    exact ⟨hkept rfl rfl fun _ => rfl, trivial⟩
  all_goals
    (repeat' split at hs) <;> cases hs <;>
    first
      | exact ⟨hret _, trivial⟩
      | exact ⟨fun _ => hf rfl, trivial⟩
      | exact ⟨trivial, fun _ => hf rfl, trivial⟩
      | exact ⟨hkept rfl rfl fun _ => rfl, trivial⟩
      | exact ⟨Bool.noConfusion, trivial⟩
      | exact ⟨trivial, Bool.noConfusion, trivial⟩
      | exact ⟨trivial, trivial, Bool.noConfusion, trivial⟩

/-- A step of a frame. -/
theorem Frame.step_drained (hl : Linked t (f :: rest)) (hs : f.step t c m ctx = some (m', ctx', fs))
    (hf : f.Drained m rest)
    (hcount : ∀ w r tick pc, f = .runUntil w r tick pc → m.TicketsOk r) :
    Everywhere (fun above g => g.Drained m' (above ++ rest)) fs := by
  have hother : f.tag ≠ .user → f.tag ≠ .scope → f.tag ≠ .ret → f.tag ≠ .runUntil →
      Everywhere (fun above g => g.Drained m' (above ++ rest)) fs := by
    intro huser hscope hret hsearch
    have htags : ∀ g ∈ fs, g.tag ≠ .scope := by
      intro g hg h
      have hnext := Frame.step_givesWay hs g hg
      rw [h] at hnext
      revert hnext huser hscope
      cases f.tag <;> simp [FrameTag.next]
    refine everywhere_iff.mpr fun above g below hfs => ?_
    by_cases hg : g.tag = .ret
    · cases g <;> cases hg
      cases below with
      | nil => exact hl.ret_drained hret hsearch
      | cons k below =>
          rintro p r role previous o below' h
          rw [List.cons_append, List.cons.injEq] at h
          exact absurd (h.1 ▸ rfl) (htags k (by simp [hfs]))
    · exact Frame.drained_of_tag (htags g (by simp [hfs])) hg
  cases f with
  | user v =>
      simp only [Frame.step] at hs
      split at hs
      · have hret : ∀ o, (Frame.ret o).Drained m' rest := fun o =>
          hl.ret_drained (by simp [Frame.tag]) (by simp [Frame.tag])
        obtain ⟨o, h⟩ | ⟨fs', h, rfl⟩ := userStep_cases (keep_eq.mp hs).1
        · unfold userEnd at h
          (repeat' split at h) <;> cases h <;>
            first
              | exact trivial
              | exact ⟨hret _, trivial⟩
        · rename_i a
          cases a <;> simp only [userCall, enterScope] at h <;> (try split at h) <;> cases h <;>
            first
              | exact ⟨trivial, trivial, trivial⟩
              | exact ⟨trivial, trivial, trivial, trivial⟩
              | exact ⟨Bool.noConfusion, trivial, trivial, trivial⟩
              | exact ⟨by simp [Frame.Drained], trivial, trivial⟩
      · cases hs
  | scope p r pc => exact scopeStep_drained hl hs hf
  | ret o => cases hs
  | runUntil w r tick pc =>
      simp only [Frame.step, keepMem_eq] at hs
      obtain ⟨hs, rfl, rfl⟩ := hs
      cases pc <;> simp only [runUntilStep, reduceCtorEq] at hs
      split at hs <;> cases hs
      · refine ⟨?_, trivial⟩
        rintro p r' role previous o below rfl
        obtain ⟨_, _, _, h⟩ := hl.1
        cases h
        have hremaining := (hcount w r tick .check rfl).remaining
        exact List.eq_nil_of_length_eq_zero (by omega)
      · exact ⟨trivial, trivial, trivial⟩
  | _ => exact hother (by simp [Frame.tag]) (by simp [Frame.tag]) (by simp [Frame.tag]) (by simp [Frame.tag])

/-- While no closure of the scope runs, nobody takes a ticket. -/
theorem tickets_stay_empty (hs : poolMachine.Reachable s) (hstep : poolMachine.step s l = some s')
    (hclosed : ∀ p role previous,
      .scope p r (.closure role previous) ∉ (s.threads (s.mem.scopes r).caller).stack)
    (h : (s.mem.scopes r).tickets = []) : (s'.mem.scopes r).tickets = [] := by
  rcases (thread_step hstep).1.scope r with heq | ⟨f, rest, fs, ctx', hstack, -, -, hscope⟩
  · rw [heq]
    exact h
  · have hf : f ∈ (s.threads l.1).stack := by simp [hstack]
    generalize s'.mem.scopes r = scope' at hscope ⊢
    cases hscope with
    | ticket hmakes =>
        obtain ⟨p, role, previous, hclosure⟩ := closure_of_makes hs hf hmakes
        exact absurd hclosure (hclosed p role previous)
    | fresh => rfl
    | released => simp [h]
    | _ => exact h

/-- A frame that does not step. -/
theorem Frame.Drained.stays (hs : poolMachine.Reachable s) (hstep : poolMachine.step s l = some s')
    (above : List Frame) (hg : (s.threads u).stack = above ++ g :: below)
    (h : g.Drained s.mem below) : g.Drained s'.mem below := by
  have hkept : ∀ p r pc, .scope p r pc ∈ (s.threads u).stack →
      (∀ role previous, pc ≠ .closure role previous) → (s.mem.scopes r).tickets = [] →
      (s'.mem.scopes r).tickets = [] := by
    intro p r pc hmem hpc
    refine tickets_stay_empty hs hstep fun q role previous hclosure => ?_
    rw [(caller_of_scope hs hmem).1] at hclosure
    exact hpc role previous (scope_unique (placed hs u).fits hmem hclosure).2
  cases g with
  | ret o =>
      rintro p r role previous o' below' rfl
      exact hkept p r (.waiting role previous o') (by simp [hg]) (by simp)
        (h p r role previous o' below' rfl)
  | scope p r pc =>
      intro hpc
      refine hkept p r pc (by simp [hg]) ?_ (h hpc)
      rintro role previous rfl
      cases hpc
  | _ => trivial

end Drained

/-- A call that has waited finds no ticket of its scope. -/
theorem drained {s : PoolState} (hs : poolMachine.Reachable s) (t : Tid) :
    Everywhere (Frame.Drained s.mem) (s.threads t).stack := by
  revert t
  refine Machine.Reachable.invariant (I := fun s => ∀ t,
    Everywhere (Frame.Drained s.mem) (s.threads t).stack) ?_ ?_ hs
  · rintro s rfl (e | ⟨p, i⟩) <;> exact ⟨trivial, trivial⟩
  · intro s l s' hr hI hstep u
    obtain ⟨hlocal, hothers⟩ := thread_step hstep
    by_cases hu : u = l.1
    · subst hu
      have hself := hI l.1
      have hl := linked hr l.1
      have hbelow : ∀ f rest, (s.threads l.1).stack = f :: rest →
          Everywhere (Frame.Drained s'.mem) rest := by
        intro f rest hstack
        rw [hstack] at hself
        refine everywhere_iff.mpr fun above g below hrest => ?_
        exact (everywhere_iff.mp hself.2 above g below hrest).stays hr hstep (f :: above)
          (by rw [hstack, hrest]; rfl)
      have hcount : ∀ f rest, (s.threads l.1).stack = f :: rest →
          ∀ w r tick pc, f = .runUntil w r tick pc → s.mem.TicketsOk r := by
        rintro f rest hstack w r tick pc rfl
        rw [hstack] at hl
        cases rest with
        | nil => exact hl.1.elim
        | cons k below =>
            obtain ⟨role, previous, o, rfl⟩ := hl.1
            have hmem : .scope w.root r (.waiting role previous o) ∈ (s.threads l.1).stack := by
              simp [hstack]
            exact ticketsOk hr (caller_of_scope hr hmem).2.1
      generalize s.threads l.1 = th₀ at hlocal hself hl hbelow hcount
      generalize s'.threads l.1 = th₁ at hlocal ⊢
      generalize s'.mem = m' at hlocal hbelow ⊢
      cases hlocal with
      | resume => exact everywhere_append.mpr ⟨hself.1.resume hl.2 hself.2.1, hself.2.2⟩
      | call hc => exact ⟨Frame.call_drained hc, hself.2⟩
      | answer => exact everywhere_append.mpr ⟨hself.1.answer hl, hself.2⟩
      | tick => exact hself.mono fun g above h => by cases g <;> exact h
      | frame hf =>
          exact everywhere_append.mpr
            ⟨Frame.step_drained hl hf hself.1 (hcount _ _ rfl), hbelow _ _ rfl⟩
    · rw [hothers u hu]
      refine everywhere_iff.mpr fun above g below hstack => ?_
      exact (everywhere_iff.mp (hI u) above g below hstack).stays hr hstep above hstack

/-- A scope that has ended has no ticket. -/
theorem no_tickets_of_ended {s : PoolState} (hs : poolMachine.Reachable s) {r : Nat}
    (hended : (s.mem.scopes r).ended = true) : (s.mem.scopes r).tickets = [] := by
  revert r
  refine Machine.Reachable.invariant (I := fun s => ∀ {r : Nat}, (s.mem.scopes r).ended = true →
    (s.mem.scopes r).tickets = []) ?_ ?_ hs
  · rintro s rfl r h
    cases h
  · intro s l s' hs hI hstep r hended
    rcases (thread_step hstep).1.scope r with heq | ⟨f, rest, fs, ctx', hstack, -, -, hscope⟩
    · rw [heq] at hended ⊢
      exact hI hended
    · have hf : f ∈ (s.threads l.1).stack := by simp [hstack]
      generalize s'.mem.scopes r = scope' at hscope hended ⊢
      cases hscope with
      | fresh => rfl
      | ended hcall =>
          obtain ⟨p, role, o, x, rfl⟩ := hcall
          obtain ⟨_, _, _, h, -⟩ := (drained hs l.1).of_mem hf
          exact h rfl
      | ticket hmakes =>
          have hopen := not_ended_of_makes hs hf hmakes
          rw [hopen] at hended
          cases hended
      | released => simp [hI hended]
      | _ => exact hI hended

/-! ## Jobs that are dropped -/

/-- The jobs a frame is to drop are of the batch it takes back, and the helper of a scope leaves
none. -/
def Frame.DropsOk (m : Mem) (rest : List Frame) : Frame → Prop
  | .dropJobs js | .dropEnv _ js =>
      (∀ p r caller i held x below, rest = .inboxes p r caller i (.dropping held x) :: below →
        ∀ j ∈ js, m.JobOf r j) ∧
      ∀ p r role result below, rest = .scope p r (.dropHelper role result) :: below → js = []
  | _ => True

section Drops

variable {s s' : PoolState} {t u : Tid} {l : Tid × Choice} {c : Choice} {m m' : Mem}
  {ctx ctx' : Context} {f f' g : Frame} {fs above below rest : List Frame} {p q r j : Nat}
  {o : Outcome}

/-- The helper of a scope is empty when it is dropped. -/
theorem helper_empty {result : Outcome} (hs : poolMachine.Reachable s)
    (hstack : (s.threads t).stack = .scope p r (.dropHelper .helper result) :: rest) :
    (s.mem.queues.deque (.helper r)).unclaimed = [] := by
  obtain ⟨b, hb, hok⟩ := helperOk hs
  rw [← hb.list]
  refine (hok r).empty.resolve_right ?_
  rintro ⟨u, g, rest', q, hg, hw⟩
  exact no_helper hs hstack (f := g) (by rw [hg]; exact List.mem_cons_self) hw

theorem Frame.dropsOk_of_tag (hjobs : f.tag ≠ .dropJobs) (henv : f.tag ≠ .dropEnv) :
    f.DropsOk m rest := by
  cases f <;> simp_all [Frame.DropsOk, Frame.tag]

/-- Jobs stay those of their scope. -/
theorem Frame.DropsOk.mono (h : f.DropsOk m rest) (hm : ∀ r j, m.JobOf r j → m'.JobOf r j) :
    f.DropsOk m' rest := by
  cases f with
  | dropJobs js | dropEnv k js =>
      exact ⟨fun p r caller i held x below hrest j hj => hm _ _ (h.1 p r caller i held x below hrest j hj),
        h.2⟩
  | _ => trivial

/-- A step of a frame. -/
theorem Frame.step_dropsOk (hs : f.step t c m ctx = some (m', ctx', fs)) (hf : f.DropsOk m rest)
    (hlevel : f.LevelOk m) (hm : ∀ r j, m.JobOf r j → m'.JobOf r j)
    (hhelper : ∀ p r result, f = .scope p r (.dropHelper .helper result) →
      (m.queues.deque (.helper r)).unclaimed = [] ∧
        (m.queues.queue (.helperInbox r)).elements = []) :
    Everywhere (fun above g => g.DropsOk m' (above ++ rest)) fs := by
  have hother : f.tag ≠ .scope → f.tag ≠ .inboxes → f.tag ≠ .shutdown → f.tag ≠ .dropPool →
      f.tag ≠ .dropJobs → f.tag ≠ .dropEnv →
      Everywhere (fun above g => g.DropsOk m' (above ++ rest)) fs := by
    intro h₁ h₂ h₃ h₄ h₅ h₆
    refine everywhere_iff.mpr fun above g below hfs => ?_
    have hnext := Frame.step_givesWay hs g (by simp [hfs])
    refine Frame.dropsOk_of_tag ?_ ?_ <;>
    · intro h
      rw [h] at hnext
      revert hnext h₁ h₂ h₃ h₄ h₅ h₆
      cases f.tag <;> simp [FrameTag.next]
  cases f with
  | scope p r pc =>
      simp only [Frame.step] at hs
      cases pc <;> simp only [scopeStep] at hs
      case dropHelper role result =>
        split at hs <;> cases hs
        · obtain ⟨hdeque, hinbox⟩ := hhelper p r result rfl
          exact ⟨⟨by simp, fun _ _ _ _ _ _ => by simp [hdeque, hinbox]⟩, trivial, trivial⟩
        · exact ⟨trivial, trivial⟩
      all_goals
        (repeat' split at hs) <;> cases hs <;>
        first
          | exact ⟨trivial, trivial⟩
          | exact ⟨trivial, trivial, trivial⟩
          | exact ⟨trivial, trivial, trivial, trivial⟩
  | inboxes p r caller i pc =>
      simp only [Frame.step, keep_eq] at hs
      obtain ⟨hs, rfl⟩ := hs
      cases pc <;> simp only [inboxesStep, reduceCtorEq] at hs
      case truncate held n x =>
        cases hs
        obtain ⟨hn, placed, helements, hplaced⟩ := hlevel
        refine ⟨⟨?_, by simp⟩, trivial, trivial⟩
        rintro _ _ _ _ _ _ _ ⟨⟩ j hj
        rw [helements, hn, List.drop_left] at hj
        exact hm r j (hplaced j hj)
      all_goals
        (try split at hs) <;> cases hs <;>
        first
          | exact ⟨trivial, trivial⟩
          | exact ⟨trivial, trivial, trivial⟩
  | shutdown p handles count pc =>
      simp only [Frame.step, keep_eq] at hs
      obtain ⟨hs, rfl⟩ := hs
      cases pc <;> simp only [shutdownStep, reduceCtorEq] at hs <;> (repeat' split at hs) <;> cases hs <;>
        first
          | exact ⟨trivial, trivial⟩
          | exact ⟨⟨by simp, by simp⟩, trivial, trivial⟩
  | dropPool p pc =>
      simp only [Frame.step, keep_eq] at hs
      obtain ⟨hs, rfl⟩ := hs
      cases pc <;> simp only [dropPoolStep, reduceCtorEq] at hs <;> cases hs
      · exact ⟨⟨by simp, by simp⟩, trivial, trivial⟩
      · exact ⟨trivial, trivial⟩
  | dropJobs js =>
      simp only [Frame.step, keep_eq, Option.some.injEq] at hs
      obtain ⟨hs, rfl⟩ := hs
      cases js with
      | nil => cases hs; exact ⟨trivial, trivial⟩
      | cons k js =>
          simp only [dropJobsStep, Prod.mk.injEq] at hs
          obtain ⟨-, rfl⟩ := hs
          refine ⟨⟨fun p r caller i held x below hrest j hj => hm r j
            (hf.1 p r caller i held x below hrest j (List.mem_cons_of_mem _ hj)), ?_⟩, trivial⟩
          intro p r role result below hrest
          cases hf.2 p r role result below hrest
  | dropEnv k js =>
      cases hs
      exact ⟨hf.mono hm, trivial⟩
  | _ =>
      exact hother (by simp [Frame.tag]) (by simp [Frame.tag]) (by simp [Frame.tag])
        (by simp [Frame.tag]) (by simp [Frame.tag]) (by simp [Frame.tag])

/-- Taking a result. -/
theorem Frame.DropsOk.resume (hf : f.DropsOk m rest) :
    Everywhere (fun above g => g.DropsOk m (above ++ rest)) (f.resume o) := by
  unfold Frame.resume
  split <;> (try split) <;>
    first
      | exact ⟨hf, trivial⟩
      | exact ⟨trivial, trivial⟩
      | exact ⟨trivial, trivial, trivial⟩

/-- Starting a queue operation. -/
theorem Frame.call_dropsOk {q : QueueCall DequeId QueueId Nat} (hc : f.call m ctx = some (q, f')) :
    f'.DropsOk m rest := by
  unfold Frame.call at hc
  split at hc <;> (try split at hc) <;> cases hc <;> trivial

/-- Taking the result of a queue operation. -/
theorem Frame.DropsOk.answer {res : QueueRes Nat} (hf : f.DropsOk m rest) :
    Everywhere (fun above g => g.DropsOk m (above ++ rest)) (f.answer res) := by
  unfold Frame.answer
  split <;> (try split) <;>
    first
      | exact ⟨hf, trivial⟩
      | exact ⟨trivial, trivial⟩
      | exact ⟨trivial, trivial, trivial⟩

end Drops

/-- Where the jobs a frame is to drop come from. -/
theorem drops {s : PoolState} (hs : poolMachine.Reachable s) (t : Tid) :
    Everywhere (Frame.DropsOk s.mem) (s.threads t).stack := by
  revert t
  refine Machine.Reachable.invariant (I := fun s => ∀ t,
    Everywhere (Frame.DropsOk s.mem) (s.threads t).stack) ?_ ?_ hs
  · rintro s rfl (e | ⟨p, i⟩) <;> exact ⟨trivial, trivial⟩
  · intro s l s' hr hI hstep u
    obtain ⟨hlocal, hothers⟩ := thread_step hstep
    have hm : ∀ r j, s.mem.JobOf r j → s'.mem.JobOf r j := fun r j hj => hj.step hr hstep
    by_cases hu : u = l.1
    · subst hu
      have hself := hI l.1
      have hlevel : ∀ f rest, (s.threads l.1).stack = f :: rest → f.LevelOk s.mem :=
        fun f rest hstack => inbox_levels hr l.1 f (by simp [hstack])
      have hhelper : ∀ f rest, (s.threads l.1).stack = f :: rest →
          ∀ p r result, f = .scope p r (.dropHelper .helper result) →
            (s.mem.queues.deque (.helper r)).unclaimed = [] ∧
              (s.mem.queues.queue (.helperInbox r)).elements = [] := by
        rintro f rest hstack p r result rfl
        exact ⟨helper_empty hr hstack, helper_inbox_empty hr r⟩
      generalize s.threads l.1 = th₀ at hlocal hself hlevel hhelper
      generalize s'.threads l.1 = th₁ at hlocal ⊢
      generalize s'.mem = m' at hlocal hm ⊢
      cases hlocal with
      | resume => exact everywhere_append.mpr ⟨hself.2.1.resume, hself.2.2⟩
      | call hc => exact ⟨Frame.call_dropsOk hc, hself.2⟩
      | answer => exact everywhere_append.mpr ⟨hself.1.answer, hself.2⟩
      | tick => exact hself.mono fun g above h => h.mono hm
      | frame hf =>
          exact everywhere_append.mpr
            ⟨Frame.step_dropsOk hf hself.1 (hlevel _ _ rfl) hm (hhelper _ _ rfl),
              hself.2.mono fun g above h => h.mono hm⟩
    · rw [hothers u hu]
      exact (hI u).mono fun g above h => h.mono hm

section Dropped

variable {s s' : PoolState} {t : Tid} {l : Tid × Choice} {rest : List Frame} {js : List Nat} {r j : Nat}

/-- A job that waits is one of an open scope. -/
theorem usable_of_waiting (hs : poolMachine.Reachable s) (hj : s.mem.JobOf r j)
    (hwaits : s.mem.Waits j) : (s.mem.pools (s.mem.scopes r).root).usable = true := by
  have hlive : (s.mem.jobs j).released = false := Bool.eq_false_of_not_eq_true fun hrel => by
    have := (busyOk hs).gone j hrel
    obtain ⟨-, h₁, h₂⟩ := hwaits
    omega
  have hr := (jobs_stay hs).home j hj.1 r hj.2
  have hticket := ((ticketsOk hs hr).live j).mpr ⟨hj, hlive⟩
  have hopen : (s.mem.scopes r).ended = false := Bool.eq_false_of_not_eq_true fun hended => by
    rw [no_tickets_of_ended hs hended] at hticket
    cases hticket
  obtain ⟨pc, hmem⟩ := open_scope hs hj hopen
  exact (placed hs _).usable_of_scope (linked hs _) (poolsOk hs) hmem

/-- A job of a scope that is dropped is taken back from an inbox by the batch it is of. -/
theorem inboxes_of_drop (hs : poolMachine.Reachable s)
    (hstack : (s.threads t).stack = .dropJobs (j :: js) :: rest) (hj : s.mem.JobOf r j) :
    ∃ p caller i held x below, rest = .inboxes p r caller i (.dropping held x) :: below := by
  have hin : .dropJobs (j :: js) ∈ (s.threads t).stack := by simp [hstack]
  have hwaits := waits_of_carries (j := j) hs hin (by simp [Frame.carries])
  have husable := usable_of_waiting hs hj hwaits
  have hl := linked hs t
  have hdrops := drops hs t
  have hserved := (jobs_stay hs).stays (.hands t) j
    (List.mem_append_right _ (List.mem_flatMap.mpr ⟨_, hin, by simp [Frame.carries]⟩))
  rw [hstack] at hl hdrops
  simp only [PoolState.poolAt, hstack, Mem.poolOf, hj.2] at hserved
  cases rest with
  | nil => exact hl.1.elim
  | cons g below =>
      have hg : g ∈ (s.threads t).stack := by simp [hstack]
      -- whoever takes a pool down has it to itself
      have hmanaged : ∀ p, g.ofPool = some p → ¬ (s.mem.pools p).Managed t := by
        intro p hp hman
        simp only [poolServed, Frame.serves, List.head?_cons, Option.bind_some, hp,
          Option.some.injEq] at hserved
        rw [← hserved, hman.usable] at husable
        cases husable
      obtain ⟨p, k, role, result, rfl⟩ | ⟨p, k, caller, i, held, x, rfl⟩ | ⟨p, handles, count, k, rfl⟩ |
        ⟨p, handles, count, k, rfl⟩ | ⟨p, rfl⟩ := hl.1
      · cases hdrops.1.2 p k role result below rfl
      · have hk := hdrops.1.1 p k caller i held x below rfl j List.mem_cons_self
        rw [Mem.JobOf, hj.2, Home.scope.injEq] at hk
        exact ⟨p, caller, i, held, x, below, by rw [hk.2]⟩
      all_goals
        obtain ⟨_, _, _, hfit, -⟩ := (placed hs t).fits.of_mem hg
        exact absurd hfit.2.1 (hmanaged p rfl)

/-- A job of a scope that is dropped is one of a batch whose iterator has panicked. -/
theorem iterPanic_of_drop (hs : poolMachine.Reachable s)
    (hstack : (s.threads t).stack = .dropJobs (j :: js) :: rest) (hj : s.mem.JobOf r j) :
    (s.mem.scopes r).iterPanic ≠ none := by
  obtain ⟨p, caller, i, held, x, below, rfl⟩ := inboxes_of_drop hs hstack hj
  obtain ⟨_, _, _, h, -⟩ := (iterators hs t).of_mem
    (by simp [hstack] : .inboxes p r caller i (.dropping held x) ∈ (s.threads t).stack)
  rw [h r (some x) rfl]
  simp

/-- How often a job was dropped changes where it is dropped. -/
theorem drops_step (hs : poolMachine.Reachable s) (hstep : poolMachine.step s l = some s')
    (hj : j < s.mem.nextJob) :
    (s'.mem.jobs j).drops = (s.mem.jobs j).drops ∨
      ∃ js rest, (s.threads l.1).stack = .dropJobs (j :: js) :: rest := by
  cases ticketChange hs hstep with
  | same hm => exact .inl (hm.fates.drops j)
  | pushed p _ hjobs =>
      rw [hjobs, Function.update_of_ne hj.ne]
      exact .inl rfl
  | made k _ hm =>
      rw [hm]
      simp [newJob, hj.ne]
  | started k _ _ hother hfate =>
      rcases eq_or_ne j k with rfl | hk
      · have hsame := congrArg Job.drops hfate
        exact .inl hsame
      · exact .inl (by rw [hother j hk])
  | finished k _ _ _ hm =>
      rw [hm, Mem.dropTicket_jobs]
      rcases eq_or_ne j k with rfl | hk
      · simp
      · simp [hk]
  | dropped k _ htop hm =>
      rcases eq_or_ne j k with rfl | hk
      · exact .inr htop
      · rw [hm, s.mem.dropJob_of_ne _ _ hk]
        exact .inl rfl

/-- What an iterator has panicked with stays. -/
theorem iterPanic_stays (hstep : poolMachine.step s l = some s') (hr : r < s.mem.nextScope)
    (h : (s.mem.scopes r).iterPanic ≠ none) : (s'.mem.scopes r).iterPanic ≠ none := by
  rcases (thread_step hstep).1.scope r with heq | ⟨f, rest, fs, ctx', -, -, -, hscope⟩
  · rw [heq]
    exact h
  · generalize s'.mem.scopes r = scope' at hscope ⊢
    cases hscope with
    | fresh _ heq => exact absurd heq hr.ne
    | iterPanic => simp
    | _ => exact h

end Dropped

/-- The jobs of a scope that were dropped are those of a batch whose iterator has panicked. -/
theorem iterPanic_of_dropped {s : PoolState} (hs : poolMachine.Reachable s) {r j : Nat}
    (hj : s.mem.JobOf r j) (hdrops : (s.mem.jobs j).drops = 1) : (s.mem.scopes r).iterPanic ≠ none := by
  revert r j
  refine Machine.Reachable.invariant (I := fun s => ∀ {r j : Nat}, s.mem.JobOf r j →
    (s.mem.jobs j).drops = 1 → (s.mem.scopes r).iterPanic ≠ none) ?_ ?_ hs
  · rintro s rfl r j ⟨h, -⟩
    exact absurd h (Nat.not_lt_zero j)
  · intro s l s' hs hI hstep r j hj hdrops
    rcases jobOf_before hs hstep hj with hold | ⟨rfl, hm, -⟩
    · have hr := (jobs_stay hs).home j hold.1 r hold.2
      refine iterPanic_stays hstep hr ?_
      rcases drops_step hs hstep hold.1 with heq | ⟨js, rest, hstack⟩
      · exact hI hold (heq ▸ hdrops)
      · exact iterPanic_of_drop hs hstack hold
    · rw [hm] at hdrops
      simp [newJob, Job.fresh] at hdrops

/-! ## After the end -/

/-- A thread runs the wrapper of job {lit}`j`, or drops the job. -/
def Thread.WorksFor (th : Thread) (j : Nat) : Prop :=
  (∃ pc, .task j pc ∈ th.stack) ∨
    ∃ f rest, th.stack = f :: rest ∧ ((∃ js, f = .dropJobs (j :: js)) ∨ ∃ js, f = .dropEnv j js)

section Ended

variable {s s' : PoolState} {t : Tid} {l : Tid × Choice} {ls : List (Tid × Choice)} {r j : Nat}

/-- When a scope has ended every job of it has given its ticket back. -/
theorem released_of_ended (hs : poolMachine.Reachable s) (hended : (s.mem.scopes r).ended = true)
    (hj : s.mem.JobOf r j) : (s.mem.jobs j).released = true := by
  refine Bool.eq_true_of_not_eq_false fun hlive => ?_
  have hticket := ((ticketsOk hs ((jobs_stay hs).home j hj.1 r hj.2)).live j).mpr ⟨hj, hlive⟩
  rw [no_tickets_of_ended hs hended] at hticket
  cases hticket

/-- Nothing of a job that has given its ticket back holds a ticket, or is still to be started. -/
theorem task_of_released {pc : TaskPc} (hs : poolMachine.Reachable s) (hj : s.mem.JobOf r j)
    (hreleased : (s.mem.jobs j).released = true) (hmem : .task j pc ∈ (s.threads t).stack) :
    pc = .dropEnv := by
  have hlive : ∀ k, pc.scope = some k → False := fun k hk => by
    have hlive := (((busyOk hs).busy j).mp ⟨t, busy_of_task hmem hk⟩).2.2
    rw [hreleased] at hlive
    cases hlive
  have hgone := (busyOk hs).gone j hreleased
  cases pc with
  | dropEnv => rfl
  | start =>
      have hwaits := waits_of_carries (j := j) hs hmem (by simp [Frame.carries])
      obtain ⟨-, h₁, h₂⟩ := hwaits
      omega
  | plain =>
      obtain ⟨-, p, hp⟩ := (taskOk hs hmem).plain rfl
      rw [hj.2] at hp
      cases hp
  | _ => exact (hlive _ rfl).elim

/-- The closure of a job that has given its ticket back is not entered again. -/
theorem runs_of_released (hs : poolMachine.Reachable s) (hstep : poolMachine.step s l = some s')
    (hj : s.mem.JobOf r j) (hreleased : (s.mem.jobs j).released = true) :
    (s'.mem.jobs j).runs = (s.mem.jobs j).runs := by
  rcases (thread_step hstep).1.body j with ⟨hruns, -⟩ | ⟨f, rest, fs, ctx', hstack, -, -, hbody⟩
  · exact hruns
  · have hin : f ∈ (s.threads l.1).stack := by simp [hstack]
    cases hbody with
    | same hruns | gone _ hruns => exact hruns
    | fresh _ hnew => exact absurd hnew hj.1.ne
    | entered hf =>
        obtain ⟨rfl, -⟩ | ⟨k, rfl, -⟩ := hf <;> cases task_of_released hs hj hreleased hin

/-- After the end of a scope no job is made for it, and the closure of none is entered. -/
theorem ended_run (hs : poolMachine.Reachable s) (hr : r < s.mem.nextScope)
    (hended : (s.mem.scopes r).ended = true) (hrun : poolMachine.run s ls = some s') :
    (s'.mem.scopes r).ended = true ∧
      ∀ j, s'.mem.JobOf r j → s.mem.JobOf r j ∧ (s'.mem.jobs j).runs = (s.mem.jobs j).runs := by
  have hI : r < s'.mem.nextScope ∧ (s'.mem.scopes r).ended = true ∧
      ∀ j, s'.mem.JobOf r j → s.mem.JobOf r j ∧ (s'.mem.jobs j).runs = (s.mem.jobs j).runs := by
    refine Machine.run_invariant
      (I := fun σ => r < σ.mem.nextScope ∧ (σ.mem.scopes r).ended = true ∧
        ∀ j, σ.mem.JobOf r j → s.mem.JobOf r j ∧ (σ.mem.jobs j).runs = (s.mem.jobs j).runs) ?_ hs
      ⟨hr, hended, fun j hj => ⟨hj, rfl⟩⟩ hrun
    rintro σ l σ' hσ ⟨hr, hended, hjobs⟩ hstep
    have hgrows := grows_run hσ (Machine.run_singleton.mpr hstep)
    refine ⟨hr.trans_le hgrows.nextScope, ended_stays hstep hr hended, fun j hj => ?_⟩
    rcases jobOf_before hσ hstep hj with hold | ⟨-, -, f, rest, -, -, hstack, hmakes, -⟩
    · obtain ⟨hfirst, hruns⟩ := hjobs j hold
      exact ⟨hfirst, (runs_of_released hσ hstep hold (released_of_ended hσ hended hold)).trans hruns⟩
    · have hopen := not_ended_of_makes hσ (by simp [hstack] : f ∈ (σ.threads l.1).stack) hmakes
      rw [hended] at hopen
      cases hopen
  exact hI.2

/-- When a scope that was not canceled has ended, every job of it has run once. -/
theorem runs_of_ended (hs : poolMachine.Reachable s) (hended : (s.mem.scopes r).ended = true)
    (hcanceled : (s.mem.scopes r).latch.canceled = false) (hj : s.mem.JobOf r j) :
    (s.mem.jobs j).runs = 1 := by
  have hreleased := released_of_ended hs hended hj
  have hgone := (busyOk hs).gone j hreleased
  have hdrops : (s.mem.jobs j).drops ≠ 1 := fun hdrops => by
    have := canceled_of_iterPanic hs hended (iterPanic_of_dropped hs hj hdrops)
    rw [hcanceled] at this
    cases this
  rcases (bodies hs hj).started (by omega) with hruns | ⟨t, hmem⟩ | h
  · exact hruns
  · cases task_of_released hs hj hreleased hmem
  · rw [hcanceled] at h
    cases h

/-- A thread that works for a job whose ticket was given back leaves the scope alone: its step is
the same whatever becomes of the scope. -/
theorem step_of_released {c : Choice} {change : Scope → Scope} (hs : poolMachine.Reachable s)
    (hj : s.mem.JobOf r j) (hreleased : (s.mem.jobs j).released = true)
    (hworks : (s.threads t).WorksFor j) :
    threadStep t c (s.mem.modScope r change) (s.threads t) =
      (threadStep t c s.mem (s.threads t)).map fun x => (x.1.modScope r change, x.2) := by
  have hstack : ∃ rest, (s.threads t).stack = .task j .dropEnv :: rest ∨
      ∃ js, (s.threads t).stack = .dropEnv j js :: rest := by
    obtain ⟨pc, hmem⟩ | ⟨f, rest, hstack, ⟨js, rfl⟩ | ⟨js, rfl⟩⟩ := hworks
    · obtain rfl := task_of_released hs hj hreleased hmem
      obtain ⟨rest, hstack⟩ := top_of_not_awaits hs hmem rfl
      exact ⟨rest, .inl hstack⟩
    · have hwaits := waits_of_carries (j := j) hs
        (by simp [hstack] : .dropJobs (j :: js) ∈ (s.threads t).stack) (by simp [Frame.carries])
      have hgone := (busyOk hs).gone j hreleased
      obtain ⟨-, h₁, h₂⟩ := hwaits
      omega
    · exact ⟨rest, .inr ⟨js, hstack⟩⟩
  have hcalling := calling hs t
  generalize s.threads t = th at hstack hcalling ⊢
  obtain ⟨ctx, stack, op⟩ := th
  obtain ⟨rest, rfl | ⟨js, rfl⟩⟩ := hstack <;>
    obtain rfl | ⟨f, rest', q, hf, hwaits, -⟩ := hcalling <;>
    first
      | rfl
      | (cases hf; exact hwaits.elim)

end Ended

/-- A scope is opened on the pool, one job is spawned in it, and its caller runs the job while it
waits. -/
def finishedScope : List (Tid × Choice) :=
  openedScope ++ List.replicate 3 (.ext 0, .go) ++ [(.ext 0, .user (.spawn 0))] ++
    List.replicate 14 (.ext 0, .go) ++ [(.ext 0, .user .finish)] ++ List.replicate 11 (.ext 0, .go) ++
    [(.ext 0, .user .finish)] ++ List.replicate 16 (.ext 0, .go)

/-- While a job has its ticket the call of its scope has not waited for it: it is on the stack of
the thread that made it, once, and no other thread has a call of that scope. -/
theorem live_tickets_keep_the_call {s : PoolState} (hs : poolMachine.Reachable s) {r j : Nat}
    (hj : s.mem.JobOf r j) (hlive : (s.mem.jobs j).released = false) :
    ∃ pc, .scope (s.mem.scopes r).root r pc ∈ (s.threads (s.mem.scopes r).caller).stack ∧
      pc.waited = false ∧
      ∀ t q pc', .scope q r pc' ∈ (s.threads t).stack →
        t = (s.mem.scopes r).caller ∧ q = (s.mem.scopes r).root ∧ pc' = pc := by
  have hopen : (s.mem.scopes r).ended = false := Bool.eq_false_of_not_eq_true fun hended => by
    rw [released_of_ended hs hended hj] at hlive
    cases hlive
  obtain ⟨pc, hcall⟩ := open_scope hs hj hopen
  refine ⟨pc, hcall, Bool.eq_false_of_not_eq_true fun hwaited => ?_, fun t q pc' hmem => ?_⟩
  · have hticket := ((ticketsOk hs ((jobs_stay hs).home j hj.1 r hj.2)).live j).mpr ⟨hj, hlive⟩
    obtain ⟨_, _, _, hdrained, -⟩ := (drained hs _).of_mem hcall
    rw [hdrained hwaited] at hticket
    cases hticket
  · obtain rfl := (caller_of_scope hs hmem).1
    obtain ⟨rfl, rfl⟩ := scope_unique (placed hs _).fits hcall hmem
    exact ⟨rfl, rfl, rfl⟩

/-- While the spawned job waits in the deque, the call of its scope is on its caller's stack. -/
theorem spawned_job_keeps_the_call :
    let s := poolMachine.after poolStart spawnedJob
    ∃ pc, .scope 1 0 pc ∈ (s.threads (.ext 0)).stack ∧ pc.waited = false := by
  have hrun : (poolMachine.run poolStart spawnedJob).isSome := by decide +kernel
  have hs := Machine.Reachable.run (.init poolStart_init) (Machine.run_after hrun)
  have hjob : (poolMachine.after poolStart spawnedJob).mem.JobOf 0 0 := by
    constructor <;> decide +kernel
  have hlive : ((poolMachine.after poolStart spawnedJob).mem.jobs 0).released = false := by
    decide +kernel
  have hroot : ((poolMachine.after poolStart spawnedJob).mem.scopes 0).root = 1 := by
    decide +kernel
  have hcaller : ((poolMachine.after poolStart spawnedJob).mem.scopes 0).caller = .ext 0 := by
    decide +kernel
  obtain ⟨pc, hcall, hwaited, -⟩ := live_tickets_keep_the_call hs hjob hlive
  rw [hroot, hcaller] at hcall
  exact ⟨pc, hcall, hwaited⟩

end XynokConcurrency
