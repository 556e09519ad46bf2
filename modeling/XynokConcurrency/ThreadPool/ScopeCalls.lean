import XynokConcurrency.ThreadPool.BatchIterators

/-!
# The call of a scope

A scope has ended when its call has looked at the outcome, and from then on only its helper
and the host lock are given back.  Until then the call is on the stack of its caller.  A call
whose closure panicked, or whose iterator did, cancels the scope before it waits.

Main results:

- Theorem {lit}`scope_calls`: when a scope has ended, and when it is canceled.
- Theorem {lit}`open_scope`: the call of a scope that has not ended is on its caller's stack.
- Theorem {lit}`canceled_of_iterPanic`: a scope whose iterator has panicked ends canceled.

Source: {lit}`thread_pool/mod.rs`, {lit}`utils/latch.rs`.
-/

namespace XynokConcurrency

/-- The outcome is looked at. -/
def ScopePc.leaving : ScopePc → Bool
  | .dropHelper _ _ | .dropHostOwner _ _ => true
  | _ => false

/-- What the closure of the scope came to. -/
def ScopePc.outcome : ScopePc → Option Outcome
  | .runUntil _ _ o | .waiting _ _ o | .restore _ _ o | .takeLock _ o | .takePanic _ o
  | .takeUnlock _ o _ | .matchOutcome _ o _ => some o
  | _ => none

/-- A call that waits has canceled the scope if its closure panicked, and its closure panicked
if the iterator did. -/
structure ScopePc.CallOk (scope : Scope) (pc : ScopePc) : Prop where
  ended : scope.ended = true ↔ pc.leaving = true
  told : ∀ o, pc.outcome = some o → scope.iterPanic ≠ none → o.payload ≠ none
  canceled : ∀ o, pc.outcome = some o → o.payload ≠ none → scope.latch.canceled = true
  left : pc.leaving = true → scope.iterPanic ≠ none → scope.latch.canceled = true

/-- The call of a scope is in order, and is told of a panic of its iterator. -/
def Frame.CallOk (m : Mem) (rest : List Frame) : Frame → Prop
  | .ret o => ∀ p r role previous below, rest = .scope p r (.closure role previous) :: below →
      ∀ x, (m.scopes r).iterPanic = some x → o = .panic x
  | .scope _ r pc => pc.CallOk (m.scopes r)
  | _ => True

section Calls

variable {t u : Tid} {c : Choice} {m m' : Mem} {ctx ctx' : Context} {f f' g : Frame}
  {fs rest : List Frame} {p r : Nat} {o : Outcome} {pc pc' : ScopePc} {scope scope' : Scope}

theorem Frame.callOk_of_tag (hscope : f.tag ≠ .scope) (hret : f.tag ≠ .ret) : f.CallOk m rest := by
  cases f <;> simp_all [Frame.CallOk, Frame.tag]

/-- Nothing above the frame of a scope is told of its iterator, but by the closure's result. -/
theorem Frame.callOk_ret (h : ∀ p r role previous below,
    rest ≠ .scope p r (.closure role previous) :: below) : (Frame.ret o).CallOk m rest :=
  fun p r role previous below hrest => absurd hrest (h p r role previous below)

/-- The frame of a scope's closure has the closure or the batch on it. -/
theorem Linked.not_on_closure (hl : Linked t (f :: rest)) (hret : f.tag ≠ .ret)
    (huser : ∀ r, f ≠ .user (.closure r)) (hbatch : f.tag ≠ .batch) :
    ∀ p r role previous below, rest ≠ .scope p r (.closure role previous) :: below := by
  rintro p r role previous below rfl
  have hunder : f.Under (.scope p r (.closure role previous)) := hl.1
  have htag := hunder.tag_mem.resolve_left hret
  simp only [Frame.bears, List.mem_cons, List.not_mem_nil, or_false] at htag
  rcases htag with htag | htag
  · cases f <;> cases htag
    rename_i u
    cases u with
    | closure r => exact huser r rfl
    | main => exact hunder
    | body => rcases hunder with h | ⟨_, h⟩ <;> cases h
    | intoIter =>
        obtain ⟨_, h⟩ := hunder
        cases h
    | iterNext =>
        obtain ⟨_, _, _, h⟩ := hunder
        cases h
  · exact hbatch htag

/-- The result of a frame that is not on the frame of a scope's closure. -/
theorem Linked.ret_callOk (hl : Linked t (f :: rest)) (hret : f.tag ≠ .ret)
    (huser : ∀ r, f ≠ .user (.closure r)) (hbatch : f.tag ≠ .batch) : (Frame.ret o).CallOk m rest :=
  Frame.callOk_ret (hl.not_on_closure hret huser hbatch)

/-- What stands on the frame of a scope's closure is of that scope. -/
theorem Linked.closure_scope {q : Nat} {role : Role} {previous : Context} {below : List Frame}
    (hl : Linked t (f :: .scope q r (.closure role previous) :: below))
    (hf : f = .user (.closure p) ∨ ∃ q' pc, f = .batch q' p pc) : p = r := by
  rcases hf with rfl | ⟨q', pc, rfl⟩
  · obtain ⟨_, _, _, h⟩ := hl.1
    cases h
    rfl
  · obtain ⟨_, _, h⟩ := hl.1
    cases h
    rfl

/-- A call takes a result. -/
theorem Frame.CallOk.resume (h : (Frame.ret o).CallOk m (f :: rest))
    (hinformed : (Frame.ret o).Informed m (f :: rest)) (hl : Linked t (f :: rest))
    (hf : f.CallOk m rest) (hknows : f.Informed m rest) :
    Everywhere (fun above g => g.CallOk m (above ++ rest)) (f.resume o) := by
  have hbatch : ∀ {q s : Nat} {pc : BatchPc} {o' : Outcome}, f = .batch q s pc →
      (∀ x, (m.scopes s).iterPanic = some x → o' = .panic x) → (Frame.ret o').CallOk m rest := by
    rintro q s pc o' rfl ho p r role previous below rfl
    obtain rfl := hl.closure_scope (.inr ⟨q, pc, rfl⟩)
    exact ho
  have hnone : ∀ {s : Nat} {o' : Outcome}, (m.scopes s).iterPanic = none →
      ∀ x, (m.scopes s).iterPanic = some x → o' = .panic x := by
    intro s o' h x hx
    rw [h] at hx
    cases hx
  have htold : ∀ {s : Nat}, (m.scopes s).iterPanic = o.payload →
      ∀ x, (m.scopes s).iterPanic = some x → o = .panic x := by
    intro s h x hx
    rw [h] at hx
    cases o <;> cases hx
    rfl
  unfold Frame.resume
  split <;> (try split)
  case h_4 p s role previous hreturns =>
    have hiter : (m.scopes s).iterPanic = none := by
      cases hx : (m.scopes s).iterPanic with
      | none => rfl
      | some x => exact (hreturns x (h p s role previous rest rfl x hx)).elim
    refine ⟨⟨hf.ended, ?_, ?_, hf.left⟩, trivial⟩
    · rintro o' ⟨⟩ hne
      exact absurd hiter hne
    · rintro o' ⟨⟩ hne
      exact absurd rfl hne
  all_goals
    first
      | exact ⟨hf, trivial⟩
      | exact ⟨trivial, trivial⟩
      | exact ⟨trivial, trivial, trivial⟩
      | exact ⟨⟨hf.ended, hf.told, hf.canceled, hf.left⟩, trivial⟩
      | exact ⟨hbatch rfl (hnone (hknows _ none rfl)), trivial⟩
      | exact ⟨hbatch rfl (htold (hinformed.of_ret rfl)), trivial⟩
      | exact ⟨hl.ret_callOk (by simp [Frame.tag]) (by simp) (by simp [Frame.tag]), trivial⟩

/-- A step that a call does not make keeps it in order. -/
theorem Frame.CallOk.congr (h : f.CallOk m rest) (hm : m'.scopes = m.scopes) : f.CallOk m' rest := by
  cases f <;> simp only [Frame.CallOk, hm] at h ⊢ <;> exact h

/-- Starting a queue operation. -/
theorem Frame.call_callOk {q : QueueCall DequeId QueueId Nat} (hc : f.call m ctx = some (q, f')) :
    f'.CallOk m rest := by
  unfold Frame.call at hc
  split at hc <;> (try split at hc) <;> cases hc <;> trivial

/-- Taking the result of a queue operation. -/
theorem Frame.CallOk.answer {res : QueueRes Nat} (hl : Linked t (f :: rest)) (hf : f.CallOk m rest) :
    Everywhere (fun above g => g.CallOk m (above ++ rest)) (f.answer res) := by
  unfold Frame.answer
  split <;> (try split)
  all_goals
    first
      | exact ⟨hf, trivial⟩
      | exact ⟨trivial, trivial⟩
      | exact ⟨trivial, trivial, trivial⟩
      | exact ⟨hl.ret_callOk (by simp [Frame.tag]) (by simp) (by simp [Frame.tag]), trivial⟩

/-- A change of a scope that a call does not notice. -/
theorem ScopePc.CallOk.congr (h : pc.CallOk scope) (hended : scope'.ended = scope.ended)
    (hiter : scope'.iterPanic = scope.iterPanic)
    (hcanceled : scope.latch.canceled = true → scope'.latch.canceled = true) : pc.CallOk scope' :=
  ⟨hended ▸ h.ended, fun o ho hne => h.told o ho (hiter ▸ hne),
    fun o ho hne => hcanceled (h.canceled o ho hne),
    fun hl hne => hcanceled (h.left hl (hiter ▸ hne))⟩

/-- The next program point of a call that has come to the same. -/
theorem ScopePc.CallOk.next (h : pc.CallOk scope) (hleaving : pc'.leaving = pc.leaving)
    (houtcome : pc'.outcome = pc.outcome) : pc'.CallOk scope :=
  ⟨hleaving ▸ h.ended, houtcome ▸ h.told, houtcome ▸ h.canceled, hleaving ▸ h.left⟩

/-- A call that throws what its closure threw, and has canceled the scope. -/
theorem ScopePc.CallOk.thrown {x : Nat} (hended : scope.ended = false)
    (hleaving : pc.leaving = false) (houtcome : pc.outcome = some (.panic x))
    (hcanceled : scope.latch.canceled = true) : pc.CallOk scope := by
  refine ⟨by simp [hended, hleaving], ?_, fun _ _ _ => hcanceled, fun _ _ => hcanceled⟩
  intro o ho _
  rw [houtcome] at ho
  cases ho
  simp [Outcome.payload]

/-- A step of the call itself. -/
theorem scopeStep_callOk {spurious : Bool} (hl : Linked t (.scope p r pc :: rest))
    (hs : scopeStep t spurious m ctx p r pc = some (m', ctx', fs)) (hf : pc.CallOk (m.scopes r)) :
    Everywhere (fun above g => g.CallOk m' (above ++ rest)) fs := by
  have hret : ∀ o, (Frame.ret o).CallOk m' rest := fun o =>
    hl.ret_callOk (by simp [Frame.tag]) (by simp) (by simp [Frame.tag])
  have hscope : ∀ {m₁ : Mem} {change : Scope → Scope}, m₁.scopes = m.scopes →
      ((m₁.modScope r change).scopes r) = change (m.scopes r) := by
    intro m₁ change h
    simp [h]
  have hkept : ∀ {m₁ : Mem} {change : Scope → Scope} {pc' : ScopePc}, m₁.scopes = m.scopes →
      pc'.leaving = pc.leaving → pc'.outcome = pc.outcome →
      (∀ scope, (change scope).ended = scope.ended ∧ (change scope).iterPanic = scope.iterPanic ∧
        (change scope).latch = scope.latch) → pc'.CallOk ((m₁.modScope r change).scopes r) := by
    intro m₁ change pc' h hleaving houtcome hchange
    obtain ⟨he, hi, hc⟩ := hchange (m.scopes r)
    rw [hscope h]
    exact (hf.next hleaving houtcome).congr he hi fun h => hc ▸ h
  have hended : pc.leaving = false → (m.scopes r).ended = false := fun h =>
    Bool.eq_false_of_not_eq_true fun he => by
      have := hf.ended.mp he
      simp_all
  cases pc <;> simp only [scopeStep] at hs
  case cancelLoad =>
    split at hs <;> cases hs
    · exact ⟨.thrown (hended rfl) rfl rfl ‹_›, trivial⟩
    · exact ⟨hf.next rfl rfl, trivial⟩
  case cancelCas =>
    split at hs <;> cases hs
    · exact ⟨hf, trivial⟩
    · refine ⟨.thrown ?_ rfl rfl ?_, trivial⟩
      · rw [hscope rfl]
        exact hended rfl
      · rw [hscope rfl]
  case matchOutcome =>
    cases hs
    refine ⟨⟨?_, by simp [ScopePc.outcome], by simp [ScopePc.outcome], ?_⟩, trivial⟩
    · rw [hscope rfl]
      simp [ScopePc.leaving]
    · rw [hscope rfl]
      exact fun _ hne => hf.canceled _ rfl (hf.told _ rfl hne)
  all_goals
    (repeat' split at hs) <;> cases hs <;>
    first
      | exact ⟨hf.next rfl rfl, trivial⟩
      | exact ⟨trivial, hf.next rfl rfl, trivial⟩
      | exact ⟨trivial, trivial, hf.next rfl rfl, trivial⟩
      | exact ⟨hret _, trivial⟩
      | exact ⟨hkept rfl rfl rfl fun _ => ⟨rfl, rfl, rfl⟩, trivial⟩
      | exact ⟨trivial, hkept rfl rfl rfl fun _ => ⟨rfl, rfl, rfl⟩, trivial⟩

/-- A step of user code. -/
theorem userStep_callOk {v : UserCode} {a : UserAct} (hl : Linked t (.user v :: rest))
    (hs : userStep t m v a = some (m', fs)) (hknows : (Frame.user v).Informed m rest) :
    Everywhere (fun above g => g.CallOk m' (above ++ rest)) fs := by
  have hret : ∀ o, (∀ r, v ≠ .closure r) → (Frame.ret o).CallOk m' rest := fun o hv =>
    hl.ret_callOk (by simp [Frame.tag]) (fun r h => hv r (by simpa using h)) (by simp [Frame.tag])
  obtain ⟨o, h⟩ | ⟨fs', h, rfl⟩ := userStep_cases hs
  · cases v with
    | main => cases h; exact trivial
    | body j | intoIter r => cases h; exact ⟨hret o (by simp), trivial⟩
    | iterNext r =>
        unfold userEnd at h
        simp only at h
        split at h <;> cases h <;> exact ⟨hret _ (by simp), trivial⟩
    | closure r =>
        simp only [userEnd] at h
        split at h <;> cases h
        refine ⟨?_, trivial⟩
        rintro p r' role previous below rfl x hx
        obtain rfl := hl.closure_scope (.inl rfl)
        have hnone : (m.scopes r).iterPanic = none := hknows r none rfl
        simp [hnone] at hx
  · have hscope : ∀ (batch : Bool) (q : Nat), enterScope t m q batch = some (m', fs') →
        Everywhere (fun above g => g.CallOk m' (above ++ rest)) (fs' ++ [.user v]) := by
      intro batch q h
      unfold enterScope at h
      split at h <;> cases h
      refine ⟨?_, trivial, trivial, trivial⟩
      constructor <;> simp [Scope.new, ScopePc.leaving, ScopePc.outcome]
    cases a <;> simp only [userCall] at h <;> (try split at h) <;>
      first
        | exact hscope _ _ h
        | (cases h <;>
            first
              | exact ⟨trivial, trivial, trivial⟩
              | exact ⟨trivial, trivial, trivial, trivial⟩
              | exact ⟨Frame.callOk_ret (by simp), trivial, trivial⟩)

/-- A step of a frame leaves the calls it replaces itself by in order. -/
theorem Frame.step_callOk (hl : Linked t (f :: rest)) (hs : f.step t c m ctx = some (m', ctx', fs))
    (hf : f.CallOk m rest) (hknows : f.Informed m rest) :
    Everywhere (fun above g => g.CallOk m' (above ++ rest)) fs := by
  have hother : f.tag ≠ .user → f.tag ≠ .scope → f.tag ≠ .ret → f.tag ≠ .batch →
      Everywhere (fun above g => g.CallOk m' (above ++ rest)) fs := by
    intro huser hscope hret hbatch
    have htags : ∀ g ∈ fs, g.tag ≠ .scope := by
      intro g hg h
      have hnext := Frame.step_givesWay hs g hg
      rw [h] at hnext
      revert hnext huser hscope
      cases f.tag <;> simp [FrameTag.next]
    refine everywhere_iff.mpr fun above g below hfs => ?_
    by_cases hg : g.tag = .ret
    · cases g <;> cases hg
      cases below with
      | nil => exact hl.ret_callOk hret (by rintro r rfl; exact huser rfl) hbatch
      | cons k below =>
          refine Frame.callOk_ret ?_
          rintro p r role previous below' h
          rw [List.cons_append, List.cons.injEq] at h
          exact htags k (by simp [hfs]) (h.1 ▸ rfl)
    · exact Frame.callOk_of_tag (htags g (by simp [hfs])) hg
  cases f with
  | user v =>
      simp only [Frame.step] at hs
      split at hs
      · exact userStep_callOk hl (keep_eq.mp hs).1 hknows
      · cases hs
  | scope p r pc => exact scopeStep_callOk hl hs hf
  | ret o => cases hs
  | batch p r pc =>
      simp only [Frame.step, keepMem_eq] at hs
      obtain ⟨hs, -, -⟩ := hs
      cases pc <;> simp only [batchStep, reduceCtorEq] at hs
      cases hs
      exact ⟨trivial, trivial, trivial, trivial⟩
  | _ => exact hother (by simp [Frame.tag]) (by simp [Frame.tag]) (by simp [Frame.tag]) (by simp [Frame.tag])

end Calls

/-! ## The calls of the scopes -/

section Stays

variable {s s' : PoolState} {l : Tid × Choice} {t u : Tid} {above below rest : List Frame} {g : Frame}
  {p r : Nat} {pc : ScopePc}

/-- Who runs an iterator has opened its scope. -/
theorem caller_of_iterNext (hs : poolMachine.Reachable s)
    (hstack : (s.threads t).stack = .user (.iterNext r) :: rest) :
    (s.mem.scopes r).caller = t :=
  (caller_of_knows hs [] hstack (v := none) rfl).1

/-- Below a running iterator the call of the scope waits for its closure. -/
theorem closure_of_iterNext (hs : poolMachine.Reachable s)
    (hstack : (s.threads t).stack = .user (.iterNext r) :: rest)
    (hscope : .scope p r pc ∈ (s.threads t).stack) :
    ∃ role previous, pc = .closure role previous := by
  have hl := linked hs t
  rw [hstack] at hl
  cases rest with
  | nil => exact hl.1.elim
  | cons k below =>
      obtain ⟨q, caller, index, rfl⟩ := hl.1
      have hassign : .assign q r caller index .waiting ∈ (s.threads t).stack := by simp [hstack]
      obtain ⟨role, previous, hclosure⟩ := (linked hs t).scope_of_publishes hassign rfl
      exact ⟨role, previous, (scope_unique (placed hs t).fits hscope hclosure).2⟩

/-- The frame of a call that does not step stays in order. -/
theorem Frame.CallOk.stays (hs : poolMachine.Reachable s) (hstep : poolMachine.step s l = some s')
    (hg : (s.threads u).stack = above ++ g :: below) (hne : u ≠ l.1 ∨ above ≠ [])
    (h : g.CallOk s.mem below) : g.CallOk s'.mem below := by
  have hmem : g ∈ (s.threads u).stack := by simp [hg]
  have hlocal := (thread_step hstep).1
  revert hlocal
  generalize hthread : s.threads l.1 = th₀
  generalize s'.threads l.1 = th₁
  generalize s'.mem = m'
  intro hlocal
  cases hlocal with
  | resume | call | answer | tick => exact h.congr rfl
  | @frame ctx ctx' f rest fs m' hf =>
      have hstack : (s.threads l.1).stack = f :: rest := by rw [hthread]
      cases g with
      | ret o =>
          rintro p r role previous below' rfl x hx
          have hscope : .scope p r (.closure role previous) ∈ (s.threads u).stack := by simp [hg]
          rcases Frame.step_iterPanic hf r with heq | ⟨rfl, -⟩ | ⟨y, rfl, -⟩
          · exact h _ _ _ _ _ rfl x (heq ▸ hx)
          · exact absurd (caller_of_scope hs hscope).2.1 (lt_irrefl _)
          · have hu : u = l.1 :=
              (caller_of_scope hs hscope).1.symm.trans (caller_of_iterNext hs hstack)
            cases above with
            | nil => exact absurd rfl (hne.resolve_left (absurd hu))
            | cons k above =>
                have hwaits : (Frame.ret o).awaits := XynokConcurrency.awaits hs u _ (by simp [hg])
                cases hwaits
      | scope p r pc =>
          obtain ⟨hcaller, hr, -⟩ := caller_of_scope hs hmem
          have hok : pc.CallOk (s.mem.scopes r) := h
          have hscope := Frame.step_scope hf r
          change pc.CallOk (m'.scopes r)
          revert hscope
          generalize m'.scopes r = scope'
          intro hscope
          cases hscope with
          | fresh _ heq => exact absurd heq hr.ne
          | ended hcall =>
              obtain ⟨q, role, o, x, rfl⟩ := hcall
              have htop : .scope q r (.matchOutcome role o x) ∈ (s.threads l.1).stack := by simp [hstack]
              have hu : u = l.1 := hcaller.symm.trans (caller_of_scope hs htop).1
              subst hu
              cases above with
              | nil => exact absurd rfl (hne.resolve_left (absurd rfl))
              | cons k above =>
                  rw [hstack, List.cons_append, List.cons.injEq] at hg
                  obtain ⟨-, -, -, -, -, -, -, hunique, -⟩ := (hstack ▸ (placed hs l.1).fits).1
                  exact absurd rfl (hunique (.scope p r pc) (by simp [hg.2]))
          | iterPanic x hiter =>
              subst hiter
              have hu : u = l.1 := hcaller.symm.trans (caller_of_iterNext hs hstack)
              subst hu
              obtain ⟨role, previous, rfl⟩ := closure_of_iterNext hs hstack hmem
              exact ⟨hok.ended, by simp [ScopePc.outcome], by simp [ScopePc.outcome],
                by simp [ScopePc.leaving]⟩
          | canceled => exact hok.congr rfl rfl fun _ => rfl
          | _ => exact hok.congr rfl rfl id
      | _ => trivial

end Stays

/-- The calls of the scopes are in order. -/
theorem scope_calls {s : PoolState} (hs : poolMachine.Reachable s) (t : Tid) :
    Everywhere (Frame.CallOk s.mem) (s.threads t).stack := by
  revert t
  refine Machine.Reachable.invariant (I := fun s => ∀ t,
    Everywhere (Frame.CallOk s.mem) (s.threads t).stack) ?_ ?_ hs
  · rintro s rfl (e | ⟨p, i⟩) <;> exact ⟨trivial, trivial⟩
  · intro s l s' hr hI hstep u
    obtain ⟨hlocal, hothers⟩ := thread_step hstep
    by_cases hu : u = l.1
    · subst hu
      have hself := hI l.1
      have hl := linked hr l.1
      have hknows := iterators hr l.1
      have hbelow : ∀ f rest, (s.threads l.1).stack = f :: rest →
          Everywhere (Frame.CallOk s'.mem) rest := by
        intro f rest hstack
        rw [hstack] at hself
        refine everywhere_iff.mpr fun above g below hrest => ?_
        have hstack' : (s.threads l.1).stack = (f :: above) ++ g :: below := by
          rw [hstack, hrest]
          rfl
        exact (everywhere_iff.mp hself.2 above g below hrest).stays hr hstep hstack' (.inr (by simp))
      revert hlocal hself hl hknows hbelow
      generalize s.threads l.1 = th₀
      generalize s'.threads l.1 = th₁
      generalize s'.mem = m'
      intro hlocal hself hl hknows hbelow
      cases hlocal with
      | resume =>
          exact everywhere_append.mpr
            ⟨hself.1.resume hknows.1 hl.2 hself.2.1 hknows.2.1, hself.2.2⟩
      | call hc => exact ⟨Frame.call_callOk hc, hself.2⟩
      | answer => exact everywhere_append.mpr ⟨hself.1.answer hl, hself.2⟩
      | tick => exact hself.mono fun g above h => h.congr rfl
      | frame hf =>
          exact everywhere_append.mpr
            ⟨Frame.step_callOk hl hf hself.1 hknows.1, hbelow _ _ rfl⟩
    · rw [hothers u hu]
      refine everywhere_iff.mpr fun above g below hstack => ?_
      exact (everywhere_iff.mp (hI u) above g below hstack).stays hr hstep hstack (.inl hu)

section Open

variable {s s' : PoolState} {l : Tid × Choice} {t : Tid} {c : Choice} {m m' : Mem} {ctx ctx' : Context}
  {f : Frame} {fs : List Frame} {p q r j x : Nat} {pc : ScopePc}

/-- A call gives way to itself until it leaves. -/
theorem scopeStep_stays {spurious : Bool}
    (hs : scopeStep t spurious m ctx p r pc = some (m', ctx', fs)) :
    (∃ pc', .scope p r pc' ∈ fs) ∨ pc.leaving = true := by
  cases pc <;> simp only [scopeStep] at hs <;> (repeat' split at hs) <;> cases hs <;>
    first | exact .inr rfl | exact .inl ⟨_, by simp; rfl⟩

/-- The frame of a call stays until the call leaves. -/
theorem call_stays (hstep : poolMachine.step s l = some s')
    (hmem : .scope p r pc ∈ (s.threads t).stack) :
    (∃ pc', .scope p r pc' ∈ (s'.threads t).stack) ∨ pc.leaving = true := by
  obtain ⟨hlocal, hothers⟩ := thread_step hstep
  by_cases ht : t = l.1
  · subst ht
    generalize s.threads l.1 = th₀ at hmem hlocal
    generalize s'.threads l.1 = th₁ at hlocal ⊢
    generalize s'.mem = m' at hlocal
    cases hlocal with
    | @resume ctx o f rest =>
        rcases List.mem_cons.mp hmem with h | hmem
        · cases h
        · rcases List.mem_cons.mp hmem with rfl | hmem
          · refine .inl ?_
            cases pc <;> cases o <;> exact ⟨_, List.mem_append_left _ (by simp [Frame.resume]; rfl)⟩
          · exact .inl ⟨pc, List.mem_append_right _ hmem⟩
    | call hc =>
        rcases List.mem_cons.mp hmem with rfl | hmem
        · cases hc
        · exact .inl ⟨pc, List.mem_cons_of_mem _ hmem⟩
    | frame hf =>
        rcases List.mem_cons.mp hmem with rfl | hmem
        · exact (scopeStep_stays hf).imp_left (Exists.imp fun _ => List.mem_append_left _)
        · exact .inl ⟨pc, List.mem_append_right _ hmem⟩
    | answer =>
        rcases List.mem_cons.mp hmem with rfl | hmem
        · exact .inl ⟨pc, List.mem_append_left _ (by simp [Frame.answer])⟩
        · exact .inl ⟨pc, List.mem_append_right _ hmem⟩
    | tick => exact .inl ⟨pc, hmem⟩
  · rw [hothers t ht]
    exact .inl ⟨pc, hmem⟩

/-- A call on a stack has ended when it leaves. -/
theorem ended_iff (hs : poolMachine.Reachable s) (hmem : .scope p r pc ∈ (s.threads t).stack) :
    (s.mem.scopes r).ended = true ↔ pc.leaving = true := by
  obtain ⟨_, _, _, h, -⟩ := (scope_calls hs t).of_mem hmem
  exact ScopePc.CallOk.ended h

/-- A scope that has ended stays so. -/
theorem ended_stays (hstep : poolMachine.step s l = some s') (hr : r < s.mem.nextScope)
    (h : (s.mem.scopes r).ended = true) : (s'.mem.scopes r).ended = true := by
  rcases (thread_step hstep).1.scope r with heq | ⟨f, rest, fs, ctx', -, -, -, hscope⟩
  · rw [heq]
    exact h
  · generalize s'.mem.scopes r = scope' at hscope ⊢
    cases hscope with
    | fresh _ heq => exact absurd heq hr.ne
    | ended => rfl
    | _ => exact h

/-- Where a job of a scope is made, the call of the scope waits for its closure. -/
theorem closure_of_makes (hs : poolMachine.Reachable s) (hf : f ∈ (s.threads t).stack)
    (hmakes : f.Makes r) :
    ∃ p role previous, .scope p r (.closure role previous) ∈ (s.threads (s.mem.scopes r).caller).stack := by
  obtain ⟨g, hg, rfl | ⟨p, rfl⟩⟩ := inScope_of_makes hs hf hmakes
  · exact (linked hs _).scope_of_closure hg
  · exact ⟨p, (linked hs _).scope_of_publishes hg rfl⟩

/-- No job is made for a scope that has ended. -/
theorem not_ended_of_makes (hs : poolMachine.Reachable s) (hf : f ∈ (s.threads t).stack)
    (hmakes : f.Makes r) : (s.mem.scopes r).ended = false := by
  obtain ⟨p, role, previous, hclosure⟩ := closure_of_makes hs hf hmakes
  refine Bool.eq_false_of_not_eq_true fun hended => ?_
  cases (ended_iff hs hclosure).mp hended

/-- The call of a scope with jobs that has not ended is on its caller's stack. -/
theorem open_scope (hs : poolMachine.Reachable s) (hj : s.mem.JobOf r j)
    (hopen : (s.mem.scopes r).ended = false) :
    ∃ pc, .scope (s.mem.scopes r).root r pc ∈ (s.threads (s.mem.scopes r).caller).stack := by
  suffices h : ∃ p pc, .scope p r pc ∈ (s.threads (s.mem.scopes r).caller).stack by
    obtain ⟨p, pc, hmem⟩ := h
    exact ⟨pc, (caller_of_scope hs hmem).2.2 ▸ hmem⟩
  revert r j
  refine Machine.Reachable.invariant (I := fun s => ∀ {r j : Nat}, s.mem.JobOf r j →
    (s.mem.scopes r).ended = false →
      ∃ p pc, .scope p r pc ∈ (s.threads (s.mem.scopes r).caller).stack) ?_ ?_ hs
  · rintro s rfl r j ⟨h, -⟩
    exact absurd h (Nat.not_lt_zero j)
  · intro s l s' hs hI hstep r j hj hopen
    have hgrows := grows_run hs (Machine.run_singleton.mpr hstep)
    have hframe : ∃ p pc, .scope p r pc ∈ (s.threads (s.mem.scopes r).caller).stack ∧
        pc.leaving = false := by
      rcases jobOf_before hs hstep hj with hold | ⟨-, -, f, rest, -, -, hstack, hmakes, -⟩
      · have hr := (jobs_stay hs).home j hold.1 r hold.2
        have hbefore : (s.mem.scopes r).ended = false :=
          Bool.eq_false_of_not_eq_true fun h => by
            rw [ended_stays hstep hr h] at hopen
            cases hopen
        obtain ⟨p, pc, hmem⟩ := hI hold hbefore
        refine ⟨p, pc, hmem, Bool.eq_false_of_not_eq_true fun h => ?_⟩
        rw [(ended_iff hs hmem).mpr h] at hbefore
        cases hbefore
      · have hf : f ∈ (s.threads l.1).stack := by simp [hstack]
        obtain ⟨p, role, previous, hclosure⟩ := closure_of_makes hs hf hmakes
        exact ⟨p, _, hclosure, rfl⟩
    obtain ⟨p, pc, hmem, hleaving⟩ := hframe
    rw [(hgrows.scopes r (caller_of_scope hs hmem).2.1).2]
    rcases call_stays hstep hmem with ⟨pc', h⟩ | h
    · exact ⟨p, pc', h⟩
    · rw [hleaving] at h
      cases h

/-- A scope whose iterator has panicked ends canceled. -/
theorem canceled_of_iterPanic (hs : poolMachine.Reachable s)
    (hended : (s.mem.scopes r).ended = true) (hiter : (s.mem.scopes r).iterPanic ≠ none) :
    (s.mem.scopes r).latch.canceled = true := by
  revert r
  refine Machine.Reachable.invariant (I := fun s => ∀ {r : Nat}, (s.mem.scopes r).ended = true →
    (s.mem.scopes r).iterPanic ≠ none → (s.mem.scopes r).latch.canceled = true) ?_ ?_ hs
  · rintro s rfl r h -
    cases h
  · intro s l s' hs hI hstep r hended hiter
    rcases (thread_step hstep).1.scope r with heq | ⟨f, rest, fs, ctx', hstack, -, -, hscope⟩
    · rw [heq] at hended hiter ⊢
      exact hI hended hiter
    · have hf : f ∈ (s.threads l.1).stack := by simp [hstack]
      have hcall := scope_calls hs l.1
      rw [hstack] at hcall
      generalize s'.mem.scopes r = scope' at hscope hended hiter ⊢
      cases hscope with
      | fresh => exact absurd rfl hiter
      | ended hend =>
          obtain ⟨p, role, o, x, rfl⟩ := hend
          have hok : (ScopePc.matchOutcome role o x).CallOk (s.mem.scopes r) := hcall.1
          exact hok.canceled o rfl (hok.told o rfl hiter)
      | iterPanic x hnext =>
          -- the iterator runs inside of the call
          subst hnext
          have hassign := linked hs l.1
          rw [hstack] at hassign
          cases rest with
          | nil => exact hassign.1.elim
          | cons k below =>
              obtain ⟨q, caller, index, rfl⟩ := hassign.1
              have hmem : .assign q r caller index .waiting ∈ (s.threads l.1).stack := by simp [hstack]
              obtain ⟨role, previous, hclosure⟩ := (linked hs l.1).scope_of_publishes hmem rfl
              cases (ended_iff hs hclosure).mp hended
      | canceled => rfl
      | _ => exact hI hended hiter

end Open

end XynokConcurrency
