import XynokConcurrency.Lib.Machine

/-!
# Cancellation of a latch

The flag of a latch and the calls that set it, cut at every access.  Both
{lit}`try_cancel` and {lit}`cancel` set the flag with a weak compare-exchange, which may
fail although the flag has the value it expects; {lit}`cancel` goes round again and
{lit}`try_cancel` reports the failure.

Source: {lit}`utils/latch.rs`.

Main results:

- Theorem {lit}`Latch.spurious_loser`: a lone call may return false on a latch that nobody
  has canceled.
- Theorem {lit}`Latch.one_winner`: while no {lit}`try_cancel` fails spuriously, exactly one
  of them wins, and a call that loses has seen the flag set.
-/

namespace XynokConcurrency

/-- {lit}`Latch`. -/
structure Latch where
  remaining : Nat
  canceled : Bool

namespace Latch

/-! ## The operations -/

/-- {lit}`canceled.compare_exchange_weak`, which may fail spuriously.  A failure hands out
the value it found. -/
def compareExchangeWeak (spurious : Bool) (l : Latch) (current next : Bool) :
    Latch × Except Bool Bool :=
  if spurious = false ∧ l.canceled = current then ({ l with canceled := next }, .ok current)
  else (l, .error l.canceled)

/-- A call on the flag. -/
inductive Call
  | tryCancel
  | cancel
  | isCanceled
deriving DecidableEq

/-- What a call returns. -/
inductive Res
  | tried (won : Bool)
  | finished
  | flag (canceled : Bool)
deriving DecidableEq

/-- Program points of the calls. -/
inductive Op
  | idle
  /-- {lit}`try_cancel`: about to try its only CAS. -/
  | tryCas
  /-- {lit}`cancel`: about to load the flag. -/
  | cancelLoad
  /-- {lit}`cas_cancel`: at the head of its loop. -/
  | casCancel (current next : Bool)
  /-- {lit}`is_canceled`. -/
  | flagLoad
  | done (r : Res)
deriving DecidableEq

/-- First program point of a call. -/
def Op.start : Call → Op
  | .tryCancel => .tryCas
  | .cancel => .cancelLoad
  | .isCanceled => .flagLoad

/-- One access of a call. -/
def tick (spurious : Bool) (l : Latch) : Op → Option (Latch × Op)
  | .tryCas =>
      match l.compareExchangeWeak spurious false true with
      | (l', .ok _) => some (l', .done (.tried true))
      | (l', .error _) => some (l', .done (.tried false))
  | .cancelLoad => some (l, if l.canceled then .done .finished else .casCancel false true)
  | .casCancel current next =>
      match l.compareExchangeWeak spurious current next with
      | (l', .ok _) => some (l', .done .finished)
      | (l', .error r) => some (l', if r = next then .done .finished else .casCancel r next)
  | .flagLoad => some (l, .done (.flag l.canceled))
  | .idle | .done _ => none

/-- What a thread does next. -/
inductive Choice
  | call (c : Call)
  | tick (spurious : Bool)
  | ret (r : Res)
deriving DecidableEq

/-- One step of a thread. -/
def step {τ : Type} (_ : τ) (ch : Choice) (l : Latch) (o : Op) : Option (Latch × Op) :=
  match ch, o with
  | .call c, .idle => some (l, .start c)
  | .tick spurious, o => l.tick spurious o
  | .ret r, .done r' => if r = r' then some (l, .idle) else none
  | _, _ => none

section Runs

variable {τ : Type} [DecidableEq τ]

/-- Any number of threads calling a latch nobody has canceled yet. -/
def machine (τ : Type) [DecidableEq τ] : Machine (Machine.Shared τ Latch Op) (τ × Choice) :=
  Machine.ofThreads (fun s => s.mem.canceled = false ∧ ∀ t, s.threads t = .idle) step

/-- The step is a {lit}`try_cancel` whose CAS fails although the flag is still false. -/
def FailsSpuriously (s : Machine.Shared τ Latch Op) (l : τ × Choice) : Prop :=
  s.threads l.1 = .tryCas ∧ l.2 = .tick true ∧ s.mem.canceled = false

instance (s : Machine.Shared τ Latch Op) (l : τ × Choice) : Decidable (FailsSpuriously s l) :=
  inferInstanceAs (Decidable (_ ∧ _ ∧ _))

/-- The latch while no {lit}`try_cancel` fails spuriously. -/
def faithful (τ : Type) [DecidableEq τ] : Machine (Machine.Shared τ Latch Op) (τ × Choice) :=
  (machine τ).restrict fun s l => ¬ FailsSpuriously s l

/-- Number of calls of a run that returned true. -/
def winners (ls : List (τ × Choice)) : Nat :=
  ls.countP fun l => l.2 = .ret (.tried true)

/-- Exactly one of the calls of a finished race has won. -/
def OneWinner (M : Machine (Machine.Shared τ Latch Op) (τ × Choice)) : Prop :=
  ∀ s₀ ls s, M.init s₀ → M.run s₀ ls = some s → (∀ t, (t, .call .cancel) ∉ ls) →
    (∃ t, (t, .call .tryCancel) ∈ ls) → (∀ t, s.threads t = .idle) →
      s.mem.canceled = true ∧ winners ls = 1

/-- A {lit}`try_cancel` call that returns false has seen the flag set during the call. -/
def LosersSawTheFlag (M : Machine (Machine.Shared τ Latch Op) (τ × Choice)) : Prop :=
  ∀ s₀ before body t s, M.init s₀ →
    M.run s₀ (before ++ (t, .call .tryCancel) :: body ++ [(t, .ret (.tried false))]) = some s →
      (∀ l ∈ body, l.1 = t → ∃ spurious, l.2 = .tick spurious) →
        ∃ first rest s₁, body = first ++ rest ∧
          M.run s₀ (before ++ (t, .call .tryCancel) :: first) = some s₁ ∧ s₁.mem.canceled = true

/-! ## A spurious failure -/

/-- One thread, one call, no cancellation: the only CAS fails spuriously, the call returns
false, and the latch is not canceled. -/
theorem spurious_loser : ¬ OneWinner (machine Unit) := by
  intro h
  let s₀ : Machine.Shared Unit Latch Op := ⟨⟨1, false⟩, fun _ => .idle⟩
  have hend := h s₀ [((), .call .tryCancel), ((), .tick true), ((), .ret (.tried false))] _
    ⟨rfl, fun _ => rfl⟩ rfl (by simp) ⟨(), by simp⟩ (fun _ => rfl)
  exact absurd hend.1 (by decide)

/-! ## The race -/

/-- What one step does, when no {lit}`try_cancel` fails spuriously and nobody is inside
{lit}`cancel`: it leaves the flag and the winners alone, or one {lit}`try_cancel` wins. -/
inductive Move (m : Latch) (ch : Choice) (o : Op) : Latch → Op → Prop
  | begin (c : Call) (hch : ch = .call c) (ho : o = .idle) : Move m ch o m (.start c)
  | win (sp : Bool) (hch : ch = .tick sp) (ho : o = .tryCas) (hm : m.canceled = false) :
      Move m ch o { m with canceled := true } (.done (.tried true))
  | lose (sp : Bool) (hch : ch = .tick sp) (ho : o = .tryCas) (hm : m.canceled = true) :
      Move m ch o m (.done (.tried false))
  | read (sp : Bool) (hch : ch = .tick sp) (ho : o = .flagLoad) :
      Move m ch o m (.done (.flag m.canceled))
  | ret (r : Res) (hch : ch = .ret r) (ho : o = .done r) : Move m ch o m .idle

omit [DecidableEq τ] in
/-- A step of a thread that is not inside {lit}`cancel` is one of the moves. -/
theorem step_move {t : τ} {s : Machine.Shared τ Latch Op} {ch : Choice} {m : Latch} {o : Op}
    (hcancel : s.threads t ≠ .cancelLoad ∧ ∀ c n, s.threads t ≠ .casCancel c n)
    (hok : ¬ FailsSpuriously s (t, ch)) (h : step t ch s.mem (s.threads t) = some (m, o)) :
    Move s.mem ch (s.threads t) m o := by
  cases ch with
  | call c =>
      cases hthread : s.threads t with
      | idle =>
          simp only [hthread, step, Option.some.injEq, Prod.mk.injEq] at h
          obtain ⟨rfl, rfl⟩ := h
          exact .begin c rfl rfl
      | _ => simp [hthread, step] at h
  | tick sp =>
      cases hthread : s.threads t with
      | tryCas =>
          simp only [hthread, step, tick, compareExchangeWeak] at h
          cases hm : s.mem.canceled with
          | true =>
              simp only [hm, Bool.true_eq_false, and_false, if_false, Option.some.injEq,
                Prod.mk.injEq] at h
              obtain ⟨rfl, rfl⟩ := h
              exact .lose sp rfl rfl hm
          | false =>
              have hsp : sp = false := by
                cases sp with
                | false => rfl
                | true => exact absurd ⟨hthread, rfl, hm⟩ hok
              simp only [hm, hsp, and_self, if_true, Option.some.injEq, Prod.mk.injEq] at h
              obtain ⟨rfl, rfl⟩ := h
              exact .win sp rfl rfl hm
      | flagLoad =>
          simp only [hthread, step, tick, Option.some.injEq, Prod.mk.injEq] at h
          obtain ⟨rfl, rfl⟩ := h
          exact .read sp rfl rfl
      | cancelLoad => exact absurd hthread hcancel.1
      | casCancel c n => exact absurd hthread (hcancel.2 c n)
      | idle => simp [hthread, step, tick] at h
      | done r => simp [hthread, step, tick] at h
  | ret r =>
      cases hthread : s.threads t with
      | done r' =>
          simp only [hthread, step] at h
          split at h
          · rename_i hr
            obtain ⟨rfl, rfl⟩ : s.mem = m ∧ Op.idle = o := by simpa using h
            exact .ret r rfl (by rw [hr])
          · cases h
      | _ => simp [hthread, step] at h

/-- Where a race stands: before the flag is set no call has got past its CAS; afterwards
one call has won, and its result has been handed out or waits to be. -/
structure Race (ls : List (τ × Choice)) (s : Machine.Shared τ Latch Op) : Prop where
  quiet : ∀ t, s.threads t ≠ .cancelLoad ∧ ∀ c n, s.threads t ≠ .casCancel c n
  running : s.mem.canceled = false →
    (∀ t, (t, .call .tryCancel) ∈ ls → s.threads t = .tryCas) ∧ winners ls = 0 ∧
      ∀ t, s.threads t ≠ .done (.tried true)
  decided : s.mem.canceled = true →
    (winners ls = 1 ∧ ∀ t, s.threads t ≠ .done (.tried true)) ∨
      (winners ls = 0 ∧ ∃ t, ∀ u, s.threads u = .done (.tried true) ↔ u = t)

omit [DecidableEq τ] in
/-- The winners of a longer run. -/
theorem winners_append (ls : List (τ × Choice)) (l : τ × Choice) :
    winners (ls ++ [l]) = winners ls + if l.2 = .ret (.tried true) then 1 else 0 := by
  simp [winners, List.countP_append, List.countP_singleton]

/-- A step that neither sets the flag nor makes or hands out a win keeps the race. -/
theorem Race.keep {ls : List (τ × Choice)} {s s' : Machine.Shared τ Latch Op} {t : τ}
    {ch : Choice} {o : Op} (hrace : Race ls s) (hmem : s'.mem = s.mem)
    (hat : ∀ u, s'.threads u = if u = t then o else s.threads u)
    (hquiet : o ≠ .cancelLoad ∧ ∀ c n, o ≠ .casCancel c n)
    (hbefore : s.threads t ≠ .done (.tried true)) (hafter : o ≠ .done (.tried true))
    (hlabel : ch ≠ .ret (.tried true))
    (hcalled : s.mem.canceled = false →
      ((t, .call .tryCancel) ∈ ls ++ [(t, ch)] → o = .tryCas) ∧ ch ≠ .call .cancel) :
    Race (ls ++ [(t, ch)]) s' := by
  have hwinners : winners (ls ++ [(t, ch)]) = winners ls := by
    simp [winners_append, hlabel]
  have hwon : ∀ u, s'.threads u = .done (.tried true) ↔ s.threads u = .done (.tried true) := by
    intro u
    rw [hat]
    split
    · rename_i hut
      subst hut
      exact ⟨fun h => absurd h hafter, fun h => absurd h hbefore⟩
    · rfl
  refine ⟨fun u => ?_, fun hm => ?_, fun hm => ?_⟩
  · rw [hat]
    split
    · exact hquiet
    · exact hrace.quiet u
  · rw [hmem] at hm
    obtain ⟨hcas, hnone, hdone⟩ := hrace.running hm
    refine ⟨fun u hu => ?_, hwinners.trans hnone, fun u h => hdone u ((hwon u).mp h)⟩
    rw [hat]
    split
    · rename_i hut
      subst hut
      exact (hcalled hm).1 hu
    · rename_i hut
      exact hcas u (by simpa [hut] using hu)
  · rw [hmem] at hm
    rw [hwinners]
    simpa only [ne_eq, hwon] using hrace.decided hm

/-- A race goes on through every step that begins no {lit}`cancel`. -/
theorem Race.step {ls : List (τ × Choice)} {s s' : Machine.Shared τ Latch Op} {l : τ × Choice}
    (hrace : Race ls s) (hcall : l.2 ≠ .call .cancel) (h : (faithful τ).step s l = some s') :
    Race (ls ++ [l]) s' := by
  obtain ⟨hok, h⟩ := Machine.restrict_step.mp h
  obtain ⟨m, o, hstep, hs'⟩ := Machine.ofThreads_step h
  obtain ⟨t, ch⟩ := l
  have hat : ∀ u, s'.threads u = if u = t then o else s.threads u := by
    intro u
    rw [hs']
    exact Function.update_apply ..
  have hmem : s'.mem = m := by rw [hs']
  have hmove := step_move (hrace.quiet t) hok hstep
  generalize hthread : s.threads t = before at hmove
  cases hmove with
  | begin c hch ho =>
      subst hch ho
      refine hrace.keep hmem hat ?_ (by simp [hthread]) ?_ (by simp) fun hm => ⟨fun hu => ?_, hcall⟩
      · cases c with
        | cancel => exact absurd rfl hcall
        | _ => simp [Op.start]
      · cases c <;> simp [Op.start]
      · rcases List.mem_append.mp hu with hu | hu
        · -- a thread that has called before is still at its CAS, so it is not idle
          rw [(hrace.running hm).1 t hu] at hthread
          cases hthread
        · obtain rfl : Call.tryCancel = c := by simpa using hu
          rfl
  | win sp hch ho hm =>
      subst hch ho
      obtain ⟨-, hnone, hdone⟩ := hrace.running hm
      refine ⟨fun u => ?_, fun hm' => ?_, fun _ => .inr ⟨?_, t, fun u => ?_⟩⟩
      · rw [hat]
        split
        · simp
        · exact hrace.quiet u
      · rw [hmem] at hm'
        cases hm'
      · simpa [winners_append] using hnone
      · rw [hat]
        split
        · simp [*]
        · simp [*]
  | lose sp hch ho hm =>
      subst hch ho
      refine hrace.keep hmem hat (by simp) (by simp [hthread]) (by simp) (by simp) fun hm' => ?_
      rw [hm] at hm'
      cases hm'
  | read sp hch ho =>
      subst hch ho
      refine hrace.keep hmem hat (by simp) (by simp [hthread]) (by simp) (by simp)
        fun hm => ⟨fun hu => ?_, by simp⟩
      rw [(hrace.running hm).1 t (by simpa using hu)] at hthread
      cases hthread
  | ret r hch ho =>
      subst hch ho
      by_cases hr : r = .tried true
      · subst hr
        -- the flag is set, this thread alone has a win to hand out, and now it does
        cases hm : s.mem.canceled with
        | false => exact absurd hthread ((hrace.running hm).2.2 t)
        | true =>
            rcases hrace.decided hm with ⟨-, hdone⟩ | ⟨hnone, w, hw⟩
            · exact absurd hthread (hdone t)
            · obtain rfl : t = w := (hw t).mp hthread
              refine ⟨fun u => ?_, fun hm' => ?_, fun _ => .inl ⟨?_, fun u => ?_⟩⟩
              · rw [hat]
                split
                · simp
                · exact hrace.quiet u
              · rw [hmem, hm] at hm'
                cases hm'
              · simp [winners_append, hnone]
              · rw [hat]
                split
                · simp
                · rename_i hut
                  exact fun h => hut ((hw u).mp h)
      · refine hrace.keep hmem hat (by simp) (by simpa [hthread] using hr) (by simp)
          (by simpa using hr) fun hm => ⟨fun hu => ?_, by simp⟩
        rw [(hrace.running hm).1 t (by simpa using hu)] at hthread
        cases hthread

/-- Every run without a {lit}`cancel` is a race. -/
theorem race_of_run {s₀ s : Machine.Shared τ Latch Op} {ls : List (τ × Choice)}
    (hinit : (faithful τ).init s₀) (hrun : (faithful τ).run s₀ ls = some s)
    (hcall : ∀ t, (t, .call .cancel) ∉ ls) : Race ls s := by
  obtain ⟨hflag, hidle⟩ := hinit
  refine Machine.run_history (I := fun ls s => (∀ t, (t, .call .cancel) ∉ ls) → Race ls s)
    ?_ ?_ hrun hcall
  · intro _
    refine ⟨fun t => by simp [hidle], fun _ => ?_, fun hm => ?_⟩
    · exact ⟨fun t ht => (List.not_mem_nil ht).elim, rfl, fun t => by simp [hidle]⟩
    · rw [hflag] at hm
      cases hm
  · intro ls s l s' _ ih hstep hcall
    refine (ih fun t ht => hcall t (List.mem_append_left _ ht)).step ?_ hstep
    intro hl
    refine hcall l.1 (List.mem_append_right _ ?_)
    rw [← hl]
    exact List.mem_singleton_self _

/-- Every thread of a finished race is idle, so the flag is set by the one winner. -/
theorem oneWinner_faithful : OneWinner (faithful τ) := by
  intro s₀ ls s hinit hrun hcall ⟨t, ht⟩ hidle
  have hrace := race_of_run hinit hrun hcall
  cases hm : s.mem.canceled with
  | false =>
      have := (hrace.running hm).1 t ht
      rw [hidle] at this
      cases this
  | true =>
      rcases hrace.decided hm with ⟨hone, -⟩ | ⟨-, w, hw⟩
      · exact ⟨rfl, hone⟩
      · have := (hw w).mpr rfl
        rw [hidle] at this
        cases this

/-! ## The losers -/

/-- A {lit}`try_cancel` loses by a spurious failure or because the flag is set. -/
theorem tick_lost {sp : Bool} {l l' : Latch} {o : Op}
    (h : l.tick sp o = some (l', .done (.tried false))) :
    o = .tryCas ∧ (sp = true ∨ l.canceled = true) := by
  cases o with
  | tryCas =>
      refine ⟨rfl, ?_⟩
      by_contra hne
      simp only [not_or, Bool.not_eq_true] at hne
      simp [tick, compareExchangeWeak, hne.1, hne.2] at h
  | cancelLoad =>
      simp only [tick, Option.some.injEq, Prod.mk.injEq] at h
      split at h <;> simp at h
  | casCancel c n =>
      simp only [tick] at h
      split at h
      · simp at h
      · simp only [Option.some.injEq, Prod.mk.injEq] at h
        split at h <;> simp at h
  | _ => simp [tick] at h

/-- In a faithful run a thread takes up a loss only while the flag is set. -/
theorem lost_step {s s' : Machine.Shared τ Latch Op} {l : τ × Choice} {t : τ}
    (hl : l.1 = t → ∃ spurious, l.2 = .tick spurious)
    (hbefore : s.threads t ≠ .done (.tried false)) (h : (faithful τ).step s l = some s') :
    s'.threads t ≠ .done (.tried false) ∨ s.mem.canceled = true := by
  obtain ⟨hok, h⟩ := Machine.restrict_step.mp h
  obtain ⟨m, o, hstep, rfl⟩ := Machine.ofThreads_step h
  by_cases ht : l.1 = t
  · obtain ⟨sp, hsp⟩ := hl ht
    by_cases ho : o = .done (.tried false)
    · subst ho
      rw [hsp] at hstep
      obtain ⟨hcas, hwhy⟩ := tick_lost hstep
      refine .inr ?_
      rcases hwhy with rfl | hflag
      · by_contra hne
        exact hok ⟨hcas, hsp, by simpa using hne⟩
      · exact hflag
    · refine .inl ?_
      rw [← ht]
      simpa using ho
  · refine .inl ?_
    have hne : t ≠ l.1 := fun h => ht h.symm
    simpa [Function.update_of_ne hne] using hbefore

/-- A call that loses a faithful run has seen the flag set. -/
theorem losersSawTheFlag_faithful : LosersSawTheFlag (faithful τ) := by
  intro s₀ before body t s _ hrun hbody
  rw [Machine.run_append, Machine.run_append] at hrun
  obtain ⟨s₃, hrun, hret⟩ := Option.bind_eq_some_iff.mp hrun
  obtain ⟨s₁, hbefore, hcall⟩ := Option.bind_eq_some_iff.mp hrun
  simp only [Machine.run] at hcall
  split at hcall
  · rename_i s₂ hcallStep
    have hstart : s₂.threads t ≠ .done (.tried false) := by
      obtain ⟨m, o, hstep, rfl⟩ := Machine.ofThreads_step (Machine.restrict_step.mp hcallStep).2
      cases hthread : s₁.threads t with
      | idle =>
          simp only [hthread, Latch.step, Option.some.injEq, Prod.mk.injEq] at hstep
          simp [← hstep.2, Op.start]
      | _ => simp [hthread, Latch.step] at hstep
    have hend : s₃.threads t = .done (.tried false) := by
      obtain ⟨m, o, hstep, -⟩ :=
        Machine.ofThreads_step (Machine.restrict_step.mp (Machine.run_singleton.mp hret)).2
      cases hthread : s₃.threads t with
      | done r =>
          simp only [hthread, Latch.step] at hstep
          split at hstep
          · rename_i hr
            rw [← hr]
          · cases hstep
      | _ => simp [hthread, Latch.step] at hstep
    obtain ⟨first, rest, s₄, rfl, hfirst, hflag⟩ :=
      Machine.run_leaves (J := fun s => s.threads t ≠ .done (.tried false))
        (P := fun s => s.mem.canceled = true)
        (fun _ l _ hl => lost_step (hbody l hl)) hstart hcall (fun h => h hend)
    refine ⟨first, rest, s₄, rfl, ?_, hflag⟩
    simp [Machine.run_append, hbefore, Machine.run, hcallStep, hfirst]
  · cases hcall

/-- Cancellation while no {lit}`try_cancel` fails spuriously: a finished race has exactly
one winner, and every loser has seen the flag set. -/
theorem one_winner : OneWinner (faithful τ) ∧ LosersSawTheFlag (faithful τ) :=
  ⟨oneWinner_faithful, losersSawTheFlag_faithful⟩

/-- The latch of a scope with one job, not canceled. -/
def oneTicket : Machine.Shared Bool Latch Op :=
  ⟨⟨2, false⟩, fun _ => .idle⟩

/-- The CAS of one call sets the flag, and that of the other one fails after it. -/
def casBeforeCas : List (Bool × Choice) :=
  [(false, .tick false), (true, .tick true), (false, .ret (.tried true))]

/-- Of two calls that race one wins, and the other one has seen the flag set. -/
theorem one_winner_of_two :
    let M := faithful Bool
    let before := [(false, Choice.call .tryCancel)]
    let race := before ++ (true, .call .tryCancel) :: casBeforeCas ++ [(true, .ret (.tried false))]
    ((M.after oneTicket race).mem.canceled = true ∧ winners race = 1) ∧
      ∃ first rest s, casBeforeCas = first ++ rest ∧
        M.run oneTicket (before ++ (true, .call .tryCancel) :: first) = some s ∧
          s.mem.canceled = true := by
  intro M before race
  have hinit : M.init oneTicket := ⟨rfl, fun _ => rfl⟩
  have hrun : M.run oneTicket race = some (M.after oneTicket race) :=
    Machine.run_after (by decide +kernel)
  refine ⟨one_winner.1 oneTicket race _ hinit hrun (by decide) ⟨true, by decide⟩ (by decide +kernel),
    one_winner.2 oneTicket before casBeforeCas true _ hinit hrun ?_⟩
  intro l hl ht
  simp only [casBeforeCas, List.mem_cons, List.not_mem_nil, or_false] at hl
  rcases hl with rfl | rfl | rfl
  · cases ht
  · exact ⟨true, rfl⟩
  · cases ht

end Runs

end Latch

end XynokConcurrency
