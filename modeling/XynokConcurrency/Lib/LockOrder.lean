import Mathlib.Data.Fintype.Card
import Mathlib.Data.List.Perm.Basic
import Mathlib.Data.Set.Finite.Basic
import Mathlib.Logic.Relation
import Mathlib.Order.WellFounded

/-!
# Locks taken in order

Threads that take locks one after another cannot deadlock when every thread asks
only for a lock that lies beyond all the locks it holds.  A snapshot says which
thread holds a lock and which lock a thread asks for; nothing else about the
program matters.  Which thread holds a lock is read off the lock; that it is then in
a critical section of the lock, and of no lock it does not hold, is an invariant of
the steps.

Main results:

- Theorems {lit}`LockStep.self` and {lit}`LockStep.other`: the critical sections a
  thread is in are those of the locks that name it.
- Theorem {lit}`LockTable.Ordered.no_cycle`: the wait-for relation has no cycle.
- Theorem {lit}`LockTable.Ordered.exists_running`: while a thread waits, some
  holder of a lock does not.
-/

namespace XynokConcurrency

open Relation

/-! ## Critical sections -/

/-- The locks that name a thread are those of the critical sections it is in, each
of them once. -/
structure HoldsExactly {τ ι : Type} (t : τ) (holder : ι → Option τ) (held : List ι) : Prop where
  nodup : held.Nodup
  named : ∀ l, holder l = some t ↔ l ∈ held

/-- What a step of thread {lit}`t` does to the locks and to the critical sections it
is in: nothing, or it takes a free lock and enters, or it leaves and releases the
lock. -/
inductive LockStep {τ ι : Type} [DecidableEq ι] (t : τ) (holder holder' : ι → Option τ)
    (held held' : List ι) : Prop
  | keep (hholder : holder' = holder) (hheld : held'.Perm held)
  | take (l : ι) (hfree : holder l = none) (hholder : holder' = Function.update holder l (some t))
      (hheld : held'.Perm (l :: held))
  | give (l : ι) (hholder : holder' = Function.update holder l none)
      (hheld : held.Perm (l :: held'))

namespace LockStep

variable {τ ι : Type} [DecidableEq ι] {t u : τ} {holder holder' : ι → Option τ}
  {held held' : List ι} {l : ι}

/-- Other critical sections of the thread do not matter. -/
theorem beside (h : LockStep t holder holder' held held') (more : List ι) :
    LockStep t holder holder' (held ++ more) (held' ++ more) := by
  cases h with
  | keep hholder hheld => exact .keep hholder (hheld.append_right more)
  | take l hfree hholder hheld => exact .take l hfree hholder (hheld.append_right more)
  | give l hholder hheld => exact .give l hholder (hheld.append_right more)

/-- The stepping thread still holds what its critical sections say. -/
theorem self (h : LockStep t holder holder' held held') (ht : HoldsExactly t holder held) :
    HoldsExactly t holder' held' := by
  cases h with
  | keep hholder hheld =>
      subst hholder
      exact ⟨hheld.nodup_iff.mpr ht.nodup, fun l => (ht.named l).trans hheld.mem_iff.symm⟩
  | take l hfree hholder hheld =>
      subst hholder
      have hnew : l ∉ held := fun hl => by
        rw [(ht.named l).mpr hl] at hfree
        cases hfree
      refine ⟨hheld.nodup_iff.mpr (List.nodup_cons.mpr ⟨hnew, ht.nodup⟩), fun k => ?_⟩
      rw [hheld.mem_iff, List.mem_cons]
      rcases eq_or_ne k l with rfl | hk
      · simp
      · simpa [hk] using ht.named k
  | give l hholder hheld =>
      subst hholder
      obtain ⟨hl, hnodup⟩ := List.nodup_cons.mp (hheld.nodup_iff.mp ht.nodup)
      refine ⟨hnodup, fun k => ?_⟩
      rcases eq_or_ne k l with rfl | hk
      · simpa using hl
      · have hmem := hheld.mem_iff (a := k)
        rw [List.mem_cons] at hmem
        simp only [Function.update_of_ne hk, ht.named k, hmem, hk, false_or]

/-- No step gives a lock to another thread. -/
theorem named_other (h : LockStep t holder holder' held held') (hu : u ≠ t)
    (hl : holder' l = some u) : holder l = some u := by
  cases h with
  | keep hholder hheld => exact hholder ▸ hl
  | take k hfree hholder hheld =>
      subst hholder
      rcases eq_or_ne l k with rfl | hk
      · exact (hu (Option.some.inj (by simpa using hl)).symm).elim
      · simpa [hk] using hl
  | give k hholder hheld =>
      subst hholder
      rcases eq_or_ne l k with rfl | hk
      · simp at hl
      · simpa [hk] using hl

/-- Every other thread still holds what its critical sections say. -/
theorem other {heldu : List ι} (h : LockStep t holder holder' held held') (hu : u ≠ t)
    (ht : HoldsExactly t holder held) (hother : HoldsExactly u holder heldu) :
    HoldsExactly u holder' heldu := by
  refine ⟨hother.nodup, fun l => ⟨fun hl => (hother.named l).mp (h.named_other hu hl), fun hl => ?_⟩⟩
  have hl := (hother.named l).mpr hl
  cases h with
  | keep hholder hheld => exact hholder ▸ hl
  | take k hfree hholder hheld =>
      subst hholder
      rcases eq_or_ne l k with rfl | hk
      · rw [hl] at hfree
        cases hfree
      · simpa [hk] using hl
  | give k hholder hheld =>
      subst hholder
      rcases eq_or_ne l k with rfl | hk
      · rw [(ht.named l).mpr (hheld.mem_iff.mpr List.mem_cons_self)] at hl
        exact (hu (Option.some.inj hl).symm).elim
      · simpa [hk] using hl

end LockStep

/-! ## The wait-for relation -/

/-- Who holds which lock, and who asks for which. -/
structure LockTable (τ ι : Type) where
  holder : ι → Option τ
  asks : τ → Option ι

namespace LockTable

variable {τ ι : Type} {table : LockTable τ ι} {before : ι → ι → Prop} {t u : τ} {l : ι}

/-- Thread {lit}`t` asks for a lock that thread {lit}`u` holds. -/
def WaitsFor (table : LockTable τ ι) (t u : τ) : Prop :=
  ∃ l, table.asks t = some l ∧ table.holder l = some u

/-- The lock a thread asks for is taken. -/
def Waits (table : LockTable τ ι) (t : τ) : Prop :=
  ∃ u, table.WaitsFor t u

/-- A thread asks only for locks beyond those it holds. -/
def Ordered (before : ι → ι → Prop) (table : LockTable τ ι) : Prop :=
  ∀ t l held, table.asks t = some l → table.holder held = some t → before held l

/-- Threads that hold a lock. -/
def holders (table : LockTable τ ι) : Set τ :=
  fun t => ∃ l, table.holder l = some t

/-- Whoever waits asks for a lock. -/
theorem WaitsFor.asks (h : TransGen table.WaitsFor t u) : ∃ l, table.asks t = some l := by
  obtain ⟨v, ⟨l, hl, -⟩, -⟩ := TransGen.head'_iff.mp h
  exact ⟨l, hl⟩

/-- Along a path of the wait-for relation the locks asked for get larger. -/
theorem Ordered.path [IsTrans ι before] (h : table.Ordered before)
    (hpath : TransGen table.WaitsFor t u) (hu : table.asks u = some l) :
    ∃ first, table.asks t = some first ∧ before first l := by
  induction hpath generalizing l with
  | single hedge =>
      obtain ⟨first, hfirst, hheld⟩ := hedge
      exact ⟨first, hfirst, h _ _ _ hu hheld⟩
  | tail _ hedge ih =>
      obtain ⟨middle, hmiddle, hheld⟩ := hedge
      obtain ⟨first, hfirst, hlt⟩ := ih hmiddle
      exact ⟨first, hfirst, IsTrans.trans _ _ _ hlt (h _ _ _ hu hheld)⟩

/-- The wait-for relation has no cycle. -/
theorem Ordered.no_cycle [IsTrans ι before] [Std.Irrefl before] (h : table.Ordered before) (t : τ) :
    ¬ TransGen table.WaitsFor t t := by
  intro hcycle
  obtain ⟨l, hl⟩ := WaitsFor.asks hcycle
  obtain ⟨first, hfirst, hlt⟩ := h.path hcycle hl
  rw [hl] at hfirst
  cases hfirst
  exact irrefl _ hlt

/-- While a thread waits, some holder of a lock does not: follow the wait-for
relation as far as it goes. -/
theorem Ordered.exists_running [IsTrans ι before] [Std.Irrefl before] (h : table.Ordered before)
    (hfinite : table.holders.Finite) (ht : table.Waits t) :
    ∃ u ∈ table.holders, ¬ table.Waits u := by
  obtain ⟨u₀, l₀, -, hu₀⟩ := ht
  have : Finite table.holders := hfinite
  let beyond (x y : table.holders) : Prop := TransGen table.WaitsFor y x
  have : IsTrans table.holders beyond := ⟨fun _ _ _ hxy hyz => hyz.trans hxy⟩
  have : Std.Irrefl beyond := ⟨fun x => h.no_cycle x⟩
  obtain ⟨last, -, hlast⟩ := (Finite.wellFounded_of_trans_of_irrefl beyond).has_min Set.univ
    ⟨⟨u₀, l₀, hu₀⟩, trivial⟩
  refine ⟨last, last.2, ?_⟩
  rintro ⟨v, l, hl, hv⟩
  exact hlast ⟨v, l, hv⟩ trivial (.single ⟨l, hl, hv⟩)

end LockTable

end XynokConcurrency
