import Mathlib.Data.List.Nodup
import Mathlib.Data.List.Pairwise
import Mathlib.Data.List.Perm.Basic

/-!
# Things held in one place each

A family of lists says what lies in each of possibly infinitely many places.  A
step moves things between finitely many places, lets new ones in and old ones go.
It never makes a second copy, so what is held once stays held once.

Main results:

- Theorem {lit}`Exchange.heldOnce`: after a step nothing is held twice.
- Theorem {lit}`Exchange.held_iff`: what is held after a step is what was held, with
  what came in and without what went.
- Theorem {lit}`Exchange.before`: where a thing was that lies in a place now.
- Theorem {lit}`Total.split`: everything that is held, when one place changes.
-/

namespace XynokConcurrency

variable {ι α : Type} {c c' c'' : ι → List α} {places : List ι} {new gone : List α} {a : α} {l l' : ι}

/-- Nothing is held twice, neither in one place nor in two. -/
structure HeldOnce (c : ι → List α) : Prop where
  nodup : ∀ l, (c l).Nodup
  apart : ∀ {l l' a}, a ∈ c l → a ∈ c l' → l = l'

/-- The places listed exchange what they hold, together with what comes in and what
goes. -/
structure Exchange (c c' : ι → List α) (places : List ι) (new gone : List α) : Prop where
  nodup : places.Nodup
  same : ∀ l, l ∉ places → c' l = c l
  perm : (gone ++ places.flatMap c').Perm (new ++ places.flatMap c)

namespace Exchange

/-! ## Exchanges of a few places -/

/-- Nothing moves. -/
theorem refl (c : ι → List α) : Exchange c c [] [] [] :=
  ⟨List.nodup_nil, fun _ _ => rfl, .refl _⟩

/-- One place changes. -/
theorem one (l : ι) (hsame : ∀ k, k ≠ l → c' k = c k) (hperm : (gone ++ c' l).Perm (new ++ c l)) :
    Exchange c c' [l] new gone :=
  ⟨List.nodup_singleton l, fun k hk => hsame k fun h => hk (List.mem_singleton.mpr h),
    by simpa using hperm⟩

/-- Two places change. -/
theorem two (hne : l ≠ l') (hsame : ∀ k, k ≠ l → k ≠ l' → c' k = c k)
    (hperm : (gone ++ (c' l ++ c' l')).Perm (new ++ (c l ++ c l'))) :
    Exchange c c' [l, l'] new gone :=
  ⟨by simpa using hne, fun k hk => hsame k (by simp_all) (by simp_all), by simpa using hperm⟩

/-- What is held beside the exchange does not matter. -/
theorem beside (h : Exchange c c' places new gone) (more : ι → List α) :
    Exchange (fun l => c l ++ more l) (fun l => c' l ++ more l) places new gone := by
  refine ⟨h.nodup, fun l hl => by rw [h.same l hl], ?_⟩
  have hsplit : ∀ f : ι → List α, (places.flatMap fun l => f l ++ more l).Perm
      (places.flatMap f ++ places.flatMap more) := fun f => (List.flatMap_append_perm places f more).symm
  calc (gone ++ places.flatMap fun l => c' l ++ more l).Perm
        ((gone ++ places.flatMap c') ++ places.flatMap more) := by
          rw [List.append_assoc]
          exact (hsplit c').append_left gone
    _ |>.Perm ((new ++ places.flatMap c) ++ places.flatMap more) := h.perm.append_right _
    _ |>.Perm (new ++ places.flatMap fun l => c l ++ more l) := by
          rw [List.append_assoc]
          exact (hsplit c).symm.append_left new

/-! ## What an exchange keeps -/

/-- What is held after an exchange, or went, was held before or came in. -/
theorem held_iff (h : Exchange c c' places new gone) :
    (a ∈ gone ∨ ∃ l, a ∈ c' l) ↔ (a ∈ new ∨ ∃ l, a ∈ c l) := by
  have hmem := h.perm.mem_iff (a := a)
  simp only [List.mem_append, List.mem_flatMap] at hmem
  constructor
  · rintro (hgone | ⟨l, hl⟩)
    · exact (hmem.mp (.inl hgone)).imp_right fun ⟨l, _, hl⟩ => ⟨l, hl⟩
    · by_cases hp : l ∈ places
      · exact (hmem.mp (.inr ⟨l, hp, hl⟩)).imp_right fun ⟨l, _, hl⟩ => ⟨l, hl⟩
      · exact .inr ⟨l, h.same l hp ▸ hl⟩
  · rintro (hnew | ⟨l, hl⟩)
    · exact (hmem.mpr (.inl hnew)).imp_right fun ⟨l, _, hl⟩ => ⟨l, hl⟩
    · by_cases hp : l ∈ places
      · exact (hmem.mpr (.inr ⟨l, hp, hl⟩)).imp_right fun ⟨l, _, hl⟩ => ⟨l, hl⟩
      · exact .inr ⟨l, (h.same l hp).symm ▸ hl⟩

/-- What lies in a place was there before, or the place took part in the exchange. -/
theorem before (h : Exchange c c' places new gone) (ha : a ∈ c' l) :
    a ∈ c l ∨ l ∈ places ∧ (a ∈ new ∨ ∃ l' ∈ places, a ∈ c l') := by
  by_cases hp : l ∈ places
  · have hmem := h.perm.mem_iff (a := a)
    simp only [List.mem_append, List.mem_flatMap] at hmem
    exact .inr ⟨hp, hmem.mp (.inr ⟨l, hp, ha⟩)⟩
  · exact .inl (h.same l hp ▸ ha)

section Once

variable (h : Exchange c c' places new gone) (hc : HeldOnce c) (hnew : new.Nodup)
  (hfresh : ∀ a ∈ new, ∀ l, a ∉ c l)
include h hc hnew hfresh

/-- What the places hold between them, with what came in, has no duplicates. -/
theorem nodup_before : (new ++ places.flatMap c).Nodup := by
  refine List.nodup_append'.mpr ⟨hnew, ?_, fun a ha hmem => ?_⟩
  · refine List.nodup_flatMap.mpr ⟨fun l _ => hc.nodup l, ?_⟩
    exact h.nodup.imp fun hne a ha ha' => hne (hc.apart ha ha')
  · obtain ⟨l, -, hl⟩ := List.mem_flatMap.mp hmem
    exact hfresh a ha l hl

/-- After a step nothing is held twice. -/
theorem heldOnce : HeldOnce c' := by
  have hnodup := h.perm.nodup_iff.mpr (h.nodup_before hc hnew hfresh)
  obtain ⟨-, hplaces, -⟩ := List.nodup_append'.mp hnodup
  obtain ⟨heach, hpair⟩ := List.nodup_flatMap.mp hplaces
  have hwithin : ∀ {l l' a}, l ∈ places → l' ∈ places → a ∈ c' l → a ∈ c' l' → l = l' := by
    intro l l' a hl hl' ha ha'
    by_contra hne
    have : Std.Symm (Function.onFun List.Disjoint c') := ⟨fun _ _ hd _ ha ha' => hd ha' ha⟩
    have hdisjoint : (c' l).Disjoint (c' l') := hpair.forall hl hl' hne
    exact hdisjoint ha ha'
  have houtside : ∀ {l l' a}, l ∈ places → l' ∉ places → a ∈ c' l → a ∉ c' l' := by
    intro l l' a hl hl' ha ha'
    rw [h.same l' hl'] at ha'
    have hbefore := h.before ha
    rcases hbefore with hbefore | ⟨-, hbefore | ⟨k, hk, hbefore⟩⟩
    · exact hl' (hc.apart hbefore ha' ▸ hl)
    · exact hfresh a hbefore l' ha'
    · exact hl' (hc.apart hbefore ha' ▸ hk)
  refine ⟨fun l => ?_, fun {l l' a} ha ha' => ?_⟩
  · by_cases hl : l ∈ places
    · exact heach l hl
    · rw [h.same l hl]
      exact hc.nodup l
  · by_cases hl : l ∈ places <;> by_cases hl' : l' ∈ places
    · exact hwithin hl hl' ha ha'
    · exact (houtside hl hl' ha ha').elim
    · exact (houtside hl' hl ha' ha).elim
    · rw [h.same l hl] at ha
      rw [h.same l' hl'] at ha'
      exact hc.apart ha ha'

/-- What went is held nowhere. -/
theorem not_held_of_gone (ha : a ∈ gone) (l : ι) : a ∉ c' l := by
  intro hl
  have hnodup := h.perm.nodup_iff.mpr (h.nodup_before hc hnew hfresh)
  obtain ⟨-, -, hdisjoint⟩ := List.nodup_append'.mp hnodup
  by_cases hp : l ∈ places
  · exact hdisjoint ha (List.mem_flatMap.mpr ⟨l, hp, hl⟩)
  · rw [h.same l hp] at hl
    have hmem := h.perm.mem_iff (a := a)
    simp only [List.mem_append, List.mem_flatMap] at hmem
    rcases hmem.mp (.inl ha) with hin | ⟨k, hk, hin⟩
    · exact hfresh a hin l hl
    · exact hp (hc.apart hin hl ▸ hk)

end Once

end Exchange

/-! ## Everything that is held -/

/-- Everything the places hold together, in some order. -/
def Total (c : ι → List α) (all : List α) : Prop :=
  ∃ places : List ι, places.Nodup ∧ (∀ l, l ∉ places → c l = []) ∧ all.Perm (places.flatMap c)

/-- Nothing is held anywhere. -/
theorem Total.nil (h : ∀ l, c l = []) : Total c [] :=
  ⟨[], List.nodup_nil, fun l _ => h l, .refl _⟩

/-- Where nothing is held, everything is nothing. -/
theorem Total.eq_nil {all : List α} (h : Total c all) (hnil : ∀ l, c l = []) : all = [] := by
  obtain ⟨places, -, -, hperm⟩ := h
  have hempty : places.flatMap c = [] := List.flatMap_eq_nil_iff.mpr fun l _ => hnil l
  rw [hempty] at hperm
  exact hperm.eq_nil

/-- Everything is what one place holds and the rest, and the rest stays when that place
changes. -/
theorem Total.split [DecidableEq ι] {all : List α} (h : Total c all) (l : ι) :
    ∃ rest, all.Perm (c l ++ rest) ∧
      ∀ v, Total (Function.update c l v) (v ++ rest) := by
  obtain ⟨places, hnodup, houtside, hperm⟩ := h
  have hl : l ∉ places.erase l := fun hmem => (hnodup.mem_erase_iff.mp hmem).1 rfl
  refine ⟨(places.erase l).flatMap c, hperm.trans ?_, fun v =>
    ⟨l :: places.erase l, List.nodup_cons.mpr ⟨hl, hnodup.erase l⟩, fun k hk => ?_, ?_⟩⟩
  · by_cases hmem : l ∈ places
    · exact (List.perm_cons_erase hmem).flatMap_right c
    · rw [houtside l hmem, List.erase_of_not_mem hmem]
      exact .refl _
  · have hkl : k ≠ l := fun h => hk (h ▸ List.mem_cons_self)
    rw [Function.update_of_ne hkl]
    exact houtside k fun hmem => hk (List.mem_cons_of_mem _ (hnodup.mem_erase_iff.mpr ⟨hkl, hmem⟩))
  · rw [List.flatMap_cons, Function.update_self]
    refine List.Perm.append_left v (.of_eq ?_)
    refine List.flatMap_congr fun k hk => ?_
    have hkl : k ≠ l := by
      rintro rfl
      exact hl hk
    rw [Function.update_of_ne hkl]

end XynokConcurrency
