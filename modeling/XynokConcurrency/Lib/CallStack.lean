import Mathlib.Data.List.Basic

/-!
# Assertions on call stacks

A call stack is a list of frames with the innermost one first.  An assertion on
a frame may speak about the frames it stands on, and a stack is in order when
the assertion holds of each of its frames.

Main results:

- Theorem {lit}`everywhere_append`: pushing frames needs the assertion of the new
  frames only.
- Theorem {lit}`Everywhere.mono`: an assertion may be weakened frame by frame.
- Theorem {lit}`Everywhere.of_mem`: the assertion of a frame inside of a stack.
- Theorem {lit}`everywhere_iff`: an assertion may be shown place by place.
-/

namespace XynokConcurrency

variable {φ : Type}

/-- {lit}`P rest f` holds of every frame {lit}`f` of a stack, where {lit}`rest`
is what it stands on. -/
def Everywhere (P : List φ → φ → Prop) : List φ → Prop
  | [] => True
  | f :: rest => P rest f ∧ Everywhere P rest

variable {P Q : List φ → φ → Prop} {f : φ} {fs rest : List φ}

@[simp] theorem everywhere_nil : Everywhere P [] := trivial

@[simp] theorem everywhere_cons :
    Everywhere P (f :: rest) ↔ P rest f ∧ Everywhere P rest := Iff.rfl

/-- Pushing frames needs the assertion of the new frames only. -/
theorem everywhere_append :
    Everywhere P (fs ++ rest) ↔ Everywhere (fun above g => P (above ++ rest) g) fs ∧
      Everywhere P rest := by
  induction fs with
  | nil => simp
  | cons g fs ih => simp [ih, and_assoc]

/-- An assertion may be weakened frame by frame. -/
theorem Everywhere.mono (h : Everywhere P fs) (himp : ∀ g above, P above g → Q above g) :
    Everywhere Q fs := by
  induction fs with
  | nil => trivial
  | cons g fs ih => exact ⟨himp _ _ h.1, ih h.2⟩

/-- An assertion that asks nothing of the frames below may be shown one frame at a
time. -/
theorem Everywhere.of_forall (h : ∀ f ∈ fs, ∀ rest, P rest f) : Everywhere P fs := by
  induction fs with
  | nil => trivial
  | cons f fs ih => exact ⟨h f List.mem_cons_self fs, ih fun g hg => h g (List.mem_cons_of_mem _ hg)⟩

/-- The assertion of a frame inside of a stack. -/
theorem Everywhere.of_mem (h : Everywhere P fs) (hf : f ∈ fs) :
    ∃ above rest, fs = above ++ f :: rest ∧ P rest f ∧ Everywhere P rest := by
  induction fs with
  | nil => cases hf
  | cons g fs ih =>
      rcases List.mem_cons.mp hf with rfl | hf
      · exact ⟨[], fs, rfl, h⟩
      · obtain ⟨above, rest, rfl, hrest⟩ := ih h.2 hf
        exact ⟨g :: above, rest, rfl, hrest⟩

/-- An assertion holds everywhere when it holds at each place. -/
theorem everywhere_iff :
    Everywhere P fs ↔ ∀ above g below, fs = above ++ g :: below → P below g := by
  constructor
  · rintro h above g below rfl
    exact (everywhere_append.mp h).2.1
  · intro h
    induction fs with
    | nil => trivial
    | cons f fs ih =>
        exact ⟨h [] f fs rfl, ih fun above g below heq => h (f :: above) g below (by rw [heq]; rfl)⟩

end XynokConcurrency
