import Mathlib.Data.List.Basic

/-!
# Slices and copies with bounds

Arrays as lists, with the operations that a language checks: `slice l i j` is `l[i:j]`, and
`blit l i src` is `l` after `l[i:] = src`. Outside the array they have no value. So a
computation that has a value stays inside its arrays.
-/

universe u

namespace Slices

variable {α : Type u} {l src : List α} {i j : Nat}

/-- `l[i:j]` -/
def slice (l : List α) (i j : Nat) : Option (List α) :=
  if i ≤ j ∧ j ≤ l.length then some ((l.take j).drop i) else none

/-- `l` after `l[i:] = src` -/
def blit (l : List α) (i : Nat) (src : List α) : Option (List α) :=
  if i + src.length ≤ l.length then some (l.take i ++ src ++ l.drop (i + src.length)) else none

theorem slice_eq_some (hij : i ≤ j) (hj : j ≤ l.length) : slice l i j = some ((l.take j).drop i) :=
  if_pos ⟨hij, hj⟩

/-- The slice up to the end. -/
theorem slice_length (hi : i ≤ l.length) : slice l i l.length = some (l.drop i) := by
  rw [slice_eq_some hi (Nat.le_refl _), List.take_length]

theorem blit_eq_some (h : i + src.length ≤ l.length) :
    blit l i src = some (l.take i ++ src ++ l.drop (i + src.length)) :=
  if_pos h

/-- A copy to the start of an array that is long enough. -/
theorem blit_zero (h : src.length ≤ l.length) : blit l 0 src = some (src ++ l.drop src.length) := by
  rw [blit_eq_some (by omega), List.take_zero, List.nil_append, Nat.zero_add]

/-- A copy to the end of an array that is as long as it has to be. -/
theorem blit_append {l' : List α} (h : l'.length = src.length) :
    blit (l ++ l') l.length src = some (l ++ src) := by
  have hlen : l.length + src.length = (l ++ l').length := by rw [List.length_append, h]
  rw [blit_eq_some (Nat.le_of_eq hlen), List.take_left, hlen, List.drop_length, List.append_nil]

/-- The slice between two others. -/
theorem slice_mid (l₁ l₂ l₃ : List α) :
    slice (l₁ ++ l₂ ++ l₃) l₁.length (l₁ ++ l₂).length = some l₂ := by
  rw [slice_eq_some (by simp) (by simp), List.take_left, List.drop_left]

/-- A copy over a slice between two others. -/
theorem blit_mid (l₁ l₂ l₃ : List α) (h : l₂.length = src.length) :
    blit (l₁ ++ l₂ ++ l₃) l₁.length src = some (l₁ ++ src ++ l₃) := by
  have hlen : l₁.length + src.length = (l₁ ++ l₂).length := by rw [List.length_append, h]
  rw [blit_eq_some (by simp [h]), hlen, List.drop_left, List.append_assoc l₁, List.take_left]

end Slices
