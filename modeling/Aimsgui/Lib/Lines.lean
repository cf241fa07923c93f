import Mathlib.Data.List.Count

/-!
# Lines

A line of a text runs up to and with the next separator; the last line may lack it. `first` is
the first line, `rest` what follows, and `drop n` the text without its first `n` lines, which
is also without their `n` separators, as far as there are so many (`count_drop`).
-/

namespace Lines

variable {α : Type} [DecidableEq α] (e : α)

/-- The first line. -/
def first : List α → List α
  | [] => []
  | a :: t => if a = e then [a] else a :: first t

/-- What follows the first line. -/
def rest : List α → List α
  | [] => []
  | a :: t => if a = e then t else rest t

/-- The text from its line `n` on, where the lines are counted from 0. -/
def drop : Nat → List α → List α
  | 0, t => t
  | n + 1, t => drop n (rest e t)

variable {e} {a : α} {t : List α} {n : Nat}

theorem first_append_rest : first e t ++ rest e t = t := by
  induction t with
  | nil => rfl
  | cons a t ih =>
    rw [first, rest]
    split_ifs
    · rfl
    · rw [List.cons_append, ih]

theorem first_eq_nil : first e t = [] ↔ t = [] := by
  cases t with
  | nil => exact Iff.rfl
  | cons a t =>
    rw [first]
    split_ifs <;> simp

theorem length_rest_lt (h : t ≠ []) : (rest e t).length < t.length := by
  have hlength := congrArg List.length (first_append_rest (e := e) (t := t))
  have hfirst := List.length_pos_iff.mpr (mt first_eq_nil.mp h : first e t ≠ [])
  rw [List.length_append] at hlength
  omega

variable (e) in
/-- The lines of a text. -/
def lines (t : List α) : List (List α) :=
  if t = [] then [] else first e t :: lines (rest e t)
termination_by t.length
decreasing_by exact length_rest_lt ‹_›

/-- Each line has its separator, but the last one may lack it. -/
theorem count_rest : (rest e t).count e = t.count e - 1 := by
  induction t with
  | nil => rfl
  | cons a t ih =>
    rw [rest]
    split_ifs with ha
    · rw [ha, List.count_cons_self, Nat.add_sub_cancel]
    · rw [ih, List.count_cons_of_ne ha]

theorem count_drop : (drop e n t).count e = t.count e - n := by
  induction n generalizing t with
  | zero => rfl
  | succ n ih =>
    rw [drop, ih, count_rest]
    omega

end Lines
