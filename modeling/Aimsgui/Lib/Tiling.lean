import Mathlib.Algebra.Group.Basic
import Mathlib.Order.Basic
import Mathlib.Data.List.Basic

/-!
# Intervals that follow one another

`Tiles lo l hi`: the intervals of the list `l` follow one another without gap from `lo` to
`hi`. `stack` piles objects of given heights; when only some of the objects count, their
intervals tile exactly if what lies between them adds up to nothing (`tiles_stack_iff`).
-/

namespace Tiling

universe u v

variable {G : Type u} {α : Type v}

/-- Each interval starts where the one before it ends, the first one at `lo`. -/
def Tiles : G → List (G × G) → G → Prop
  | lo, [], hi => lo = hi
  | lo, i :: l, hi => i.1 = lo ∧ Tiles i.2 l hi

variable {lo hi : G} {l l₁ l₂ : List (G × G)} {i : G × G}

/-- A tiling can be cut anywhere. -/
theorem tiles_append_iff :
    Tiles lo (l₁ ++ l₂) hi ↔ ∃ mid, Tiles lo l₁ mid ∧ Tiles mid l₂ hi := by
  induction l₁ generalizing lo with
  | nil => simp [Tiles]
  | cons i l₁ ih => simp [Tiles, ih, and_assoc]

/-- An empty interval can be taken out of a tiling. -/
theorem Tiles.remove (h : Tiles lo (l₁ ++ i :: l₂) hi) (hi' : i.1 = i.2) :
    Tiles lo (l₁ ++ l₂) hi := by
  obtain ⟨mid, h₁, hmid, h₂⟩ := tiles_append_iff.mp h
  refine tiles_append_iff.mpr ⟨mid, h₁, ?_⟩
  rwa [← hmid, hi']

section Order

variable [Preorder G]

/-- Every interval of a tiling lies below its start. -/
theorem Tiles.le_start (h : Tiles lo l hi) (hle : ∀ i ∈ l, i.1 ≤ i.2) : ∀ i ∈ l, lo ≤ i.1 := by
  induction l generalizing lo with
  | nil => exact fun _ hn => absurd hn List.not_mem_nil
  | cons i l ih =>
    obtain ⟨hi₁, htail⟩ := h
    intro j hj
    rcases List.mem_cons.mp hj with rfl | hj
    · exact hi₁.ge
    · have hstart := ih htail (fun k hk => hle k (List.mem_cons_of_mem i hk)) j hj
      exact hi₁ ▸ (hle i List.mem_cons_self).trans hstart

/-- The intervals of a tiling do not overlap. -/
theorem Tiles.pairwise (h : Tiles lo l hi) (hle : ∀ i ∈ l, i.1 ≤ i.2) :
    l.Pairwise fun i j => i.2 ≤ j.1 := by
  induction l generalizing lo with
  | nil => exact List.Pairwise.nil
  | cons i l ih =>
    have hle' : ∀ j ∈ l, j.1 ≤ j.2 := fun j hj => hle j (List.mem_cons_of_mem i hj)
    exact List.Pairwise.cons (h.2.le_start hle') (ih h.2 hle')

end Order

section Stack

variable [AddGroup G] (height : α → G) (p : α → Prop) [DecidablePred p]

/-- Pile the objects on each other, from `y` on: each one with its interval. -/
def stack : G → List α → List (α × G × G)
  | _, [] => []
  | y, a :: l => (a, y, y + height a) :: stack (y + height a) l

/-- Where the next object comes to lie on the pile. -/
def pile : G → List α → G
  | y, [] => y
  | y, a :: l => pile (y + height a) l

theorem stack_append (y : G) (l l' : List α) :
    stack height y (l ++ l') = stack height y l ++ stack height (pile height y l) l' := by
  induction l generalizing y with
  | nil => rfl
  | cons a l ih => rw [List.cons_append, stack, stack, ih, List.cons_append, pile]

/-- The heights of the other objects above each one that counts, `d` of it so far, add up
to nothing. -/
def Level : G → List α → Prop
  | _, [] => True
  | d, a :: l => if p a then d = 0 ∧ Level 0 l else Level (d + height a) l

/-- `Level` is decided by going through the list once. -/
def decidableLevel [DecidableEq G] (d : G) : (l : List α) → Decidable (Level height p d l)
  | [] => isTrue trivial
  | a :: l =>
    have : Decidable (Level height p 0 l) := decidableLevel 0 l
    have : Decidable (Level height p (d + height a) l) := decidableLevel (d + height a) l
    inferInstanceAs (Decidable (if p a then d = 0 ∧ Level height p 0 l
      else Level height p (d + height a) l))

instance [DecidableEq G] (d : G) (l : List α) : Decidable (Level height p d l) :=
  decidableLevel height p d l

/-- The objects that count tile exactly when nothing between them counts. -/
theorem tiles_stack_iff (y d : G) (l : List α) :
    (∃ hi, Tiles y (((stack height (y + d) l).filter (p ·.1)).map Prod.snd) hi) ↔
      Level height p d l := by
  induction l generalizing y d with
  | nil => simp [stack, Tiles, Level]
  | cons a l ih =>
    rw [stack, Level]
    split_ifs with ha
    · rw [List.filter_cons_of_pos (by simpa using ha), List.map_cons]
      simp only [Tiles, add_eq_left, exists_and_left]
      have hrest := ih (y + d + height a) 0
      rw [add_zero] at hrest
      rw [hrest]
    · rw [List.filter_cons_of_neg (by simpa using ha), add_assoc]
      exact ih y (d + height a)

end Stack

end Tiling
