import Aimsgui.Requests
import Mathlib.Tactic.SplitIfs

/-!
# Where a window ends up that is sized

While a window is sized some of its edges follow the pointer. When the buttons are released
`sweep` puts the corners in order, takes the upper edge down to the screen, puts the corners
in order once more, and makes the rectangle as large as the client wants it to be at least.
`sweep_limits_iff` says what follows: the rectangle is as wide as it should be just if that
takes no edge beyond the numbers that an `int` holds (`Wide`); the same goes for its height,
and the upper edge is on the screen just if the lower edge was not dropped above it, or the
rectangle is made larger at its upper edge after that (`High`).
-/

namespace Aimsgui

/-- An event with a button down takes the edges that move to the pointer. -/
def Edges.follow (move : Edges) (offset : Point) (r : Rect) (p : Pointer) : Rect :=
  ⟨⟨if move.minx then word (p.xy.x - offset.x) else r.min.x,
      if move.miny then word (p.xy.y - offset.y) else r.min.y⟩,
    ⟨if move.maxx then word (p.xy.x - offset.x) else r.max.x,
      if move.maxy then word (p.xy.y - offset.y) else r.max.y⟩⟩

theorem Edges.follow_int32 (move : Edges) (offset : Point) {r : Rect} (h : r.Int32) (p : Pointer) :
    (move.follow offset r p).Int32 := by
  obtain ⟨⟨hx, hy⟩, hX, hY⟩ := h
  simp only [follow, Rect.Int32]
  refine ⟨⟨?_, ?_⟩, ?_, ?_⟩
  all_goals
    split_ifs
    · exact isint_word _
    · assumption

/-- Each event takes the edges to the pointer anew. -/
theorem Edges.follow_follow (move : Edges) (offset : Point) (r : Rect) (p q : Pointer) :
    move.follow offset (move.follow offset r p) q = move.follow offset r q := by
  simp only [follow, Rect.mk.injEq, Point.mk.injEq]
  refine ⟨⟨?_, ?_⟩, ?_, ?_⟩
  all_goals split_ifs <;> rfl

namespace Wm

/-- The rectangle when the buttons are released: it is where the last event took it. -/
def dropped (move : Edges) (offset : Point) (r : Rect) (ptr : List Pointer) : Rect :=
  match (ptr.takeWhile (·.buttons ≠ 0)).getLast? with
  | some p => move.follow offset r p
  | none => r

/-- The rectangle is as large as it should be, and its upper edge is not above the screen. -/
structure Limits (scr : Rect) (min : Point) (r : Rect) : Prop where
  width : min.x ≤ r.dx
  height : min.y ≤ r.dy
  upper : scr.min.y ≤ r.min.y

/-- The rectangle is wide enough, or the edge that makes it so does not leave the range of
`int`. -/
def Wide (move : Edges) (min : Point) (r : Rect) : Prop :=
  min.x ≤ Max.max r.min.x r.max.x - Min.min r.min.x r.max.x ∨
    if move.maxx then Min.min r.min.x r.max.x + min.x < 2 ^ 31
    else -2 ^ 31 ≤ Max.max r.min.x r.max.x - min.x

/-- The lower edge is on the screen, and what is below the upper edge of the screen is high
enough or made so. Or the lower edge is above the screen, too close to it (or so far that the
height is taken for negative), and the upper edge is the one that moves. -/
def High (scr : Rect) (move : Edges) (min : Point) (r : Rect) : Prop :=
  let upper := Max.max (Min.min r.min.y r.max.y) scr.min.y
  let lower := Max.max r.min.y r.max.y
  (scr.min.y ≤ lower ∧ (min.y ≤ lower - upper ∨
    if move.maxy then upper + min.y < 2 ^ 31
    else -2 ^ 31 ≤ lower - min.y ∧ (scr.min.y ≤ lower - min.y ∨ scr.min.y + min.y < 2 ^ 31))) ∨
  lower < scr.min.y ∧ move.maxy = false ∧
    (scr.min.y - lower < min.y ∨ 2 ^ 31 ≤ scr.min.y - lower) ∧
    -2 ^ 31 ≤ scr.min.y - min.y ∧ (min.y = 0 ∨ scr.min.y + min.y < 2 ^ 31)

instance (move : Edges) (min : Point) (r : Rect) : Decidable (Wide move min r) :=
  inferInstanceAs (Decidable (_ ∨ if move.maxx then _ else _))

instance (scr : Rect) (move : Edges) (min : Point) (r : Rect) : Decidable (High scr move min r) :=
  inferInstanceAs (Decidable ((_ ∧ (_ ∨ if move.maxy then _ else _)) ∨ _))

variable {scr r r' : Rect} {offset min : Point} {move : Edges} {ptr : List Pointer}

theorem dropped_cons {p : Pointer} (hp : p.buttons ≠ 0) :
    dropped move offset r (p :: ptr) = dropped move offset (move.follow offset r p) ptr := by
  rw [dropped, dropped, List.takeWhile_cons_of_pos (by simpa using hp), List.getLast?_cons]
  cases (ptr.takeWhile (·.buttons ≠ 0)).getLast? with
  | none => rfl
  | some q => exact (move.follow_follow offset r p q).symm

/-- The loop ends when the buttons are released. -/
theorem sweepLoop_eq (hrelease : ∃ p ∈ ptr, p.buttons = 0) :
    sweepLoop move offset r ptr = some (dropped move offset r ptr) := by
  induction ptr generalizing r with
  | nil =>
    obtain ⟨p, hp, -⟩ := hrelease
    exact absurd hp List.not_mem_nil
  | cons p ptr ih =>
    rw [sweepLoop]
    by_cases hp : p.buttons = 0
    · rw [if_pos hp, dropped, List.takeWhile_cons_of_neg (by simpa using hp)]
      rfl
    · obtain ⟨q, hq, hzero⟩ := hrelease
      have hlater : ∃ q ∈ ptr, q.buttons = 0 := by
        rcases List.mem_cons.mp hq with rfl | hq
        · exact absurd hzero hp
        · exact ⟨q, hq, hzero⟩
      rw [if_neg hp, dropped_cons hp]
      exact ih hlater

theorem dropped_int32 (h : r.Int32) : (dropped move offset r ptr).Int32 := by
  rw [dropped]
  split
  · exact Edges.follow_int32 move offset h _
  · exact h

/-- The upper edge is taken down to the screen. -/
def lowered (scr r : Rect) : Rect :=
  if r.canon.min.y < scr.min.y then Rect.canon ⟨⟨r.canon.min.x, scr.min.y⟩, r.canon.max⟩
  else r.canon

/-- The rectangle is made as wide as it should be. -/
def widened (move : Edges) (min : Point) (r : Rect) : Rect :=
  if r.extent.x < min.x then
    if move.maxx then Rect.mk r.min ⟨word (r.min.x + min.x), r.max.y⟩
    else Rect.mk ⟨word (r.max.x - min.x), r.min.y⟩ r.max
  else r

/-- The rectangle is made as high as it should be. -/
def heightened (scr : Rect) (move : Edges) (min : Point) (r : Rect) : Rect :=
  if r.extent.y < min.y then
    if move.maxy then Rect.mk r.min ⟨r.max.x, word (r.min.y + min.y)⟩
    else if word (r.max.y - min.y) < scr.min.y then
      Rect.mk ⟨r.min.x, scr.min.y⟩ ⟨r.max.x, word (scr.min.y + min.y)⟩
    else Rect.mk ⟨r.min.x, word (r.max.y - min.y)⟩ r.max
  else r

theorem sweep_eq (hrelease : ∃ p ∈ ptr, p.buttons = 0) :
    sweep scr r offset move min ptr =
      some (heightened scr move min (widened move min (lowered scr (dropped move offset r ptr)))) := by
  rw [sweep, sweepLoop_eq hrelease]
  rfl

/-- If the whole rectangle was above the screen, its lower edge has become the upper one. -/
theorem lowered_spec (scr r : Rect) :
    (lowered scr r).min.x = Min.min r.min.x r.max.x ∧
      (lowered scr r).max.x = Max.max r.min.x r.max.x ∧
      (scr.min.y ≤ Max.max r.min.y r.max.y →
        (lowered scr r).min.y = Max.max (Min.min r.min.y r.max.y) scr.min.y ∧
          (lowered scr r).max.y = Max.max r.min.y r.max.y) ∧
      (Max.max r.min.y r.max.y < scr.min.y →
        (lowered scr r).min.y = Max.max r.min.y r.max.y ∧ (lowered scr r).max.y = scr.min.y) := by
  rw [lowered]
  split_ifs with habove
  all_goals
    simp only [Rect.canon] at habove ⊢
    refine ⟨?_, ?_, ?_, ?_⟩
    all_goals split_ifs at habove ⊢ <;> omega

theorem widened_y (move : Edges) (min : Point) (r : Rect) :
    (widened move min r).min.y = r.min.y ∧ (widened move min r).max.y = r.max.y := by
  rw [widened]
  split_ifs <;> exact ⟨rfl, rfl⟩

/-- The edge that moves makes the rectangle wide enough, if it does not leave the range of
`int`. -/
theorem widened_spec (hr : Isint r.min.x ∧ Isint r.max.x) (hle : r.min.x ≤ r.max.x)
    (hmin : Isint min.x) (hpos : 0 ≤ min.x) :
    min.x ≤ (widened move min r).dx ↔
      min.x ≤ r.dx ∨ if move.maxx then r.min.x + min.x < 2 ^ 31 else -2 ^ 31 ≤ r.max.x - min.x := by
  obtain ⟨hlo, hhi⟩ := hr
  unfold Isint at hlo hhi hmin
  have hwidth := @word_cases (r.max.x - r.min.x) (by omega) (by omega)
  have hright := @word_cases (r.min.x + min.x) (by omega) (by omega)
  have hleft := @word_cases (r.max.x - min.x) (by omega) (by omega)
  cases hmaxx : move.maxx
  all_goals
    simp only [widened, hmaxx, Rect.extent, Rect.dx, Bool.false_eq_true, if_true, if_false]
    split_ifs with hnarrow
    · dsimp only
      omega
    · omega

theorem heightened_dx (scr : Rect) (move : Edges) (min : Point) (r : Rect) :
    (heightened scr move min r).dx = r.dx := by
  rw [heightened]
  split_ifs <;> rfl

/-- The rectangle gets higher at the edge that moves; but its upper edge does not leave the
screen again. -/
theorem heightened_spec (hr : Isint r.min.y ∧ Isint r.max.y) (hscr : Isint scr.min.y)
    (hle : r.min.y ≤ r.max.y) (hon : scr.min.y ≤ r.max.y) (hmin : Isint min.y) (hpos : 0 ≤ min.y) :
    (min.y ≤ (heightened scr move min r).dy ∧ scr.min.y ≤ (heightened scr move min r).min.y) ↔
      (scr.min.y ≤ r.min.y ∧ (min.y ≤ r.dy ∨
        if move.maxy then r.min.y + min.y < 2 ^ 31
        else -2 ^ 31 ≤ r.max.y - min.y ∧
          (scr.min.y ≤ r.max.y - min.y ∨ scr.min.y + min.y < 2 ^ 31))) ∨
      r.min.y < scr.min.y ∧ move.maxy = false ∧ (r.dy < min.y ∨ 2 ^ 31 ≤ r.dy) ∧
        -2 ^ 31 ≤ r.max.y - min.y ∧ (scr.min.y ≤ r.max.y - min.y ∨ scr.min.y + min.y < 2 ^ 31) := by
  obtain ⟨hlo, hhi⟩ := hr
  unfold Isint at hlo hhi hmin hscr
  have hheight := @word_cases (r.max.y - r.min.y) (by omega) (by omega)
  have hlower := @word_cases (r.min.y + min.y) (by omega) (by omega)
  have hupper := @word_cases (r.max.y - min.y) (by omega) (by omega)
  have hscreen := @word_cases (scr.min.y + min.y) (by omega) (by omega)
  cases hmaxy : move.maxy
  · simp only [heightened, hmaxy, Rect.extent, Rect.dy, Bool.false_eq_true, if_false, true_and]
    split_ifs with hlow habove
    · dsimp only
      omega
    · dsimp only
      omega
    · omega
  · simp only [heightened, hmaxy, Rect.extent, Rect.dy, if_true, Bool.true_eq_false, false_and,
      and_false, or_false]
    split_ifs with hlow
    · dsimp only
      omega
    · omega

/-- For every window, grab offset, set of edges and pointer path that ends in a release: the
rectangle that `sweep` returns is within the limits just if, where it was dropped, it is wide
enough and high enough or can be made so. -/
theorem sweep_limits_iff (hr : r.Int32) (hscr : Isint scr.min.y)
    (hmin : Isint min.x ∧ Isint min.y) (hpos : 0 ≤ min.x ∧ 0 ≤ min.y)
    (hrelease : ∃ p ∈ ptr, p.buttons = 0) :
    ∃ r', sweep scr r offset move min ptr = some r' ∧
      (Limits scr min r' ↔ Wide move min (dropped move offset r ptr) ∧
        High scr move min (dropped move offset r ptr)) := by
  refine ⟨_, sweep_eq hrelease, ?_⟩
  have hint : (dropped move offset r ptr).Int32 := dropped_int32 hr
  generalize dropped move offset r ptr = d at hint ⊢
  obtain ⟨hleft, hright, hbelow, habove⟩ := lowered_spec scr d
  obtain ⟨hlow, hhigh⟩ := widened_y move min (lowered scr d)
  obtain ⟨⟨hx, hy⟩, hX, hY⟩ := hint
  have hint' : Isint (lowered scr d).min.x ∧ Isint (lowered scr d).max.x := by
    unfold Isint at *
    omega
  -- the width is settled first, and the height does not touch it
  have hwide := @widened_spec (lowered scr d) min move hint' (by omega) hmin.1 hpos.1
  have hint'' : Isint (lowered scr d).min.y ∧ Isint (lowered scr d).max.y := by
    unfold Isint at *
    omega
  have hhigher := @heightened_spec scr (widened move min (lowered scr d)) min move
    (by rwa [hlow, hhigh]) hscr (by omega) (by omega) hmin.2 hpos.2
  have hdx : (lowered scr d).dx = Max.max d.min.x d.max.x - Min.min d.min.x d.max.x := by
    rw [Rect.dx, hleft, hright]
  have hdy : (widened move min (lowered scr d)).dy =
      (lowered scr d).max.y - (lowered scr d).min.y := by
    rw [Rect.dy, hlow, hhigh]
  rw [← heightened_dx scr move min, hdx, hleft, hright] at hwide
  rw [hdy, hlow, hhigh] at hhigher
  have hlimits : Limits scr min (heightened scr move min (widened move min (lowered scr d))) ↔
      Wide move min d ∧
        (min.y ≤ (heightened scr move min (widened move min (lowered scr d))).dy ∧
          scr.min.y ≤ (heightened scr move min (widened move min (lowered scr d))).min.y) :=
    ⟨fun h => ⟨hwide.mp h.width, h.height, h.upper⟩,
      fun h => ⟨hwide.mpr h.1, h.2.1, h.2.2⟩⟩
  rw [hlimits, hhigher, High]
  refine and_congr_right fun _ => ?_
  -- the lower edge is on the screen, or the second canonicalisation has turned the edges round
  rcases le_or_gt scr.min.y (Max.max d.min.y d.max.y) with hon | hover
  · obtain ⟨hmin', hmax'⟩ := hbelow hon
    rw [hmin', hmax']
    cases move.maxy
    · simp only [Bool.false_eq_true, if_false, true_and]
      omega
    · simp only [if_true, Bool.true_eq_false, false_and, and_false, or_false]
      omega
  · obtain ⟨hmin', hmax'⟩ := habove hover
    rw [hmin', hmax']
    cases move.maxy
    · simp only [Bool.false_eq_true, if_false, true_and]
      omega
    · simp only [if_true, Bool.true_eq_false, false_and, and_false, or_false]
      omega

/-- A window reaches thirty pixels above the screen, and its lower edge is dragged ten pixels above
the screen: the window that is made as high as it should be begins there. -/
theorem sweep_above :
    ∃ r', sweep ⟨⟨0, 0⟩, ⟨800, 600⟩⟩ ⟨⟨10, -30⟩, ⟨110, 60⟩⟩ ⟨0, 0⟩ ⟨false, false, true, true⟩
        ⟨20, 20⟩ [⟨1, ⟨110, -10⟩, 0⟩, ⟨0, ⟨110, -10⟩, 1⟩] = some r' ∧
      ¬ Limits ⟨⟨0, 0⟩, ⟨800, 600⟩⟩ ⟨20, 20⟩ r' :=
  ⟨⟨⟨10, -10⟩, ⟨110, 10⟩⟩, rfl, fun h => absurd h.upper (by decide)⟩

/-- The lower edge is dragged above the upper one, and stays on the screen. -/
theorem sweep_limits_inside :
    ∃ r', sweep ⟨⟨0, 0⟩, ⟨800, 600⟩⟩ ⟨⟨10, 10⟩, ⟨110, 60⟩⟩ ⟨0, 0⟩ ⟨false, false, true, true⟩ ⟨20, 20⟩
        [⟨1, ⟨110, 5⟩, 0⟩, ⟨0, ⟨110, 5⟩, 1⟩] = some r' ∧
      Limits ⟨⟨0, 0⟩, ⟨800, 600⟩⟩ ⟨20, 20⟩ r' := by
  obtain ⟨r', hsweep, hiff⟩ := @sweep_limits_iff ⟨⟨0, 0⟩, ⟨800, 600⟩⟩ ⟨⟨10, 10⟩, ⟨110, 60⟩⟩ ⟨0, 0⟩
    ⟨20, 20⟩ ⟨false, false, true, true⟩ [⟨1, ⟨110, 5⟩, 0⟩, ⟨0, ⟨110, 5⟩, 1⟩] (by decide) (by decide) (by decide)
    (by decide) (by decide)
  exact ⟨r', hsweep, hiff.mpr (by decide)⟩

end Wm

end Aimsgui
