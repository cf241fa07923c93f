import Aimsgui.Requests
import Mathlib.Tactic.SplitIfs

/-!
# Where `fitrect` puts a window

`fitrect` should move a window as little as possible: into the screen, no larger than the
screen, and as close to where it was as the screen allows. A window that reaches over the
far edge of the screen and is smaller than the screen is put at the near edge instead (or,
without a size, is made as large as the screen). Besides, a side that is `2 ^ 31` long or
more does not fit into an `int`: the source takes it for negative, and goes wrong where only
one of window and screen has such a side, or where it computes a place left of all places
that an `int` names. `fitrect_fitsBest_iff` says that nothing else goes wrong.
-/

namespace Aimsgui

/-- The corner `min` is the upper left one. -/
def Rect.Canonical (r : Rect) : Prop := r.min.x ≤ r.max.x ∧ r.min.y ≤ r.max.y

instance (r : Rect) : Decidable r.Canonical := inferInstanceAs (Decidable (_ ∧ _))

namespace Wm

/-- `f` lies in `r`, it is as large as `w` as far as `r` has room for that, and on neither
axis there is a place for it that is closer to that of `w`. -/
structure FitsBest (w r f : Rect) : Prop where
  inside : r.min.x ≤ f.min.x ∧ f.max.x ≤ r.max.x ∧ r.min.y ≤ f.min.y ∧ f.max.y ≤ r.max.y
  size : f.size = ⟨min w.dx r.dx, min w.dy r.dy⟩
  closest_x : ∀ x, r.min.x ≤ x → x + f.dx ≤ r.max.x →
    (f.min.x - w.min.x).natAbs ≤ (x - w.min.x).natAbs
  closest_y : ∀ y, r.min.y ≤ y → y + f.dy ≤ r.max.y →
    (f.min.y - w.min.y).natAbs ≤ (y - w.min.y).natAbs

variable {m : Manager} {w r f : Rect}

/-- A window that fits stays where it is. -/
theorem FitsBest.eq_self (h : FitsBest w r f) (hx : r.min.x ≤ w.min.x ∧ w.max.x ≤ r.max.x)
    (hy : r.min.y ≤ w.min.y ∧ w.max.y ≤ r.max.y) : f = w := by
  have hsize := h.size
  have hcx := h.closest_x w.min.x hx.1
  have hcy := h.closest_y w.min.y hy.1
  simp only [Rect.size, Rect.dx, Rect.dy, Point.mk.injEq] at hsize hcx hcy
  apply Rect.eq_of_min_of_size
  · rw [Point.ext_iff']
    omega
  · simp only [Rect.size, Rect.dx, Rect.dy, Point.mk.injEq]
    omega

/-! ## The assignments of `fitrect` -/

/-- The first two: the window is not larger than the screen. -/
def shrunk (w r : Rect) : Rect :=
  let w := if r.extent.x < w.extent.x then
      { w with max := ⟨word (w.min.x + r.extent.x), w.max.y⟩ } else w
  if r.extent.y < w.extent.y then
    { w with max := ⟨w.max.x, word (w.min.y + r.extent.y)⟩ } else w

/-- The next two: a window beyond the far edges. -/
def pulled (size : Point) (w r : Rect) : Rect :=
  let w := if r.max.x < w.max.x then
      Rect.mk ⟨word (r.min.x - size.x), w.min.y⟩ ⟨word (r.max.x - size.x), w.max.y⟩ else w
  if r.max.y < w.max.y then
    Rect.mk ⟨w.min.x, word (r.min.y - size.y)⟩ ⟨w.max.x, word (r.max.y - size.y)⟩ else w

/-- The last two: a window beyond the near edges. -/
def pushed (size : Point) (w r : Rect) : Rect :=
  let w := if w.min.x < r.min.x then
      Rect.mk ⟨r.min.x, w.min.y⟩ ⟨word (r.min.x + size.x), w.max.y⟩ else w
  if w.min.y < r.min.y then
    Rect.mk ⟨w.min.x, r.min.y⟩ ⟨w.max.x, word (r.min.y + size.y)⟩ else w

theorem fitrect_eq (hm : m ≠ .tabswin) (w r : Rect) :
    fitrect m w r = pushed (shrunk w r).extent (pulled (shrunk w r).extent (shrunk w r) r) r := by
  cases m with
  | tabswin => exact absurd rfl hm
  | rowwm | topwin => rfl

/-- Where the interval from `lo` to `hi` ends when it is not longer than that from `slo` to
`shi`. -/
def shrunkEnd (lo hi slo shi : Int) : Int :=
  if word (shi - slo) < word (hi - lo) then word (lo + word (shi - slo)) else hi

/-- What becomes of the interval from `lo` to `hi`, which has that size, beyond the edges. -/
def fitedges (size lo hi slo shi : Int) : Int × Int :=
  let (lo, hi) := if shi < hi then (word (slo - size), word (shi - size)) else (lo, hi)
  if lo < slo then (slo, word (slo + size)) else (lo, hi)

/-- What `fitrect` does to the interval from `lo` to `hi`, to fit it between `slo` and `shi`. -/
def fitaxis (lo hi slo shi : Int) : Int × Int :=
  let hi := shrunkEnd lo hi slo shi
  fitedges (word (hi - lo)) lo hi slo shi

theorem shrunk_eq : shrunk w r =
    ⟨w.min, ⟨shrunkEnd w.min.x w.max.x r.min.x r.max.x,
      shrunkEnd w.min.y w.max.y r.min.y r.max.y⟩⟩ := by
  simp only [shrunk, shrunkEnd, Rect.extent, Rect.dx, Rect.dy]
  by_cases hx : word (r.max.x - r.min.x) < word (w.max.x - w.min.x)
  · by_cases hy : word (r.max.y - r.min.y) < word (w.max.y - w.min.y)
    · simp only [hx, hy, if_true]
    · simp only [hx, hy, if_true, if_false]
  · by_cases hy : word (r.max.y - r.min.y) < word (w.max.y - w.min.y)
    · simp only [hx, hy, if_true, if_false]
    · simp only [hx, hy, if_false]

/-- The two axes are fitted one like the other. -/
theorem fitrect_axes (hm : m ≠ .tabswin) :
    ((fitrect m w r).min.x, (fitrect m w r).max.x) = fitaxis w.min.x w.max.x r.min.x r.max.x ∧
      ((fitrect m w r).min.y, (fitrect m w r).max.y) =
        fitaxis w.min.y w.max.y r.min.y r.max.y := by
  rw [fitrect_eq hm, shrunk_eq]
  simp only [fitaxis, fitedges, pulled, pushed, Rect.extent, Rect.dx, Rect.dy]
  constructor
  · split_ifs <;> rfl
  · split_ifs <;> rfl

/-! ## One axis -/

section Axis

variable {lo hi slo shi : Int}

/-- Where an interval should begin: at the place between `slo` and `shi` closest to `lo`. -/
def closest (lo hi slo shi : Int) : Int := max slo (min lo (shi - min (hi - lo) (shi - slo)))

/-- Where an interval should go. -/
def fitted (lo hi slo shi : Int) : Int × Int :=
  (closest lo hi slo shi, closest lo hi slo shi + min (hi - lo) (shi - slo))

/-- `closest` deserves its name, and no other place does. -/
theorem eq_closest_iff {x : Int} : x = closest lo hi slo shi ↔
    slo ≤ x ∧ x + min (hi - lo) (shi - slo) ≤ shi ∧
      ∀ y, slo ≤ y → y + min (hi - lo) (shi - slo) ≤ shi → (x - lo).natAbs ≤ (y - lo).natAbs := by
  constructor
  · rintro rfl
    simp only [closest]
    refine ⟨by omega, by omega, ?_⟩
    intro y hy hy'
    omega
  · rintro ⟨hx, hx', hclosest⟩
    have h := hclosest (closest lo hi slo shi)
    simp only [closest] at h ⊢
    omega

/-- The interval from `a` to `b` is where it should be. -/
theorem eq_fitted_iff {a b : Int} : (a, b) = fitted lo hi slo shi ↔
    b - a = min (hi - lo) (shi - slo) ∧ slo ≤ a ∧ b ≤ shi ∧
      ∀ y, slo ≤ y → y + (b - a) ≤ shi → (a - lo).natAbs ≤ (y - lo).natAbs := by
  rw [fitted, Prod.mk.injEq]
  constructor
  · rintro ⟨ha, hb⟩
    have hsize : b - a = min (hi - lo) (shi - slo) := by omega
    obtain ⟨hlo, hhi, hclosest⟩ := eq_closest_iff.mp ha
    rw [hsize]
    exact ⟨rfl, hlo, by omega, hclosest⟩
  · rintro ⟨hsize, hlo, hhi, hclosest⟩
    rw [hsize] at hclosest
    have ha : a = closest lo hi slo shi := eq_closest_iff.mpr ⟨hlo, by omega, hclosest⟩
    exact ⟨ha, by omega⟩

/-- The interval from `lo` to `hi` is one that `fitrect` puts where it should go: it does not
reach over the far end, or it is as long as the room and need not be moved from beyond the far
end to a place that is no `int`. Either both lengths are `int`s, or none. -/
def Fittable (lo hi slo shi : Int) : Prop :=
  (hi - lo < 2 ^ 31 ∧ shi - slo < 2 ^ 31 ∧
    (hi ≤ shi ∨ shi - slo ≤ hi - lo ∧ (lo ≤ slo ∨ -2 ^ 31 ≤ slo - (shi - slo)))) ∨
  2 ^ 31 ≤ hi - lo ∧ 2 ^ 31 ≤ shi - slo ∧ (hi ≤ shi ∨ lo ≤ slo)

instance : Decidable (Fittable lo hi slo shi) := inferInstanceAs (Decidable (_ ∨ _))

variable (hlo : Isint lo) (hhi : Isint hi) (hslo : Isint slo) (hshi : Isint shi)

include hlo hhi

/-- Both lengths are `int`s: the interval is cut as it should be. -/
theorem fitaxis_of_short (hle : lo ≤ hi) (hsle : slo ≤ shi) (hsize : hi - lo < 2 ^ 31)
    (hroom : shi - slo < 2 ^ 31) :
    fitaxis lo hi slo shi = fitedges (min (hi - lo) (shi - slo)) lo
      (lo + min (hi - lo) (shi - slo)) slo shi := by
  unfold Isint at hlo hhi
  have hend : shrunkEnd lo hi slo shi = lo + min (hi - lo) (shi - slo) := by
    rw [shrunkEnd, word_of_isint ⟨by omega, hroom⟩, word_of_isint ⟨by omega, hsize⟩]
    split_ifs
    · rw [word_of_isint ⟨by omega, by omega⟩]
      omega
    · omega
  rw [fitaxis, hend, word_of_isint ⟨by omega, by omega⟩]
  congr 1
  omega

/-- The length of the interval is taken for negative, that of the room is not. -/
theorem fitaxis_of_long (hsle : slo ≤ shi) (hsize : 2 ^ 31 ≤ hi - lo) (hroom : shi - slo < 2 ^ 31) :
    fitaxis lo hi slo shi = fitedges (hi - lo - 2 ^ 32) lo hi slo shi := by
  unfold Isint at hlo hhi
  have hword : word (hi - lo) = hi - lo - 2 ^ 32 := by
    rcases @word_cases (hi - lo) (by omega) (by omega) with h | h | h <;> omega
  have hend : shrunkEnd lo hi slo shi = hi := by
    rw [shrunkEnd, hword, word_of_isint ⟨by omega, hroom⟩, if_neg (by omega)]
  rw [fitaxis, hend, hword]

include hslo hshi

/-- The length of the room is taken for negative: whatever comes of the interval, its size is. -/
theorem fitaxis_of_wide (hle : lo ≤ hi) (hroom : 2 ^ 31 ≤ shi - slo) (hsize : hi - lo < 2 ^ 31) :
    ∃ hi', Isint hi' ∧ (hi' = lo + (shi - slo) - 2 ^ 32 ∨ hi' = lo + (shi - slo)) ∧
      fitaxis lo hi slo shi = fitedges (shi - slo - 2 ^ 32) lo hi' slo shi := by
  unfold Isint at hlo hhi hslo hshi
  have hword : word (shi - slo) = shi - slo - 2 ^ 32 := by
    rcases @word_cases (shi - slo) (by omega) (by omega) with h | h | h <;> omega
  have hend : shrunkEnd lo hi slo shi = word (lo + (shi - slo - 2 ^ 32)) := by
    rw [shrunkEnd, hword, word_of_isint ⟨by omega, hsize⟩, if_pos (by omega)]
  have hcases := @word_cases (lo + (shi - slo - 2 ^ 32)) (by omega) (by omega)
  refine ⟨_, isint_word (lo + (shi - slo - 2 ^ 32)), by omega, ?_⟩
  rw [fitaxis, hend]
  congr 1
  rcases hcases with ⟨-, -, heq⟩ | ⟨h, -⟩ | ⟨-, heq⟩
  · rw [heq, word_of_isint ⟨by omega, by omega⟩]
    omega
  · omega
  · rw [heq]
    rcases @word_cases (lo + (shi - slo - 2 ^ 32) + 2 ^ 32 - lo) (by omega) (by omega) with h | h | h
    all_goals omega

/-- Both lengths are taken for negative: the interval is cut as it should be, and its size is
taken for negative. -/
theorem fitaxis_of_both (hsize : 2 ^ 31 ≤ hi - lo) (hroom : 2 ^ 31 ≤ shi - slo) :
    fitaxis lo hi slo shi = fitedges (min (hi - lo) (shi - slo) - 2 ^ 32) lo
      (lo + min (hi - lo) (shi - slo)) slo shi := by
  unfold Isint at hlo hhi hslo hshi
  have hword : word (hi - lo) = hi - lo - 2 ^ 32 := by
    rcases @word_cases (hi - lo) (by omega) (by omega) with h | h | h <;> omega
  have hword' : word (shi - slo) = shi - slo - 2 ^ 32 := by
    rcases @word_cases (shi - slo) (by omega) (by omega) with h | h | h <;> omega
  have hend : shrunkEnd lo hi slo shi = lo + min (hi - lo) (shi - slo) := by
    rw [shrunkEnd, hword, hword']
    split_ifs
    · rcases @word_cases (lo + (shi - slo - 2 ^ 32)) (by omega) (by omega) with h | h | h
      all_goals omega
    · omega
  rw [fitaxis, hend]
  congr 1
  rcases @word_cases (lo + min (hi - lo) (shi - slo) - lo) (by omega) (by omega) with h | h | h
  all_goals omega

/-- Both lengths are `int`s: the interval goes wrong if it is pulled, unless it fills the room. -/
theorem fitaxis_eq_iff_of_short (hle : lo ≤ hi) (hsle : slo ≤ shi) (hsize : hi - lo < 2 ^ 31)
    (hroom : shi - slo < 2 ^ 31) : fitaxis lo hi slo shi = fitted lo hi slo shi ↔
      hi ≤ shi ∨ shi - slo ≤ hi - lo ∧ (lo ≤ slo ∨ -2 ^ 31 ≤ slo - (shi - slo)) := by
  rw [fitaxis_of_short hlo hhi hle hsle hsize hroom]
  unfold Isint at hlo hhi hslo hshi
  have hfar : word (shi - min (hi - lo) (shi - slo)) = shi - min (hi - lo) (shi - slo) :=
    word_of_isint ⟨by omega, by omega⟩
  have hnear : word (slo + min (hi - lo) (shi - slo)) = slo + min (hi - lo) (shi - slo) :=
    word_of_isint ⟨by omega, by omega⟩
  have hpulled := @word_cases (slo - min (hi - lo) (shi - slo)) (by omega) (by omega)
  simp only [fitedges, fitted, closest, hfar, hnear]
  generalize word (slo - min (hi - lo) (shi - slo)) = x at hpulled ⊢
  split_ifs <;> simp only [Prod.mk.injEq] <;> omega

/-- Only the length of the interval is taken for negative: it goes wrong. -/
theorem fitaxis_ne_of_long (hsle : slo ≤ shi) (hsize : 2 ^ 31 ≤ hi - lo)
    (hroom : shi - slo < 2 ^ 31) : fitaxis lo hi slo shi ≠ fitted lo hi slo shi := by
  rw [fitaxis_of_long hlo hhi hsle hsize hroom]
  unfold Isint at hlo hhi hslo hshi
  have hpulled := @word_cases (slo - (hi - lo - 2 ^ 32)) (by omega) (by omega)
  have hpushed := @word_cases (slo + (hi - lo - 2 ^ 32)) (by omega) (by omega)
  simp only [fitedges, fitted, closest, ne_eq]
  generalize word (slo - (hi - lo - 2 ^ 32)) = x at hpulled ⊢
  generalize word (slo + (hi - lo - 2 ^ 32)) = y at hpushed ⊢
  split_ifs <;> simp only [Prod.mk.injEq] <;> omega

/-- Only the length of the room is taken for negative: the interval goes wrong. -/
theorem fitaxis_ne_of_wide (hle : lo ≤ hi) (hroom : 2 ^ 31 ≤ shi - slo) (hsize : hi - lo < 2 ^ 31) :
    fitaxis lo hi slo shi ≠ fitted lo hi slo shi := by
  obtain ⟨hi', hint, hhi', heq⟩ := fitaxis_of_wide hlo hhi hslo hshi hle hroom hsize
  rw [heq]
  unfold Isint at hlo hhi hslo hshi hint
  have hnear := @word_cases (slo - (shi - slo - 2 ^ 32)) (by omega) (by omega)
  have hfar := @word_cases (shi - (shi - slo - 2 ^ 32)) (by omega) (by omega)
  have hpushed := @word_cases (slo + (shi - slo - 2 ^ 32)) (by omega) (by omega)
  simp only [fitedges, fitted, closest, ne_eq]
  generalize word (slo - (shi - slo - 2 ^ 32)) = x at hnear ⊢
  generalize word (shi - (shi - slo - 2 ^ 32)) = z at hfar ⊢
  generalize word (slo + (shi - slo - 2 ^ 32)) = y at hpushed ⊢
  split_ifs <;> simp only [Prod.mk.injEq] <;> omega

/-- Both lengths are taken for negative: the interval goes wrong if it is pulled. -/
theorem fitaxis_eq_iff_of_both (hsize : 2 ^ 31 ≤ hi - lo) (hroom : 2 ^ 31 ≤ shi - slo) :
    fitaxis lo hi slo shi = fitted lo hi slo shi ↔ hi ≤ shi ∨ lo ≤ slo := by
  rw [fitaxis_of_both hlo hhi hslo hshi hsize hroom]
  unfold Isint at hlo hhi hslo hshi
  have hpulled := @word_cases (slo - (min (hi - lo) (shi - slo) - 2 ^ 32)) (by omega) (by omega)
  have hpushed := @word_cases (slo + (min (hi - lo) (shi - slo) - 2 ^ 32)) (by omega) (by omega)
  simp only [fitedges, fitted, closest]
  generalize word (slo - (min (hi - lo) (shi - slo) - 2 ^ 32)) = x at hpulled ⊢
  generalize word (slo + (min (hi - lo) (shi - slo) - 2 ^ 32)) = y at hpushed ⊢
  split_ifs <;> simp only [Prod.mk.injEq] <;> omega

/-- An interval goes where it should just if it is one of those that do. -/
theorem fitaxis_eq_iff (hle : lo ≤ hi) (hsle : slo ≤ shi) :
    fitaxis lo hi slo shi = fitted lo hi slo shi ↔ Fittable lo hi slo shi := by
  rw [Fittable]
  rcases lt_or_ge (hi - lo) (2 ^ 31) with hsize | hsize
  · rcases lt_or_ge (shi - slo) (2 ^ 31) with hroom | hroom
    · rw [fitaxis_eq_iff_of_short hlo hhi hslo hshi hle hsle hsize hroom]
      omega
    · refine iff_of_false (fitaxis_ne_of_wide hlo hhi hslo hshi hle hroom hsize) ?_
      omega
  · rcases lt_or_ge (shi - slo) (2 ^ 31) with hroom | hroom
    · refine iff_of_false (fitaxis_ne_of_long hlo hhi hslo hshi hsle hsize hroom) ?_
      omega
    · rw [fitaxis_eq_iff_of_both hlo hhi hslo hshi hsize hroom]
      omega

end Axis

theorem fitsBest_iff : FitsBest w r f ↔
    (f.min.x, f.max.x) = fitted w.min.x w.max.x r.min.x r.max.x ∧
      (f.min.y, f.max.y) = fitted w.min.y w.max.y r.min.y r.max.y := by
  rw [eq_fitted_iff, eq_fitted_iff]
  constructor
  · rintro ⟨⟨hx, hX, hy, hY⟩, hsize, hcx, hcy⟩
    obtain ⟨hdx, hdy⟩ := Point.mk.inj hsize
    exact ⟨⟨hdx, hx, hX, hcx⟩, hdy, hy, hY, hcy⟩
  · rintro ⟨⟨hdx, hx, hX, hcx⟩, hdy, hy, hY, hcy⟩
    have hsize : f.size = ⟨min w.dx r.dx, min w.dy r.dy⟩ := congrArg₂ Point.mk hdx hdy
    exact ⟨⟨hx, hX, hy, hY⟩, hsize, hcx, hcy⟩

/-- `fitrect` (of `rowwm` and of `topwin`) moves a window as little as possible just if both
axes are such that it does. -/
theorem fitrect_fitsBest_iff (hm : m ≠ .tabswin) (hwint : w.Int32) (hrint : r.Int32)
    (hw : w.Canonical) (hr : r.Canonical) :
    FitsBest w r (fitrect m w r) ↔
      Fittable w.min.x w.max.x r.min.x r.max.x ∧ Fittable w.min.y w.max.y r.min.y r.max.y := by
  rw [fitsBest_iff, (fitrect_axes hm).1, (fitrect_axes hm).2]
  exact and_congr (fitaxis_eq_iff hwint.1.1 hwint.2.1 hrint.1.1 hrint.2.1 hw.1 hr.1)
    (fitaxis_eq_iff hwint.1.2 hwint.2.2 hrint.1.2 hrint.2.2 hw.2 hr.2)

/-- A window over the lower edge of the screen, and as wide as the screen. -/
theorem fitrect_fitsBest_low :
    ¬ FitsBest ⟨⟨0, 390⟩, ⟨196, 410⟩⟩ ⟨⟨0, 0⟩, ⟨196, 400⟩⟩
      (fitrect .rowwm ⟨⟨0, 390⟩, ⟨196, 410⟩⟩ ⟨⟨0, 0⟩, ⟨196, 400⟩⟩) :=
  fun h => absurd ((fitrect_fitsBest_iff (by decide) (by decide) (by decide) (by decide)
    (by decide)).mp h) (by decide)

/-- A window of 20 by 10 that reaches over the right edge of the screen goes to the left one,
and not where it would just fit. -/
theorem fitrect_right_edge :
    Rect.Canonical ⟨⟨90, 0⟩, ⟨110, 10⟩⟩ ∧ Rect.Canonical ⟨⟨0, 0⟩, ⟨100, 100⟩⟩ ∧
      fitrect .rowwm ⟨⟨90, 0⟩, ⟨110, 10⟩⟩ ⟨⟨0, 0⟩, ⟨100, 100⟩⟩ = ⟨⟨0, 0⟩, ⟨20, 10⟩⟩ ∧
      ¬ FitsBest ⟨⟨90, 0⟩, ⟨110, 10⟩⟩ ⟨⟨0, 0⟩, ⟨100, 100⟩⟩
        (fitrect .rowwm ⟨⟨90, 0⟩, ⟨110, 10⟩⟩ ⟨⟨0, 0⟩, ⟨100, 100⟩⟩) := by
  refine ⟨by decide, by decide, by decide, ?_⟩
  rw [fitsBest_iff]
  decide

end Wm

end Aimsgui
