import Aimsgui.Requests
import Mathlib.Tactic.SplitIfs

/-!
# Where a dragged window ends up

While a window is dragged it is shown at clamped origins, so that a part of it stays on the
screen. When the buttons are released `dragwin` computes the new rectangle from the last
event once more, and does not clamp it this time. `drag_reachable_iff` says what follows:
the window stays reachable just if it is released where no clamping was needed.

Coordinates are integers here and `int`s in the source. What a client names as the offset may
be any `int`, so that the pointer less the offset is what is left of it in an `int` (`diff`).
`dx` and the margins could wrap only for a window wider than 2^31, or a screen within ten pixels
of the largest `int`, and such ones cannot be created; the far edges of a window that is released
less than its size away from the largest `int` would wrap, too.
-/

namespace Aimsgui

/-- The point at which a window is shown. -/
def Send.shown : Send → Option Point
  | .origin _ _ org => some org
  | _ => none

namespace Wm

/-- Where a window was shown last. -/
def lastshown (out : List Send) : Option Point := (out.filterMap Send.shown).getLast?

theorem lastshown_origin (out : List Send) (c : Cid) (tag : String) (org : Point) :
    lastshown (out ++ [.origin c tag org]) = some org := by
  simp [lastshown, Send.shown]

theorem lastshown_ptr (out : List Send) (c : Cid) (p : Option Pointer) :
    lastshown (out ++ [.ptr c p]) = lastshown out := by
  simp [lastshown, Send.shown]

/-- How many columns of the screen a window covers. -/
def overlap (scr r : Rect) : Int := min r.max.x scr.max.x - max r.min.x scr.min.x

/-- A window that can be reached: its upper edge is on the screen, ten pixels above the lower
edge of the screen or higher, and ten of its columns are, or all it has. -/
structure Reachable (scr r : Rect) : Prop where
  upper : scr.min.y ≤ r.min.y
  lower : r.min.y ≤ scr.max.y - 10
  across : min 10 r.dx ≤ overlap scr r

variable {w w' : Wm} {c : Cid} {win : Window} {off : Point} {ptr : List Pointer} {p : Pointer}
  {r : Rect}

/-- The loop ends with the first event without a button, and has shown the window there. -/
theorem follow_spec (h : follow c win off w ptr = some (w', p)) :
    ptr.find? (·.buttons = 0) = some p ∧ w'.screen = w.screen ∧
      lastshown w'.out = some (clamp w.screen win.r (p.xy.diff off)) := by
  induction ptr generalizing w with
  | nil => cases h
  | cons q ptr ih =>
    rw [follow] at h
    split_ifs at h with hq
    · obtain ⟨rfl, rfl⟩ := h
      exact ⟨List.find?_cons_of_pos (by simpa using hq), rfl, lastshown_origin _ _ _ _⟩
    · rw [List.find?_cons_of_neg (by simpa using hq)]
      have hrest := ih h
      exact hrest

/-- What `dragwin` asks `reshape` for. -/
theorem drag_spec (h : w.drag c win off ptr = some (w', .ok r)) :
    ∃ p, ptr.find? (·.buttons = 0) = some p ∧ r = Rect.ofSize (p.xy.diff off) win.r.size ∧
      lastshown w'.out = some (clamp w.screen win.r (p.xy.diff off)) := by
  rw [drag] at h
  split_ifs at h
  · cases h
  · split at h
    · cases h
    · rename_i w₁ p hfollow
      obtain ⟨hp, -, hshown⟩ := follow_spec hfollow
      obtain ⟨rfl, hr⟩ := Prod.mk.inj (Option.some.inj h)
      split_ifs at hr
      obtain rfl := Except.ok.inj hr
      exact ⟨p, hp, rfl, (lastshown_ptr _ _ _).trans hshown⟩

/-- The window is so wide, and the screen so narrow, that the whole screen is not ten pixels
of the window. -/
def Narrow (scr r : Rect) : Prop := r.min.x < scr.min.x ∧ scr.max.x < r.max.x ∧ scr.dx < 10

instance (scr r : Rect) : Decidable (Narrow scr r) := inferInstanceAs (Decidable (_ ∧ _ ∧ _))

/-- Where no clamping is needed a window can be reached, and nowhere else is it shown at its
own origin. -/
theorem reachable_iff {scr r₀ : Rect} {org : Point} (hr : r = Rect.ofSize org r₀.size) :
    Reachable scr r ∧ clamp scr r₀ org = r.min ↔ clamp scr r₀ org = org ∧ ¬ Narrow scr r := by
  have hmin : r.min = org := by rw [hr, Rect.ofSize_min]
  have hmax : r.max.x = org.x + r₀.dx := by rw [hr]; rfl
  rw [hmin, and_comm]
  refine and_congr_right fun hclamp => ?_
  have hx := congrArg Point.x hclamp
  have hy := congrArg Point.y hclamp
  simp only [clamp] at hx hy
  have hreach : Reachable scr r ↔
      (scr.min.y ≤ r.min.y ∧ r.min.y ≤ scr.max.y - 10) ∧ min 10 r.dx ≤ overlap scr r :=
    ⟨fun h => ⟨⟨h.upper, h.lower⟩, h.across⟩, fun h => ⟨h.1.1, h.1.2, h.2⟩⟩
  rw [hreach, Narrow, overlap]
  simp only [Rect.dx, hmin, hmax] at hx ⊢
  split_ifs at hx hy <;> omega

/-- For every window, grab offset and pointer path: the rectangle that `dragwin` asks
`reshape` for begins where the window was shown last, and can be reached, just if the place
where the buttons are released needs no clamping (and the screen is not too narrow). -/
theorem drag_reachable_iff (h : w.drag c win off ptr = some (w', .ok r)) :
    ∃ p, ptr.find? (·.buttons = 0) = some p ∧
      (Reachable w.screen r ∧ lastshown w'.out = some r.min ↔
        clamp w.screen win.r (p.xy.diff off) = p.xy.diff off ∧
          ¬ Narrow w.screen (Rect.ofSize (p.xy.diff off) win.r.size)) := by
  obtain ⟨p, hp, rfl, hshown⟩ := drag_spec h
  refine ⟨p, hp, ?_⟩
  rw [hshown, Option.some_inj]
  exact reachable_iff rfl

/-- A window is dragged from the upper left corner of a screen and released above the screen:
it is shown at the upper edge, and asked to be thirty pixels above it. -/
theorem drag_above :
    ∃ w', drag { screen := ⟨⟨0, 0⟩, ⟨196, 400⟩⟩, buttons := 1 } 0
        ⟨".", ⟨⟨0, 0⟩, ⟨196, 20⟩⟩, some ⟨0, ⟨⟨0, 0⟩, ⟨196, 20⟩⟩⟩⟩ ⟨10, 10⟩
        [⟨1, ⟨10, 5⟩, 0⟩, ⟨0, ⟨10, -20⟩, 1⟩] = some (w', .ok ⟨⟨0, -30⟩, ⟨196, -10⟩⟩) ∧
      lastshown w'.out = some ⟨0, 0⟩ ∧
        ¬ Reachable ⟨⟨0, 0⟩, ⟨196, 400⟩⟩ ⟨⟨0, -30⟩, ⟨196, -10⟩⟩ :=
  ⟨_, rfl, by decide, fun h => absurd h.upper (by decide)⟩

/-- The same window is dragged down, and released on the screen. -/
theorem drag_reachable_inside :
    ∃ w' r, drag { screen := ⟨⟨0, 0⟩, ⟨196, 400⟩⟩, buttons := 1 } 0
        ⟨".", ⟨⟨0, 0⟩, ⟨196, 20⟩⟩, some ⟨0, ⟨⟨0, 0⟩, ⟨196, 20⟩⟩⟩⟩ ⟨10, 10⟩
        [⟨1, ⟨10, -20⟩, 0⟩, ⟨0, ⟨10, 60⟩, 1⟩] = some (w', .ok r) ∧
      Reachable ⟨⟨0, 0⟩, ⟨196, 400⟩⟩ r ∧ lastshown w'.out = some r.min := by
  refine ⟨_, ⟨⟨0, 50⟩, ⟨196, 70⟩⟩, rfl, ?_⟩
  obtain ⟨p, hp, hiff⟩ := @drag_reachable_iff
    { screen := ⟨⟨0, 0⟩, ⟨196, 400⟩⟩, buttons := 1 } _ 0
    ⟨".", ⟨⟨0, 0⟩, ⟨196, 20⟩⟩, some ⟨0, ⟨⟨0, 0⟩, ⟨196, 20⟩⟩⟩⟩ ⟨10, 10⟩
    [⟨1, ⟨10, -20⟩, 0⟩, ⟨0, ⟨10, 60⟩, 1⟩] ⟨⟨0, 50⟩, ⟨196, 70⟩⟩ rfl
  obtain rfl : p = ⟨0, ⟨10, 60⟩, 1⟩ := (Option.some.inj hp).symm
  exact hiff.mpr (by decide)

end Wm

end Aimsgui
