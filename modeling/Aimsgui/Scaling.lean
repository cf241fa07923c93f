import Aimsgui.Lib.FixedPoint
import Aimsgui.Lib.Run
import Aimsgui.Listing
import Aimsgui.Rows

/-!
# Scaling windows to a new screen

When the manager's own window gets another size, `reshaped` (in `rowwm`
`reshape_floating`) scales every window from the old screen to the new one, in units of a
thousandth. On screens whose sides are at most two million pixels this never overflows, and
the windows stay inside the screen and apart (`reshaped_scales`).
-/

namespace Aimsgui

open FixedPoint Words Transition

namespace Rect

variable {r s : Rect}

/-- Both sides are non-negative and at most two million pixels long. -/
def Sides (r : Rect) : Prop := (0 ≤ r.dx ∧ r.dx ≤ 2000000) ∧ 0 ≤ r.dy ∧ r.dy ≤ 2000000

/-- `r` is a canonical rectangle inside `s`. -/
def Inside (s r : Rect) : Prop :=
  (s.min.x ≤ r.min.x ∧ r.min.x ≤ r.max.x ∧ r.max.x ≤ s.max.x) ∧
    s.min.y ≤ r.min.y ∧ r.min.y ≤ r.max.y ∧ r.max.y ≤ s.max.y

/-- `Rect.Xrect` of the Draw module: the two rectangles overlap. -/
def Xrect (r s : Rect) : Prop :=
  r.min.x < s.max.x ∧ s.min.x < r.max.x ∧ r.min.y < s.max.y ∧ s.min.y < r.max.y

/-- No point lies in both rectangles. -/
def Apart (r s : Rect) : Prop := ∀ p, ¬ (r.contains p ∧ s.contains p)

instance (r : Rect) : Decidable r.Sides := inferInstanceAs (Decidable (_ ∧ _))
instance (s r : Rect) : Decidable (s.Inside r) := inferInstanceAs (Decidable (_ ∧ _))
instance (r s : Rect) : Decidable (r.Xrect s) := inferInstanceAs (Decidable (_ ∧ _))

/-- Rectangles that overlap have a point in common exactly if none of them is empty. -/
theorem apart_iff : r.Apart s ↔
    ¬ (r.Xrect s ∧ (r.min.x < r.max.x ∧ r.min.y < r.max.y) ∧
      s.min.x < s.max.x ∧ s.min.y < s.max.y) := by
  constructor
  · rintro h ⟨⟨hrs, hsr, hrs', hsr'⟩, ⟨hr, hr'⟩, hs, hs'⟩
    -- the upper left corner of the intersection
    apply h ⟨if r.min.x < s.min.x then s.min.x else r.min.x,
      if r.min.y < s.min.y then s.min.y else r.min.y⟩
    simp only [contains, decide_eq_true_eq]
    constructor
    all_goals
      split_ifs
      all_goals omega
  · rintro h p ⟨hr, hs⟩
    rw [contains, decide_eq_true_eq] at hr hs
    apply h
    rw [Xrect]
    omega

end Rect

namespace Wm

variable {m : Manager} {env : Env} {oldr newr r r' : Rect} {p q : Point}

/-! ## The computation on words -/

/-- `mx` and `my` of the source as computed with words of 32 bits: without a value if an
operation overflows or divides by zero. -/
def ratio32 (oldlo oldhi newlo newhi : Int) : Option Int := do
  let d ← sub 32 oldhi oldlo
  if 0 < d then
    let d' ← sub 32 newhi newlo
    factorIn 32 Fix d d'
  else some Fix

/-- A coordinate of a window: `subpt`, the scaling, `addpt`. -/
def coord32 (oldlo k newlo x : Int) : Option Int := do
  let x ← sub 32 x oldlo
  let x ← scaleIn 32 Fix k x
  add 32 x newlo

/-- The rectangle that `scaled` gives, as computed with words of 32 bits. -/
def scaled32 (oldr newr r : Rect) : Option Rect := do
  let mx ← ratio32 oldr.min.x oldr.max.x newr.min.x newr.max.x
  let my ← ratio32 oldr.min.y oldr.max.y newr.min.y newr.max.y
  let minx ← coord32 oldr.min.x mx newr.min.x r.min.x
  let miny ← coord32 oldr.min.y my newr.min.y r.min.y
  let maxx ← coord32 oldr.min.x mx newr.min.x r.max.x
  let maxy ← coord32 oldr.min.y my newr.min.y r.max.y
  return ⟨⟨minx, miny⟩, ⟨maxx, maxy⟩⟩

/-- Where the scaling puts a corner of a window. -/
def corner (oldr newr : Rect) (p : Point) : Point :=
  ⟨scale Fix oldr.dx newr.dx (p.x - oldr.min.x) + newr.min.x,
    scale Fix oldr.dy newr.dy (p.y - oldr.min.y) + newr.min.y⟩

theorem scaled_eq (oldr newr r : Rect) :
    scaled oldr newr r = ⟨corner oldr newr r.min, corner oldr newr r.max⟩ := rfl

theorem fix_pos : 0 < Fix := by decide

/-- The product that a side of the new screen is multiplied into is a word. -/
theorem fits_side {d : Int} (h : 0 ≤ d ∧ d ≤ 2000000) : Fits 32 (d * Fix) := by
  rw [Fits, Fix]
  omega

theorem fits_of_side {d x : Int} (h : d ≤ 2000000) (hx : 0 ≤ x ∧ x ≤ d) : Fits 32 x := by
  rw [Fits]
  omega

theorem ratio32_eq {oldlo oldhi newlo newhi : Int} (hold : 0 ≤ oldhi - oldlo ∧ oldhi - oldlo ≤ 2000000)
    (hnew : 0 ≤ newhi - newlo ∧ newhi - newlo ≤ 2000000) :
    ratio32 oldlo oldhi newlo newhi = some (factor Fix (oldhi - oldlo) (newhi - newlo)) := by
  have hsub : sub 32 oldhi oldlo = some (oldhi - oldlo) :=
    sub_eq_some (fits_of_side hold.2 ⟨hold.1, le_rfl⟩)
  have hsub' : sub 32 newhi newlo = some (newhi - newlo) :=
    sub_eq_some (fits_of_side hnew.2 ⟨hnew.1, le_rfl⟩)
  have hfactor : factorIn 32 Fix (oldhi - oldlo) (newhi - newlo) =
      some (factor Fix (oldhi - oldlo) (newhi - newlo)) :=
    factorIn_eq (fits_side hnew) (mul_nonneg hnew.1 fix_pos.le)
  rw [ratio32, hsub]
  simp only [Option.bind_eq_bind, Option.bind_some, hsub', hfactor]
  split_ifs with hd
  · rfl
  · rw [factor, if_neg hd]

theorem coord32_eq {oldlo oldhi newlo newhi x : Int} (hold : oldhi - oldlo ≤ 2000000)
    (hnew : 0 ≤ newhi - newlo ∧ newhi - newlo ≤ 2000000) (hlo : Isint newlo) (hhi : Isint newhi)
    (hx : oldlo ≤ x) (hx' : x ≤ oldhi) :
    coord32 oldlo (factor Fix (oldhi - oldlo) (newhi - newlo)) newlo x =
      some (scale Fix (oldhi - oldlo) (newhi - newlo) (x - oldlo) + newlo) := by
  have hle : 0 ≤ x - oldlo ∧ x - oldlo ≤ oldhi - oldlo := by omega
  have hmem := scale_mem fix_pos hnew.1 hle.1 hle.2
  have hsub : sub 32 x oldlo = some (x - oldlo) := sub_eq_some (fits_of_side hold hle)
  have hscale : scaleIn 32 Fix (factor Fix (oldhi - oldlo) (newhi - newlo)) (x - oldlo) =
      some (scale Fix (oldhi - oldlo) (newhi - newlo) (x - oldlo)) :=
    scaleIn_eq fix_pos hnew.1 (fits_side hnew) hle.1 hle.2
  have hadd : Fits 32 (scale Fix (oldhi - oldlo) (newhi - newlo) (x - oldlo) + newlo) :=
    Fits.of_mem hlo hhi (by omega) (by omega)
  rw [coord32, hsub]
  simp only [Option.bind_eq_bind, Option.bind_some, hscale]
  exact add_eq_some hadd

/-- On screens of that size nothing overflows, and nothing is divided by zero. -/
theorem scaled32_eq (hold : oldr.Sides) (hnew : newr.Sides) (hint : newr.Int32)
    (h : oldr.Inside r) : scaled32 oldr newr r = some (scaled oldr newr r) := by
  obtain ⟨⟨hx₁, hx₂, hx₃⟩, hy₁, hy₂, hy₃⟩ := h
  obtain ⟨⟨hlox, hloy⟩, hhix, hhiy⟩ := hint
  have hminx := coord32_eq hold.1.2 hnew.1 hlox hhix hx₁ (hx₂.trans hx₃)
  have hminy := coord32_eq hold.2.2 hnew.2 hloy hhiy hy₁ (hy₂.trans hy₃)
  have hmaxx := coord32_eq hold.1.2 hnew.1 hlox hhix (hx₁.trans hx₂) hx₃
  have hmaxy := coord32_eq hold.2.2 hnew.2 hloy hhiy (hy₁.trans hy₂) hy₃
  rw [scaled32, ratio32_eq hold.1 hnew.1, ratio32_eq hold.2 hnew.2]
  simp only [Option.bind_eq_bind, Option.bind_some, hminx, hminy, hmaxx, hmaxy]
  rfl

/-! ## Where the windows go -/

theorem corner_mono_x (hnew : newr.Sides) (h : p.x ≤ q.x) :
    (corner oldr newr p).x ≤ (corner oldr newr q).x := by
  apply Int.add_le_add_right
  apply scale_mono fix_pos hnew.1.1
  omega

theorem corner_mono_y (hnew : newr.Sides) (h : p.y ≤ q.y) :
    (corner oldr newr p).y ≤ (corner oldr newr q).y := by
  apply Int.add_le_add_right
  apply scale_mono fix_pos hnew.2.1
  omega

/-- A window inside the old screen is scaled to one inside the new screen. -/
theorem scaled_inside (hnew : newr.Sides) (h : oldr.Inside r) :
    newr.Inside (scaled oldr newr r) := by
  obtain ⟨⟨hx₁, hx₂, hx₃⟩, hy₁, hy₂, hy₃⟩ := h
  have hminx : 0 ≤ scale Fix oldr.dx newr.dx (r.min.x - oldr.min.x) ∧ _ :=
    scale_mem fix_pos hnew.1.1 (by omega) (Int.sub_le_sub_right (hx₂.trans hx₃) _)
  have hmaxx : _ ∧ scale Fix oldr.dx newr.dx (r.max.x - oldr.min.x) ≤ newr.dx :=
    scale_mem fix_pos hnew.1.1 (by omega) (Int.sub_le_sub_right hx₃ _)
  have hminy : 0 ≤ scale Fix oldr.dy newr.dy (r.min.y - oldr.min.y) ∧ _ :=
    scale_mem fix_pos hnew.2.1 (by omega) (Int.sub_le_sub_right (hy₂.trans hy₃) _)
  have hmaxy : _ ∧ scale Fix oldr.dy newr.dy (r.max.y - oldr.min.y) ≤ newr.dy :=
    scale_mem fix_pos hnew.2.1 (by omega) (Int.sub_le_sub_right hy₃ _)
  have hx : (corner oldr newr r.min).x ≤ (corner oldr newr r.max).x := corner_mono_x hnew hx₂
  have hy : (corner oldr newr r.min).y ≤ (corner oldr newr r.max).y := corner_mono_y hnew hy₂
  rw [scaled_eq]
  simp only [Rect.Inside, corner, Rect.dx, Rect.dy] at *
  omega

/-- Windows that do not overlap do not overlap when they are scaled. -/
theorem xrect_of_scaled (hnew : newr.Sides)
    (h : (scaled oldr newr r).Xrect (scaled oldr newr r')) : r.Xrect r' := by
  obtain ⟨h₁, h₂, h₃, h₄⟩ := h
  refine ⟨?_, ?_, ?_, ?_⟩
  · exact lt_of_not_ge fun hle => h₁.not_ge (corner_mono_x hnew hle)
  · exact lt_of_not_ge fun hle => h₂.not_ge (corner_mono_x hnew hle)
  · exact lt_of_not_ge fun hle => h₃.not_ge (corner_mono_y hnew hle)
  · exact lt_of_not_ge fun hle => h₄.not_ge (corner_mono_y hnew hle)

/-- Nor does the scaling make anything of an empty window. -/
theorem nonempty_of_scaled (hnew : newr.Sides)
    (h : (scaled oldr newr r).min.x < (scaled oldr newr r).max.x ∧
      (scaled oldr newr r).min.y < (scaled oldr newr r).max.y) :
    r.min.x < r.max.x ∧ r.min.y < r.max.y := by
  constructor
  · exact lt_of_not_ge fun hle => h.1.not_ge (corner_mono_x hnew hle)
  · exact lt_of_not_ge fun hle => h.2.not_ge (corner_mono_y hnew hle)

theorem scaled_apart (hnew : newr.Sides) (h : r.Apart r') :
    (scaled oldr newr r).Apart (scaled oldr newr r') := by
  rw [Rect.apart_iff] at h ⊢
  rintro ⟨hx, hr, hr'⟩
  exact h ⟨xrect_of_scaled hnew hx, nonempty_of_scaled hnew hr, nonempty_of_scaled hnew hr'⟩

/-! ## The loops -/

/-- What a loop does to a window: `rowwm` leaves the rows alone. -/
def Carried (m : Manager) (oldr newr : Rect) (win win' : Window) : Prop :=
  win'.tag = win.tag ∧
    win'.r = if m = .rowwm ∧ win.tag = "." then win.r else scaled oldr newr win.r

/-- The place of a window in `reshapeFloating`. -/
def refloat (m : Manager) (oldr newr : Rect) (_ : Unit) (win : Window) : Unit × Option Rect :=
  ((), if m = .rowwm ∧ win.tag = "." then none else some (scaled oldr newr win.r))

theorem reshapeFloating_eq (w : Wm) : w.reshapeFloating m env oldr newr =
    (replaceAll env newr (refloat m oldr newr) w () w.order).1 := rfl

/-- The inner loop scales all windows of a client. -/
theorem replaceWins_carried (c : Cid) (w : Wm) (wins : List Window) :
    List.Forall₂ (Carried m oldr newr) wins
      (replaceWins env newr (refloat m oldr newr) c w () wins).2.2 := by
  induction wins generalizing w with
  | nil => exact .nil
  | cons win wins ih =>
    by_cases hrow : m = .rowwm ∧ win.tag = "."
    · have hplace : refloat m oldr newr () win = ((), none) := by rw [refloat, if_pos hrow]
      rw [replaceWins, hplace]
      refine .cons ⟨rfl, ?_⟩ (ih _)
      rw [if_pos hrow]
    · have hplace : refloat m oldr newr () win = ((), some (scaled oldr newr win.r)) := by
        rw [refloat, if_neg hrow]
      rw [replaceWins, hplace]
      refine .cons ⟨rfl, ?_⟩ (ih _)
      rw [if_neg hrow]

theorem outline_carried {wins wins' : List Window}
    (h : List.Forall₂ (Carried m oldr newr) wins wins') :
    wins'.map outline = (wins.map outline).map fun x =>
      (x.1, if m = .rowwm ∧ x.1 = "." then x.2 else scaled oldr newr x.2) := by
  induction h with
  | nil => rfl
  | cons hwin _ ih =>
    obtain ⟨htag, hr⟩ := hwin
    rw [List.map_cons, ih, outline, htag, hr]
    rfl

end Wm

namespace Session

open Wm

variable {m : Manager} {env : Env} {oldr newr screen : Rect} {s : Session} {es : List Event}

/-- No client comes up twice on the screen. -/
theorem nodup_order (h : Run (StepOf (step m env)) (start screen) es s) : s.wm.order.Nodup := by
  have hstart : Lists (start screen).left (fun _ => True) (start screen).wm :=
    ⟨[], Zorder.Standing.empty, fun _ ha => absurd ha List.not_mem_nil⟩
  have hlists : Lists s.left (fun _ => True) s.wm :=
    h.invariant (I := fun s => Lists s.left (fun _ => True) s.wm) hstart
      fun _ _ _ hs hstep => step_lists hs (fun _ _ _ _ _ => trivial) hstep
  obtain ⟨l, hl, -⟩ := hlists
  rw [Wm.order, hl.listed.order_eq]
  exact hl.listed.nodup

/-- What the scaling from one screen to another does, to windows inside the old screen. -/
structure Scales (oldr newr : Rect) : Prop where
  computed : ∀ r, oldr.Inside r → scaled32 oldr newr r = some (scaled oldr newr r)
  inside : ∀ r, oldr.Inside r → newr.Inside (scaled oldr newr r)
  mono_x : ∀ p q, p.x ≤ q.x → (corner oldr newr p).x ≤ (corner oldr newr q).x
  mono_y : ∀ p q, p.y ≤ q.y → (corner oldr newr p).y ≤ (corner oldr newr q).y
  apart : ∀ r r', r.Apart r' → (scaled oldr newr r).Apart (scaled oldr newr r')
  disjoint : ∀ r r', ¬ r.Xrect r' → ¬ (scaled oldr newr r).Xrect (scaled oldr newr r')

/-- When the manager is reshaped, the windows are scaled to the new screen, without overflow
and without a division by zero, and stay inside the screen and apart. -/
theorem reshaped_scales (hold : oldr.Sides) (hnew : newr.Sides) (hint : newr.Int32) :
    Scales oldr newr ∧
      ∀ m env screen es s, Run (StepOf (step m env)) (start screen) es s → s.wm.screen = oldr →
        ∀ e, ∀ c ∈ s.wm.order, List.Forall₂ (Carried m oldr newr) (s.wm.client c).wins
          (((s.wm.told e).rescreened m env newr).client c).wins := by
  constructor
  · exact ⟨fun _ h => scaled32_eq hold hnew hint h, fun _ h => scaled_inside hnew h,
      fun _ _ h => corner_mono_x hnew h, fun _ _ h => corner_mono_y hnew h,
      fun _ _ h => scaled_apart hnew h, fun _ _ h hx => h (xrect_of_scaled hnew hx)⟩
  · rintro m env screen es s hrun rfl e c hc
    have htold := still_told s.wm e
    have horder : (s.wm.told e).order = s.wm.order := congrArg Zorder.order htold.z
    have hcarried : List.Forall₂ (Carried m s.wm.screen newr)
        (({ s.wm.told e with screen := newr } : Wm).client c).wins
        ((replaceAll env newr (refloat m s.wm.screen newr) { s.wm.told e with screen := newr } ()
          s.wm.order).1.client c).wins :=
      replaceAll_client (fun c w _ wins => replaceWins_carried c w wins) _ _ (nodup_order hrun) hc
    have hloop : (s.wm.told e).rescreened m env newr =
        (replaceAll env newr (refloat m s.wm.screen newr) { s.wm.told e with screen := newr } ()
          s.wm.order).1 := by
      rw [rescreened, reshapeFloating_eq, htold.screen]
      exact congrArg (fun l => (replaceAll env newr _ _ () l).1) horder
    rw [hloop, ← htold.wins c]
    exact hcarried

/-- Two windows side by side are scaled to a screen of half the size. -/
theorem reshaped_scales_two :
    ∃ s, Run (StepOf (step .topwin default)) (start ⟨⟨0, 0⟩, ⟨640, 480⟩⟩)
        [.opened 0, .join 0, .request 0 "!reshape . -1 0 0 320 480" [],
          .request 0 "!reshape menu -1 320 0 640 240" []] s ∧
      ∃ w', (s.wm.told "haskbdfocus 1").rescreened .topwin default ⟨⟨10, 10⟩, ⟨330, 250⟩⟩ = w' ∧
        (w'.client 0).wins.map outline =
          [("menu", ⟨⟨170, 10⟩, ⟨330, 130⟩⟩), (".", ⟨⟨10, 10⟩, ⟨170, 250⟩⟩)] := by
  obtain ⟨s, hrun, hscreen, hc, hwins⟩ : ∃ s,
      Run (StepOf (step .topwin default)) (start ⟨⟨0, 0⟩, ⟨640, 480⟩⟩)
        [.opened 0, .join 0, .request 0 "!reshape . -1 0 0 320 480" [],
          .request 0 "!reshape menu -1 320 0 640 240" []] s ∧
      s.wm.screen = ⟨⟨0, 0⟩, ⟨640, 480⟩⟩ ∧ 0 ∈ s.wm.order ∧ (s.wm.client 0).wins.map outline =
        [("menu", ⟨⟨320, 0⟩, ⟨640, 240⟩⟩), (".", ⟨⟨0, 0⟩, ⟨320, 480⟩⟩)] :=
    Run.exists_of_exec (by decide +kernel)
  refine ⟨s, hrun, _, rfl, ?_⟩
  have hcarried := (@reshaped_scales ⟨⟨0, 0⟩, ⟨640, 480⟩⟩ ⟨⟨10, 10⟩, ⟨330, 250⟩⟩ (by decide)
    (by decide) (by decide)).2 _ _ _ _ _ hrun hscreen "haskbdfocus 1" 0 hc
  rw [outline_carried hcarried, hwins]
  decide

end Session

end Aimsgui
