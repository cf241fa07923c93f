import Aimsgui.Freespace
import Aimsgui.Scaling

/-!
# Where a new window goes

`find` finds only rectangles that are free, and all points that are (`find_points`). It does not
find every rectangle that is free; but if something is just above or just to the left of the
upper left corner of one, or the border of the screen is there, then `find` finds one around it
(`find_corner`). So if there is room for a window in such a corner, `place` puts it where it covers no
other window (`place_apart`). As long as no window reaches beyond the screen, the new one does not
either (`place_inside`).
-/

namespace Aimsgui.Winplace

/-- The point of a place in the direction of the sweep and one along the line. -/
def Lay.pt : Lay → Int → Int → Point
  | .EW, x, y => ⟨x, y⟩
  | .NS, x, y => ⟨y, x⟩

section Points

variable {lay : Lay} {w r : Rect} {p : Point} {x y : Int}

/-- `Rect.contains` as inequalities. -/
theorem contains_iff : r.contains p = true ↔
    (r.min.x ≤ p.x ∧ p.x < r.max.x) ∧ r.min.y ≤ p.y ∧ p.y < r.max.y := by
  rw [Rect.contains, decide_eq_true_eq, and_assoc]

theorem covers_iff : Covers lay w x y ↔ w.contains (lay.pt x y) = true := by
  rw [contains_iff]
  cases lay with
  | EW => exact Iff.rfl
  | NS => exact and_comm

/-- A rectangle of the sweep, in the coordinates of the screen. -/
theorem contains_mkr : (lay.mkr r).contains p = true ↔
    (r.min.x ≤ lay.x p ∧ lay.x p < r.max.x) ∧ r.min.y ≤ lay.y p ∧ lay.y p < r.max.y := by
  rw [contains_iff]
  cases lay with
  | EW => exact Iff.rfl
  | NS => exact and_comm

theorem pt_x_y (lay : Lay) (p : Point) : lay.pt (lay.x p) (lay.y p) = p := by
  cases lay <;> rfl

theorem contains_min (h : Proper r) : r.contains r.min = true := by
  rw [contains_iff]
  obtain ⟨hx, hy⟩ := h
  exact ⟨⟨le_rfl, hx⟩, le_rfl, hy⟩

end Points

/-! ## The rectangles that are found -/

instance (r s : Rect) : Decidable (r.Apart s) := decidable_of_iff _ Rect.apart_iff.symm

/-- No window is there. -/
def Free (wins : List Rect) (r : Rect) : Prop := ∀ w ∈ wins, w.Apart r

instance (wins : List Rect) (r : Rect) : Decidable (Free wins r) :=
  inferInstanceAs (Decidable (∀ w ∈ wins, w.Apart r))

/-- A window is there, or the screen ends. -/
def Blocked (wins : List Rect) (scr : Rect) (p : Point) : Prop :=
  scr.contains p = true → ∃ w ∈ wins, w.contains p = true

instance (wins : List Rect) (scr : Rect) (p : Point) : Decidable (Blocked wins scr p) :=
  inferInstanceAs (Decidable (_ → ∃ w ∈ wins, _))

/-- Something is just above the upper left corner, or just to the left of it. -/
def Cornered (wins : List Rect) (scr r : Rect) : Prop :=
  Blocked wins scr ⟨r.min.x, r.min.y - 1⟩ ∨ Blocked wins scr ⟨r.min.x - 1, r.min.y⟩

instance (wins : List Rect) (scr r : Rect) : Decidable (Cornered wins scr r) :=
  inferInstanceAs (Decidable (_ ∨ _))

/-- There is room for a window at `r`, in a corner. -/
structure Room (wins : List Rect) (scr r : Rect) : Prop where
  proper : Proper r
  inside : scr.Inside r
  free : Free wins r
  corner : Cornered wins scr r

instance (wins : List Rect) (scr r : Rect) : Decidable (Room wins scr r) :=
  decidable_of_iff ((Proper r ∧ scr.Inside r) ∧ Free wins r ∧ Cornered wins scr r)
    ⟨fun h => ⟨h.1.1, h.1.2, h.2.1, h.2.2⟩, fun h => ⟨⟨h.proper, h.inside⟩, h.free, h.corner⟩⟩

section Find

variable {wins : List Rect} {scr r w f : Rect} {p : Point} {lay : Lay}

theorem exists_win {wr : List Rect} (hw : w ∈ wr) : ∃ i < wr.length, win wr i = w := by
  obtain ⟨i, hi, rfl⟩ := List.mem_iff_getElem.mp hw
  refine ⟨i, hi, ?_⟩
  exact Option.some.inj ((getElem?_eq_win hi).symm.trans (List.getElem?_eq_getElem hi))

/-- The four windows around the screen. -/
theorem mem_sentinels : w ∈ sentinels scr ↔
    w = ⟨⟨scr.max.x, scr.min.y - 1⟩, ⟨scr.max.x + 1, scr.max.y + 1⟩⟩ ∨
      w = ⟨⟨scr.min.x, scr.max.y⟩, ⟨scr.max.x, scr.max.y + 1⟩⟩ ∨
      w = ⟨⟨scr.min.x - 1, scr.min.y - 1⟩, ⟨scr.min.x, scr.max.y + 1⟩⟩ ∨
      w = ⟨⟨scr.min.x, scr.min.y - 1⟩, ⟨scr.max.x, scr.min.y⟩⟩ := by
  have hsub : ∀ a : Int, a - -1 = a + 1 := fun a => by omega
  simp only [sentinels, Rect.inset, hsub, ← sub_eq_add_neg, List.mem_cons, List.not_mem_nil,
    or_false]

/-- The border is not on the screen. -/
theorem sentinel_apart (hw : w ∈ sentinels scr) (hp : scr.contains p = true) :
    ¬ w.contains p = true := by
  rw [contains_iff] at hp ⊢
  rcases mem_sentinels.mp hw with rfl | rfl | rfl | rfl
  all_goals
    dsimp only
    omega

theorem sentinel_proper (hscr : Proper scr) (hw : w ∈ sentinels scr) : Proper w := by
  obtain ⟨hx, hy⟩ := hscr
  rw [Proper]
  rcases mem_sentinels.mp hw with rfl | rfl | rfl | rfl
  all_goals
    dsimp only
    omega

/-- The windows for which `find` sweeps. -/
theorem mem_all : w ∈ sentinels scr ++ wins.reverse ↔ w ∈ sentinels scr ∨ w ∈ wins := by
  rw [List.mem_append, List.mem_reverse]

theorem all_proper (hscr : Proper scr) (hwins : ∀ w ∈ wins, Proper w) : ∀ w ∈ sentinels scr ++ wins.reverse, Proper w := by
  intro w hw
  rcases mem_all.mp hw with hw | hw
  · exact sentinel_proper hscr hw
  · exact hwins w hw

/-- A free rectangle of the sweep is apart from the windows and from the border. -/
theorem free_of_vacant (h : Vacant (sentinels scr ++ wins.reverse) lay f) :
    Proper f ∧ ∀ w ∈ sentinels scr ++ wins.reverse, w.Apart f := by
  obtain ⟨r, rfl, hr, hfree, -⟩ := h
  refine ⟨mkr_proper.mpr hr, fun w hw p hp => ?_⟩
  obtain ⟨i, hi, rfl⟩ := exists_win hw
  obtain ⟨⟨hx₀, hx₁⟩, hy₀, hy₁⟩ := contains_mkr.mp hp.2
  exact hfree _ _ hx₀ hx₁ hy₀ hy₁ i hi (covers_iff.mpr (by rw [pt_x_y]; exact hp.1))

/-- No window reaches beyond the border. -/
theorem all_within (hscr : Proper scr) (hinside : ∀ w ∈ wins, scr.Inside w) :
    ∀ w ∈ sentinels scr ++ wins.reverse, (scr.min.x - 1 ≤ w.min.x ∧ w.max.x ≤ scr.max.x + 1) ∧
      scr.min.y - 1 ≤ w.min.y ∧ w.max.y ≤ scr.max.y + 1 := by
  obtain ⟨hx, hy⟩ := hscr
  intro w hw
  rcases mem_all.mp hw with hw | hw
  · rcases mem_sentinels.mp hw with rfl | rfl | rfl | rfl
    all_goals
      dsimp only
      omega
  · obtain ⟨⟨hx₀, -, hx₁⟩, hy₀, -, hy₁⟩ := hinside w hw
    omega

/-- If no window reaches beyond the screen, then nothing is found there. -/
theorem inside_of_vacant (hscr : Proper scr) (hinside : ∀ w ∈ wins, scr.Inside w)
    (h : Vacant (sentinels scr ++ wins.reverse) lay f) : scr.Inside f := by
  have hwithin := all_within hscr hinside
  obtain ⟨⟨hfx, hfy⟩, hapart⟩ := free_of_vacant h
  have hhull : (scr.min.x - 1 ≤ f.min.x ∧ f.max.x ≤ scr.max.x + 1) ∧
      scr.min.y - 1 ≤ f.min.y ∧ f.max.y ≤ scr.max.y + 1 := by
    obtain ⟨r, rfl, -, -, ⟨i, hi, hleft⟩, ⟨j, hj, hright⟩, ⟨k, hk, htop⟩, l, hl, hbottom⟩ := h
    have hi' := hwithin _ (win_mem hi)
    have hj' := hwithin _ (win_mem hj)
    have hk' := hwithin _ (win_mem hk)
    have hl' := hwithin _ (win_mem hl)
    cases lay with
    | EW =>
      simp only [Lay.x, Lay.y, Lay.mkr] at hleft hright htop hbottom ⊢
      omega
    | NS =>
      simp only [Lay.x, Lay.y, Lay.mkr] at hleft hright htop hbottom ⊢
      omega
  -- the border keeps it on the screen
  have hborder : ∀ w ∈ sentinels scr, ∀ p : Point, f.contains p = true → ¬ w.contains p = true :=
    fun w hw p hp hwp => hapart w (mem_all.mpr (Or.inl hw)) p ⟨hwp, hp⟩
  have hleft : scr.min.x ≤ f.min.x := by
    by_contra hlt
    refine hborder _ (mem_sentinels.mpr (Or.inr (Or.inr (Or.inl rfl)))) f.min
      (contains_min ⟨hfx, hfy⟩) ?_
    rw [contains_iff]
    dsimp only
    omega
  have hright : f.max.x ≤ scr.max.x := by
    by_contra hlt
    refine hborder _ (mem_sentinels.mpr (Or.inl rfl)) ⟨f.max.x - 1, f.min.y⟩ ?_ ?_
    all_goals
      rw [contains_iff]
      dsimp only
      omega
  have htop : scr.min.y ≤ f.min.y := by
    by_contra hlt
    refine hborder _ (mem_sentinels.mpr (Or.inr (Or.inr (Or.inr rfl)))) f.min
      (contains_min ⟨hfx, hfy⟩) ?_
    rw [contains_iff]
    dsimp only
    omega
  have hbottom : f.max.y ≤ scr.max.y := by
    by_contra hlt
    refine hborder _ (mem_sentinels.mpr (Or.inr (Or.inl rfl))) ⟨f.min.x, f.max.y - 1⟩ ?_ ?_
    all_goals
      rw [contains_iff]
      dsimp only
      omega
  exact ⟨⟨hleft, hfx.le, hright⟩, htop, hfy.le, hbottom⟩

/-- A free rectangle is framed by the border of the screen. -/
theorem framed_of_free (lay : Lay) (hr : Proper r) (hinside : scr.Inside r) (hfree : Free wins r) :
    Framed (sentinels scr ++ wins.reverse) lay (lay.x r.min) (lay.x r.max) (lay.y r.min)
      (lay.y r.max) := by
  have hmem : ∀ w ∈ sentinels scr, ∃ i < (sentinels scr ++ wins.reverse).length,
      win (sentinels scr ++ wins.reverse) i = w :=
    fun w hw => exists_win (mem_all.mpr (Or.inl hw))
  obtain ⟨⟨hx₀, -, hx₁⟩, hy₀, -, hy₁⟩ := hinside
  have hfree' : ∀ p, r.contains p = true → ∀ w ∈ sentinels scr ++ wins.reverse,
      ¬ w.contains p = true := by
    intro p hp w hw hwp
    rcases mem_all.mp hw with hw | hw
    · refine sentinel_apart hw ?_ hwp
      rw [contains_iff] at hp ⊢
      omega
    · exact hfree w hw p ⟨hwp, hp⟩
  obtain ⟨t, ht, htop⟩ := hmem _ (mem_sentinels.mpr (Or.inr (Or.inr (Or.inr rfl))))
  obtain ⟨b, hb, hbottom⟩ := hmem _ (mem_sentinels.mpr (Or.inr (Or.inl rfl)))
  obtain ⟨l, hl, hleft⟩ := hmem _ (mem_sentinels.mpr (Or.inr (Or.inr (Or.inl rfl))))
  obtain ⟨k, hk, hright⟩ := hmem _ (mem_sentinels.mpr (Or.inl rfl))
  obtain ⟨hrx, hry⟩ := hr
  cases lay with
  | EW =>
    refine ⟨hrx, hry, fun x y hx hx' hy hy' i hi hcovers => ?_, ⟨t, ht, ?_⟩, ⟨b, hb, ?_⟩⟩
    · exact hfree' ⟨x, y⟩ (contains_iff.mpr ⟨⟨hx, hx'⟩, hy, hy'⟩) _ (win_mem hi)
        (covers_iff.mp hcovers)
    · simp only [htop, Lay.x, Lay.y]
      omega
    · simp only [hbottom, Lay.x, Lay.y]
      omega
  | NS =>
    refine ⟨hry, hrx, fun x y hx hx' hy hy' i hi hcovers => ?_, ⟨l, hl, ?_⟩, ⟨k, hk, ?_⟩⟩
    · exact hfree' ⟨y, x⟩ (contains_iff.mpr ⟨⟨hy, hy'⟩, hx, hx'⟩) _ (win_mem hi)
        (covers_iff.mp hcovers)
    · simp only [hleft, Lay.x, Lay.y]
      omega
    · simp only [hright, Lay.x, Lay.y]
      omega

/-- A point that is blocked just beside the screen is on its border. -/
theorem exists_contains (hblocked : Blocked wins scr p)
    (hborder : scr.contains p = false → ∃ w ∈ sentinels scr, w.contains p = true) :
    ∃ i < (sentinels scr ++ wins.reverse).length,
      (win (sentinels scr ++ wins.reverse) i).contains p = true := by
  have hmem : ∃ w ∈ sentinels scr ++ wins.reverse, w.contains p = true := by
    cases hp : scr.contains p with
    | true =>
      obtain ⟨w, hw, hwp⟩ := hblocked hp
      exact ⟨w, mem_all.mpr (Or.inr hw), hwp⟩
    | false =>
      obtain ⟨w, hw, hwp⟩ := hborder hp
      exact ⟨w, mem_all.mpr (Or.inl hw), hwp⟩
  obtain ⟨w, hw, hwp⟩ := hmem
  obtain ⟨i, hi, rfl⟩ := exists_win hw
  exact ⟨i, hi, hwp⟩

/-- `find` never fails. What it finds is vacant, and it finds all the room that is in a corner. -/
theorem find_spec (hscr : Proper scr) (hwins : ∀ w ∈ wins, Proper w) :
    ∃ found, find wins scr = some found ∧
      (∀ f ∈ found, ∃ lay, Vacant (sentinels scr ++ wins.reverse) lay f) ∧
      ∀ r, Room wins scr r → ∃ f ∈ found, f.Inside r := by
  have hproper := all_proper hscr hwins
  obtain ⟨found, hsweep, -, hfound, hcorner⟩ := sweep_spec .EW [] hproper
  obtain ⟨found', hsweep', hkeeps, hfound', hcorner'⟩ := sweep_spec .NS found hproper
  refine ⟨found', ?_, fun f hf => ?_, ?_⟩
  · rw [find, hsweep]
    exact hsweep'
  · rcases hfound' f hf with hf | hf
    · rcases hfound f hf with hf | hf
      · cases hf
      · exact ⟨.EW, hf⟩
    · exact ⟨.NS, hf⟩
  · rintro r ⟨⟨hrx, hry⟩, hinside, hfree, hblocked⟩
    have hin := hinside
    obtain ⟨⟨hx₀, -, hx₁⟩, hy₀, -, hy₁⟩ := hin
    rcases hblocked with hblocked | hblocked
    · obtain ⟨i, hi, hwin⟩ := exists_contains hblocked fun hout => by
        refine ⟨_, mem_sentinels.mpr (Or.inr (Or.inr (Or.inr rfl))), ?_⟩
        rw [Rect.contains, decide_eq_false_iff_not] at hout
        rw [contains_iff]
        dsimp only at hout ⊢
        omega
      obtain ⟨f, hf, hleft, hright, htop, hbottom⟩ :=
        hcorner _ _ _ _ (framed_of_free .EW ⟨hrx, hry⟩ hinside hfree)
          ⟨i, hi, covers_iff.mpr hwin⟩
      exact ⟨f, hkeeps hf, ⟨hleft, hrx.le, hright⟩, htop, hry.le, hbottom⟩
    · obtain ⟨i, hi, hwin⟩ := exists_contains hblocked fun hout => by
        refine ⟨_, mem_sentinels.mpr (Or.inr (Or.inr (Or.inl rfl))), ?_⟩
        rw [Rect.contains, decide_eq_false_iff_not] at hout
        rw [contains_iff]
        dsimp only at hout ⊢
        omega
      obtain ⟨f, hf, htop, hbottom, hleft, hright⟩ :=
        hcorner' _ _ _ _ (framed_of_free .NS ⟨hrx, hry⟩ hinside hfree)
          ⟨i, hi, covers_iff.mpr hwin⟩
      exact ⟨_, hf, ⟨hleft, hrx.le, hright⟩, htop, hry.le, hbottom⟩

/-- Above every free point of the screen there is one that has something above it. -/
theorem exists_top (hp : scr.contains p = true) (hfree : ∀ w ∈ wins, ¬ w.contains p = true) :
    ∃ y, scr.min.y ≤ y ∧ y ≤ p.y ∧ Blocked wins scr ⟨p.x, y - 1⟩ ∧
      ∀ z, y ≤ z → z ≤ p.y → ∀ w ∈ wins, ¬ w.contains ⟨p.x, z⟩ = true := by
  have hdown : ∀ n : Nat, ∀ y, scr.min.y ≤ y → y ≤ p.y → y - scr.min.y ≤ n →
      (∀ z, y ≤ z → z ≤ p.y → ∀ w ∈ wins, ¬ w.contains ⟨p.x, z⟩ = true) →
      ∃ y, scr.min.y ≤ y ∧ y ≤ p.y ∧ Blocked wins scr ⟨p.x, y - 1⟩ ∧
        ∀ z, y ≤ z → z ≤ p.y → ∀ w ∈ wins, ¬ w.contains ⟨p.x, z⟩ = true := by
    intro n
    induction n with
    | zero =>
      intro y hy hle hn hclear
      refine ⟨y, hy, hle, fun hon => ?_, hclear⟩
      rw [contains_iff] at hon
      dsimp only at hon
      omega
    | succ n ih =>
      intro y hy hle hn hclear
      by_cases hblocked : Blocked wins scr ⟨p.x, y - 1⟩
      · exact ⟨y, hy, hle, hblocked, hclear⟩
      · obtain ⟨hon, hnone⟩ := Classical.not_imp.mp hblocked
        rw [contains_iff] at hon
        refine ih (y - 1) hon.2.1 (by omega) (by omega) fun z hz hzp w hw => ?_
        rcases Int.lt_or_eq_of_le hz with hz | rfl
        · exact hclear z (by omega) hzp w hw
        · exact fun hwp => hnone ⟨w, hw, hwp⟩
  rw [contains_iff] at hp
  refine hdown (p.y - scr.min.y).toNat p.y hp.2.1 le_rfl (by omega) fun z hz hzp w hw => ?_
  obtain rfl : z = p.y := le_antisymm hzp hz
  exact hfree w hw

/-- The points that are found are the free ones. -/
theorem find_points (hscr : Proper scr) (hwins : ∀ w ∈ wins, Proper w)
    (hp : scr.contains p = true) :
    ∃ found, find wins scr = some found ∧
      ((∃ f ∈ found, f.contains p = true) ↔ ∀ w ∈ wins, ¬ w.contains p = true) := by
  obtain ⟨found, hfind, hvacant, hcorner⟩ := find_spec hscr hwins
  refine ⟨found, hfind, ?_, fun hfree => ?_⟩
  · rintro ⟨f, hf, hfp⟩ w hw hwp
    obtain ⟨lay, hvacant⟩ := hvacant f hf
    exact (free_of_vacant hvacant).2 w (mem_all.mpr (Or.inr hw)) p ⟨hwp, hfp⟩
  · obtain ⟨y, hy, hle, hblocked, hclear⟩ := exists_top hp hfree
    rw [contains_iff] at hp
    have hcolumn : Free wins ⟨⟨p.x, y⟩, ⟨p.x + 1, p.y + 1⟩⟩ := by
      rintro w hw q ⟨hwq, hq⟩
      rw [contains_iff] at hq
      dsimp only at hq
      have hqx : q.x = p.x := by omega
      refine hclear q.y hq.2.1 (by omega) w hw ?_
      rw [← hqx]
      exact hwq
    have hroom : Room wins scr ⟨⟨p.x, y⟩, ⟨p.x + 1, p.y + 1⟩⟩ := by
      refine ⟨⟨?_, ?_⟩, ?_, hcolumn, Or.inl hblocked⟩
      · dsimp only
        omega
      · dsimp only
        omega
      · simp only [Rect.Inside]
        omega
    obtain ⟨f, hf, ⟨hx₀, -, hx₁⟩, hy₀, -, hy₁⟩ := hcorner _ hroom
    refine ⟨f, hf, ?_⟩
    rw [contains_iff]
    dsimp only at hx₀ hx₁ hy₀ hy₁
    omega

end Find

/-- A point between two windows that overlap and one that reaches beyond the screen. -/
theorem find_points_three :
    ∃ found, find [⟨⟨0, 0⟩, ⟨4, 3⟩⟩, ⟨⟨2, 1⟩, ⟨6, 5⟩⟩, ⟨⟨8, -2⟩, ⟨12, 4⟩⟩] ⟨⟨0, 0⟩, ⟨10, 8⟩⟩ = some found ∧
      ∃ f ∈ found, f.contains ⟨7, 2⟩ = true := by
  obtain ⟨found, hfound, hiff⟩ := @find_points
    [⟨⟨0, 0⟩, ⟨4, 3⟩⟩, ⟨⟨2, 1⟩, ⟨6, 5⟩⟩, ⟨⟨8, -2⟩, ⟨12, 4⟩⟩] ⟨⟨0, 0⟩, ⟨10, 8⟩⟩ ⟨7, 2⟩ (by decide)
    (by decide) (by decide)
  exact ⟨found, hfound, hiff.mpr (by decide)⟩

/-- Where a window has no height, `removewin` may be called before `addwin`. -/
example : find [⟨⟨5, 0⟩, ⟨9, 0⟩⟩] ⟨⟨0, 0⟩, ⟨9, 3⟩⟩ = none := by decide +kernel

/-! ## The choice among them -/

section Choice

variable {wins found : List Rect} {scr last r b best : Rect} {minsize : Point}

/-- `r` is as big as `minsize`. -/
def Fits (minsize : Point) (r : Rect) : Prop := minsize.x ≤ r.dx ∧ minsize.y ≤ r.dy

/-- Nothing is better than what was better than all the others. -/
theorem not_better (h : ¬ better r b) (hb : better best b) : ¬ better r best := by
  rw [better] at h hb ⊢
  omega

theorem not_better_self : ¬ better r r := by
  rw [better]
  omega

/-- What `findfit` may answer: the best that fits, or nothing if nothing does. -/
def Chosen (found : List Rect) (minsize : Point) : Option Rect → Prop
  | none => ∀ r ∈ found, ¬ Fits minsize r
  | some b => b ∈ found ∧ Fits minsize b ∧ ∀ r ∈ found, Fits minsize r → ¬ better r b

/-- `findfit` keeps the best of the rectangles that it has seen. -/
theorem findfit_chosen (found : List Rect) (minsize : Point) :
    Chosen found minsize (findfit found minsize) := by
  induction found using List.reverseRecOn with
  | nil => exact fun r hr => absurd hr List.not_mem_nil
  | append_singleton found r ih =>
    rw [findfit] at ih ⊢
    rw [List.foldl_append, List.foldl_cons, List.foldl_nil]
    generalize List.foldl _ none found = best at ih ⊢
    have hall : ∀ b, (∀ r' ∈ found, Fits minsize r' → ¬ better r' b) →
        (Fits minsize r → ¬ better r b) → ∀ r' ∈ found ++ [r], Fits minsize r' → ¬ better r' b := by
      intro b hb hr r' hr'
      rcases List.mem_append.mp hr' with hr' | hr'
      · exact hb r' hr'
      · exact List.mem_singleton.mp hr' ▸ hr
    split_ifs with hsmall
    · have hnot : ¬ Fits minsize r := by
        rw [Fits]
        omega
      cases best with
      | none =>
        intro r' hr'
        rcases List.mem_append.mp hr' with hr' | hr'
        · exact ih r' hr'
        · exact List.mem_singleton.mp hr' ▸ hnot
      | some b =>
        obtain ⟨hb, hfits, hbest⟩ := ih
        exact ⟨List.mem_append_left _ hb, hfits, hall b hbest fun h => absurd h hnot⟩
    · have hfit : Fits minsize r := by
        rw [Fits]
        omega
      have hr : r ∈ found ++ [r] := List.mem_append_right _ List.mem_cons_self
      cases best with
      | none => exact ⟨hr, hfit, hall r (fun r' hr' hfits => absurd hfits (ih r' hr')) fun _ => not_better_self⟩
      | some b =>
        obtain ⟨hb, hfits, hbest⟩ := ih
        dsimp only
        split_ifs with hbetter
        · exact ⟨hr, hfit, hall r (fun r' hr' h => not_better (hbest r' hr' h) hbetter) fun _ => not_better_self⟩
        · exact ⟨List.mem_append_left _ hb, hfits, hall b hbest fun _ => hbetter⟩

/-- What it chooses is big enough, and none that is big enough is better. -/
theorem findfit_some (h : findfit found minsize = some b) :
    b ∈ found ∧ Fits minsize b ∧ ∀ r ∈ found, Fits minsize r → ¬ better r b := by
  have hchosen := findfit_chosen found minsize
  rwa [h] at hchosen

/-- It chooses one if any is big enough. -/
theorem findfit_ne_none (hr : r ∈ found) (hfits : Fits minsize r) : findfit found minsize ≠ none := by
  intro h
  have hchosen := findfit_chosen found minsize
  rw [h] at hchosen
  exact hchosen r hr hfits

/-- A rectangle that is big enough has room for the window in its corner. -/
theorem inside_ofSize (h : Fits minsize r) (hx : 0 ≤ minsize.x) (hy : 0 ≤ minsize.y) :
    r.Inside (.ofSize r.min minsize) := by
  obtain ⟨hdx, hdy⟩ := h
  rw [Rect.dx] at hdx
  rw [Rect.dy] at hdy
  simp only [Rect.Inside, Rect.ofSize, Point.add_x, Point.add_y]
  omega

/-! ## The place of the new window -/

theorem inside_trans {s t : Rect} (hs : s.Inside t) (ht : t.Inside r) : s.Inside r := by
  simp only [Rect.Inside] at hs ht ⊢
  omega

/-- A part of a free rectangle is free. -/
theorem free_inside (h : Free wins r) (hinside : r.Inside b) : Free wins b := by
  rintro w hw p ⟨hwp, hbp⟩
  refine h w hw p ⟨hwp, ?_⟩
  simp only [Rect.Inside] at hinside
  rw [contains_iff] at hbp ⊢
  omega

theorem titlebar_mem {t : Rect} (ht : t ∈ titlebarrects wins) : ∃ w ∈ wins,
    t = ⟨⟨max (w.max.x - TBARWIDTH) w.min.x, w.min.y⟩,
      ⟨w.max.x, min (w.min.y + TBARHEIGHT) w.max.y⟩⟩ := by
  rw [titlebarrects, List.mem_reverse, List.mem_map] at ht
  obtain ⟨w, hw, rfl⟩ := ht
  exact ⟨w, hw, rfl⟩

theorem titlebar_proper (hwins : ∀ w ∈ wins, Proper w) : ∀ t ∈ titlebarrects wins, Proper t := by
  intro t ht
  obtain ⟨w, hw, rfl⟩ := titlebar_mem ht
  have hproper := hwins w hw
  rw [Proper] at hproper ⊢
  simp only [TBARWIDTH, TBARHEIGHT]
  omega

/-- What `find` finds is free, and it finds all the room that is in a corner. -/
theorem find_corner (hscr : Proper scr) (hwins : ∀ w ∈ wins, Proper w) :
    ∃ found, find wins scr = some found ∧
      (∀ f ∈ found, Proper f ∧ Free wins f ∧ ((∀ w ∈ wins, scr.Inside w) → scr.Inside f)) ∧
      ∀ r, Room wins scr r → ∃ f ∈ found, f.Inside r := by
  obtain ⟨found, hfound, hvacant, hcorner⟩ := find_spec hscr hwins
  refine ⟨found, hfound, fun f hf => ?_, hcorner⟩
  obtain ⟨lay, hlay⟩ := hvacant f hf
  obtain ⟨hproper, hapart⟩ := free_of_vacant hlay
  exact ⟨hproper, fun w hw => hapart w (mem_all.mpr (Or.inr hw)),
    fun hinside => inside_of_vacant hscr hinside hlay⟩

/-- `place` does not panic. -/
theorem place_isSome (hscr : Proper scr) (hwins : ∀ w ∈ wins, Proper w) (last : Rect)
    (minsize : Point) : (place wins scr last minsize).isSome := by
  obtain ⟨found, hfound, -⟩ := find_corner hscr hwins
  obtain ⟨tfound, htfound, -⟩ := find_corner hscr (titlebar_proper hwins)
  simp only [place, hfound, Option.bind_eq_bind, Option.bind_some]
  split
  · rfl
  · simp only [htfound, Option.bind_some]
    split <;> rfl

theorem fits_of_inside (hinside : r.Inside b) : Fits b.size r := by
  simp only [Rect.Inside] at hinside
  simp only [Fits, Rect.size, Rect.dx, Rect.dy]
  omega

/-- A rectangle around `b` is better than all that `b` is better than. -/
theorem better_of_inside (hinside : r.Inside b) (h : better b best) : better r best := by
  simp only [Rect.Inside] at hinside
  rw [better] at h ⊢
  omega

/-- Where there is room in a corner, the window goes to the best of the rectangles that are found. -/
theorem place_free (hscr : Proper scr) (hwins : ∀ w ∈ wins, Proper w) (hr : Room wins scr r)
    (last : Rect) :
    ∃ found best, find wins scr = some found ∧ findfit found r.size = some best ∧
      place wins scr last r.size = some (.ofSize best.min r.size) ∧
      Free wins (.ofSize best.min r.size) ∧
      ((∀ w ∈ wins, scr.Inside w) → scr.Inside (.ofSize best.min r.size)) := by
  obtain ⟨found, hfound, hfree, hcorner⟩ := find_corner hscr hwins
  obtain ⟨f, hf, hfr⟩ := hcorner r hr
  obtain ⟨best, hbest⟩ := Option.ne_none_iff_exists'.mp (findfit_ne_none hf (fits_of_inside hfr))
  obtain ⟨hmem, hfits, -⟩ := findfit_some hbest
  obtain ⟨-, hbestfree, hbestin⟩ := hfree best hmem
  obtain ⟨hrx, hry⟩ := hr.proper
  have hx : 0 < r.size.x := by
    simp only [Rect.size, Rect.dx]
    omega
  have hy : 0 < r.size.y := by
    simp only [Rect.size, Rect.dy]
    omega
  have hplaced := inside_ofSize hfits hx.le hy.le
  refine ⟨found, best, hfound, hbest, ?_, free_inside hbestfree hplaced,
    fun hinside => inside_trans (hbestin hinside) hplaced⟩
  simp only [place, hfound, Option.bind_eq_bind, Option.bind_some, hbest, if_neg hx.ne']
  rfl

/-- Where there is room in a corner, the new window covers no other one, and no room in a corner
is better placed. -/
theorem place_apart (hscr : Proper scr) (hwins : ∀ w ∈ wins, Proper w) (hr : Room wins scr r)
    (last : Rect) :
    ∃ r', place wins scr last r.size = some r' ∧ r'.size = r.size ∧ Free wins r' ∧
      ((∀ w ∈ wins, scr.Inside w) → scr.Inside r') ∧
      ∀ q, Room wins scr q → q.size = r.size → ¬ better q r' := by
  obtain ⟨found, best, hfound, hbest, hplace, hfree, hinside⟩ := place_free hscr hwins hr last
  refine ⟨_, hplace, Rect.size_ofSize _ _, hfree, hinside, fun q hq hsize hbetter => ?_⟩
  obtain ⟨found', hfound', -, hcorner⟩ := find_corner hscr hwins
  obtain rfl : found' = found := Option.some.inj (hfound'.symm.trans hfound)
  obtain ⟨g, hg, hgq⟩ := hcorner q hq
  obtain ⟨-, -, hfirst⟩ := findfit_some hbest
  exact hfirst g hg (hsize ▸ fits_of_inside hgq) (better_of_inside hgq hbetter)

/-- There is room below two windows that overlap; the new one goes up beside them, although a third
window that is there reaches beyond the screen. -/
theorem place_apart_three :
    ∃ r, place [⟨⟨0, 0⟩, ⟨4, 3⟩⟩, ⟨⟨2, 1⟩, ⟨6, 5⟩⟩, ⟨⟨8, -2⟩, ⟨12, 4⟩⟩] ⟨⟨0, 0⟩, ⟨10, 8⟩⟩
          ⟨⟨0, 0⟩, ⟨0, 0⟩⟩ ⟨2, 5⟩ = some r ∧ r.size = ⟨2, 5⟩ ∧
      Free [⟨⟨0, 0⟩, ⟨4, 3⟩⟩, ⟨⟨2, 1⟩, ⟨6, 5⟩⟩, ⟨⟨8, -2⟩, ⟨12, 4⟩⟩] r ∧
      ¬ better ⟨⟨0, 3⟩, ⟨2, 8⟩⟩ r := by
  have hroom : Room [⟨⟨0, 0⟩, ⟨4, 3⟩⟩, ⟨⟨2, 1⟩, ⟨6, 5⟩⟩, ⟨⟨8, -2⟩, ⟨12, 4⟩⟩] ⟨⟨0, 0⟩, ⟨10, 8⟩⟩
      ⟨⟨0, 3⟩, ⟨2, 8⟩⟩ := by decide
  obtain ⟨r, hr, hsize, hfree, -, hfirst⟩ := @place_apart
    [⟨⟨0, 0⟩, ⟨4, 3⟩⟩, ⟨⟨2, 1⟩, ⟨6, 5⟩⟩, ⟨⟨8, -2⟩, ⟨12, 4⟩⟩] ⟨⟨0, 0⟩, ⟨10, 8⟩⟩ ⟨⟨0, 3⟩, ⟨2, 8⟩⟩
    (by decide) (by decide) hroom ⟨⟨0, 0⟩, ⟨0, 0⟩⟩
  exact ⟨r, hr, hsize, hfree, hfirst _ hroom rfl⟩

/-- There is room in the lower right corner, but nothing just above or to the left of its upper
left corner: it is not found, and the new window covers the first one. -/
example : place [⟨⟨4, 1⟩, ⟨6, 2⟩⟩, ⟨⟨0, 0⟩, ⟨1, 1⟩⟩, ⟨⟨1, 3⟩, ⟨2, 5⟩⟩] ⟨⟨0, 0⟩, ⟨6, 5⟩⟩
      ⟨⟨0, 0⟩, ⟨0, 0⟩⟩ ⟨4, 3⟩ = some ⟨⟨1, 0⟩, ⟨5, 3⟩⟩ ∧
    Free [⟨⟨4, 1⟩, ⟨6, 2⟩⟩, ⟨⟨0, 0⟩, ⟨1, 1⟩⟩, ⟨⟨1, 3⟩, ⟨2, 5⟩⟩] ⟨⟨2, 2⟩, ⟨6, 5⟩⟩ := by
  decide +kernel

end Choice

/-- Three windows reach beyond the screen, and the only room is between them there. -/
example : place [⟨⟨0, 0⟩, ⟨6, 2⟩⟩, ⟨⟨0, 2⟩, ⟨4, 4⟩⟩, ⟨⟨0, 4⟩, ⟨6, 6⟩⟩] ⟨⟨0, 0⟩, ⟨4, 6⟩⟩
    ⟨⟨0, 0⟩, ⟨0, 0⟩⟩ ⟨1, 2⟩ = some ⟨⟨5, 2⟩, ⟨6, 4⟩⟩ := by decide +kernel

end Aimsgui.Winplace
