import Aimsgui.Crossing

/-!
# The rectangles that are found

What the sweep does with the rectangles that it follows. At every stop a rectangle is kept, or it is
found and what is still free of it is kept (`select_rest`); in every gap between the windows
that the line crosses there is one that fills it (`select_exact`).
-/

namespace Aimsgui.Winplace

/-- It holds a point. -/
def Proper (r : Rect) : Prop := r.min.x < r.max.x ∧ r.min.y < r.max.y

instance (r : Rect) : Decidable (Proper r) := inferInstanceAs (Decidable (_ ∧ _))

section Select

variable (x start stop : Int)

/-- What is kept of a rectangle. -/
def piece (r : Rect) : List Rect :=
  if (clip start stop r).min.y < (clip start stop r).max.y then [clip start stop r] else []

/-- What is found when there is something in the way of a rectangle. -/
def whole (r : Rect) : List Rect := if stop < r.max.y ∨ r.min.y < start then [r] else []

/-- The rectangle that is made before one that starts later. -/
def made (m : Bool) (r : Rect) : List Rect :=
  if m = false ∧ start < r.min.y then [fresh x start stop] else []

/-- A rectangle starts here if there is no other for this gap. -/
def close (m : Bool) (nrl : List Rect) : List Rect :=
  if m then nrl else fresh x start stop :: nrl

variable {x start stop} {m : Bool} {rl nrl found : List Rect} {r r₀ f : Rect}

theorem clip_eq_self (h : ¬ (stop < r.max.y ∨ r.min.y < start)) : clip start stop r = r := by
  obtain ⟨hmax, hmin⟩ := not_or.mp h
  rw [clip, if_neg hmin, if_neg hmax]

/-- A turn of the loop. -/
theorem select_cons (htall : r₀.min.y < r₀.max.y) :
    select x start stop m (r₀ :: rl) nrl found =
      if stop ≤ r₀.min.y then (r₀ :: rl, close x start stop m nrl, found)
      else select x start stop
        (m || decide (r₀.min.y = start ∧ r₀.max.y = stop) || decide (start < r₀.min.y)) rl
        (piece start stop (shut x r₀) ++ (made x start stop m r₀ ++ nrl))
        (whole start stop (shut x r₀) ++ found) := by
  have hmin : (shut x r₀).min.y = r₀.min.y := rfl
  have hmax : (shut x r₀).max.y = r₀.max.y := rfl
  rw [select]
  dsimp only
  rw [hmin, hmax]
  by_cases hstop : stop ≤ r₀.min.y
  · rw [if_pos hstop, if_pos hstop, close]
  · rw [if_neg hstop, if_neg hstop]
    by_cases hexact : r₀.min.y = start ∧ r₀.max.y = stop
    · have hin : ¬ (stop < (shut x r₀).max.y ∨ (shut x r₀).min.y < start) := by
        rw [hmin, hmax]
        omega
      have hlt : ¬ start < r₀.min.y := by omega
      rw [if_pos hexact, piece, clip_eq_self hin, hmin, hmax, if_pos htall, made,
        if_neg fun h => hlt h.2, whole, if_neg hin, decide_eq_true hexact, Bool.or_true,
        Bool.true_or]
      rfl
    · rw [if_neg hexact, decide_eq_false hexact, Bool.or_false]
      have hmade : (if m = false ∧ start < r₀.min.y then fresh x start stop :: nrl else nrl) =
          made x start stop m r₀ ++ nrl := by
        rw [made]
        split_ifs <;> rfl
      rw [hmade]
      by_cases hout : stop < r₀.max.y ∨ r₀.min.y < start
      · rw [if_pos hout, piece, whole, hmin, hmax, if_pos hout]
        split_ifs <;> rfl
      · rw [if_neg hout, piece, clip_eq_self (r := shut x r₀) hout, hmin, hmax, if_pos htall, whole,
          hmin, hmax, if_neg hout]
        rfl

/-- The part of `r₀` between `start` and `stop`. -/
structure Part (x start stop : Int) (r₀ r : Rect) : Prop where
  left : r.min.x = r₀.min.x
  top : r.min.y = max start r₀.min.y
  bottom : r.max.y = min stop r₀.max.y

theorem clip_part (r₀ : Rect) : Part x start stop r₀ (clip start stop (shut x r₀)) := by
  refine ⟨rfl, ?_, ?_⟩
  · simp only [clip, shut]
    split_ifs <;> omega
  · simp only [clip, shut]
    split_ifs <;> omega

theorem mem_piece (h : r ∈ piece start stop (shut x r₀)) :
    r.min.y < r.max.y ∧ Part x start stop r₀ r := by
  rw [piece] at h
  split_ifs at h with htall
  · rw [List.mem_singleton.mp h]
    exact ⟨htall, clip_part r₀⟩
  · cases h

theorem mem_made (h : r ∈ made x start stop m r₀) :
    m = false ∧ start < r₀.min.y ∧ r = fresh x start stop := by
  rw [made] at h
  split_ifs at h with hm
  · exact ⟨hm.1, hm.2, List.mem_singleton.mp h⟩
  · cases h

theorem mem_close (h : r ∈ close x start stop m nrl) :
    r ∈ nrl ∨ m = false ∧ r = fresh x start stop := by
  rw [close] at h
  split_ifs at h with hm
  · exact Or.inl h
  · rcases List.mem_cons.mp h with rfl | h
    · exact Or.inr ⟨by simpa using hm, rfl⟩
    · exact Or.inl h

/-- The rectangles that are left are the last ones. -/
theorem select_suffix (htall : ∀ r ∈ rl, r.min.y < r.max.y) :
    (select x start stop m rl nrl found).1 <:+ rl := by
  induction rl generalizing m nrl found with
  | nil => exact List.suffix_refl _
  | cons r₀ rl ih =>
    rw [select_cons (htall r₀ List.mem_cons_self)]
    split_ifs
    · exact List.suffix_refl _
    · exact (ih fun r hr => htall r (List.mem_cons_of_mem _ hr)).trans (List.suffix_cons _ _)

/-- What is kept lies in the gap: it starts here, or is part of what has been kept before. -/
theorem select_kept (htall : ∀ r ∈ rl, r.min.y < r.max.y)
    (hr : r ∈ (select x start stop m rl nrl found).2.1) :
    r ∈ nrl ∨ r = fresh x start stop ∨
      r.min.y < r.max.y ∧ ∃ r₀ ∈ rl, Part x start stop r₀ r := by
  induction rl generalizing m nrl found with
  | nil =>
    rcases mem_close hr with hr | ⟨-, hr⟩
    · exact Or.inl hr
    · exact Or.inr (Or.inl hr)
  | cons r₀ rl ih =>
    rw [select_cons (htall r₀ List.mem_cons_self)] at hr
    split_ifs at hr
    · rcases mem_close hr with hr | ⟨-, hr⟩
      · exact Or.inl hr
      · exact Or.inr (Or.inl hr)
    · rcases ih (fun r hr => htall r (List.mem_cons_of_mem _ hr)) hr with hr | hr | ⟨hlt, a, ha, hr⟩
      · rcases List.mem_append.mp hr with hr | hr
        · obtain ⟨hlt, hpart⟩ := mem_piece hr
          exact Or.inr (Or.inr ⟨hlt, r₀, List.mem_cons_self, hpart⟩)
        · rcases List.mem_append.mp hr with hr | hr
          · exact Or.inr (Or.inl (mem_made hr).2.2)
          · exact Or.inl hr
      · exact Or.inr (Or.inl hr)
      · exact Or.inr (Or.inr ⟨hlt, a, List.mem_cons_of_mem _ ha, hr⟩)

/-- What has been kept or found stays so. -/
theorem select_mono (htall : ∀ r ∈ rl, r.min.y < r.max.y) :
    nrl ⊆ (select x start stop m rl nrl found).2.1 ∧
      found ⊆ (select x start stop m rl nrl found).2.2 := by
  have hclose : ∀ m nrl, nrl ⊆ close x start stop m nrl := by
    intro m nrl r hr
    rw [close]
    split_ifs
    · exact hr
    · exact List.mem_cons_of_mem _ hr
  induction rl generalizing m nrl found with
  | nil => exact ⟨hclose m nrl, List.Subset.refl _⟩
  | cons r₀ rl ih =>
    rw [select_cons (htall r₀ List.mem_cons_self)]
    split_ifs
    · exact ⟨hclose m nrl, List.Subset.refl _⟩
    · obtain ⟨hkept, hfound⟩ := ih fun r hr => htall r (List.mem_cons_of_mem _ hr)
      exact ⟨fun r hr => hkept (List.mem_append_right _ (List.mem_append_right _ hr)),
        fun r hr => hfound (List.mem_append_right _ hr)⟩

/-- What is found ends here. -/
theorem select_found (htall : ∀ r ∈ rl, r.min.y < r.max.y)
    (hr : r ∈ (select x start stop m rl nrl found).2.2) :
    r ∈ found ∨ ∃ r₀ ∈ rl, r = shut x r₀ := by
  induction rl generalizing m nrl found with
  | nil => exact Or.inl hr
  | cons r₀ rl ih =>
    rw [select_cons (htall r₀ List.mem_cons_self)] at hr
    split_ifs at hr
    · exact Or.inl hr
    · rcases ih (fun r hr => htall r (List.mem_cons_of_mem _ hr)) hr with hr | ⟨a, ha, rfl⟩
      · rcases List.mem_append.mp hr with hr | hr
        · rw [whole] at hr
          split_ifs at hr
          · exact Or.inr ⟨r₀, List.mem_cons_self, List.mem_singleton.mp hr⟩
          · cases hr
        · exact Or.inl hr
      · exact Or.inr ⟨a, List.mem_cons_of_mem _ ha, rfl⟩

/-- A rectangle is left, found or kept. -/
theorem select_rest (htall : ∀ r ∈ rl, r.min.y < r.max.y) (hr : r ∈ rl) :
    r ∈ (select x start stop m rl nrl found).1 ∨
      shut x r ∈ (select x start stop m rl nrl found).2.2 ∨
        shut x r ∈ (select x start stop m rl nrl found).2.1 := by
  induction rl generalizing m nrl found with
  | nil => cases hr
  | cons r₀ rl ih =>
    have htall' : ∀ r ∈ rl, r.min.y < r.max.y := fun r hr => htall r (List.mem_cons_of_mem _ hr)
    rw [select_cons (htall r₀ List.mem_cons_self)]
    split_ifs
    · exact Or.inl hr
    · rcases List.mem_cons.mp hr with rfl | hr
      · by_cases hout : stop < (shut x r).max.y ∨ (shut x r).min.y < start
        · have hwhole : whole start stop (shut x r) = [shut x r] := if_pos hout
          refine Or.inr (Or.inl ((select_mono htall').2 ?_))
          rw [hwhole]
          exact List.mem_cons_self
        · have hpiece : piece start stop (shut x r) = [shut x r] := by
            rw [piece, clip_eq_self hout]
            exact if_pos (htall r List.mem_cons_self)
          refine Or.inr (Or.inr ((select_mono htall').1 ?_))
          rw [hpiece]
          exact List.mem_cons_self
      · exact ih htall' hr

/-- After the loop, some rectangle fills the gap. -/
theorem select_exact (htall : ∀ r ∈ rl, r.min.y < r.max.y)
    (hm : m = true → ∃ r ∈ nrl, r.min.y = start ∧ r.max.y = stop) :
    ∃ r ∈ (select x start stop m rl nrl found).2.1, r.min.y = start ∧ r.max.y = stop := by
  have hclose : ∀ m nrl, (m = true → ∃ r ∈ nrl, r.min.y = start ∧ r.max.y = stop) →
      ∃ r ∈ close x start stop m nrl, r.min.y = start ∧ r.max.y = stop := by
    intro m nrl hm
    rw [close]
    split_ifs with h
    · exact hm h
    · exact ⟨_, List.mem_cons_self, rfl, rfl⟩
  induction rl generalizing m nrl found with
  | nil => exact hclose m nrl hm
  | cons r₀ rl ih =>
    rw [select_cons (htall r₀ List.mem_cons_self)]
    split_ifs
    · exact hclose m nrl hm
    · refine ih (fun r hr => htall r (List.mem_cons_of_mem _ hr)) fun hor => ?_
      simp only [Bool.or_eq_true, decide_eq_true_eq] at hor
      by_cases hmade : m = true
      · obtain ⟨r, hr, hexact⟩ := hm hmade
        exact ⟨r, List.mem_append_right _ (List.mem_append_right _ hr), hexact⟩
      · rcases hor with (hor | hexact) | hafter
        · exact absurd hor hmade
        · -- `r₀` fills it, and is kept whole
          have hpiece : piece start stop (shut x r₀) = [shut x r₀] := by
            have hin : ¬ (stop < (shut x r₀).max.y ∨ (shut x r₀).min.y < start) := by
              simp only [shut]
              omega
            rw [piece, clip_eq_self hin]
            exact if_pos (htall r₀ List.mem_cons_self)
          refine ⟨shut x r₀, ?_, hexact⟩
          rw [hpiece]
          exact List.mem_cons_self
        · have hnew : made x start stop m r₀ = [fresh x start stop] :=
            if_pos ⟨by simpa using hmade, hafter⟩
          refine ⟨fresh x start stop, ?_, rfl, rfl⟩
          rw [hnew]
          exact List.mem_append_right _ List.mem_cons_self

/-! ### In order -/

/-- What starts after the gap is left. -/
theorem select_left (htall : ∀ r ∈ rl, r.min.y < r.max.y) (hr : r ∈ rl) (hstop : stop ≤ r.min.y) :
    r ∈ (select x start stop m rl nrl found).1 := by
  induction rl generalizing m nrl found with
  | nil => cases hr
  | cons r₀ rl ih =>
    rw [select_cons (htall r₀ List.mem_cons_self)]
    split_ifs with hbreak
    · exact hr
    · rcases List.mem_cons.mp hr with rfl | hr
      · exact absurd hstop hbreak
      · exact ih (fun r hr => htall r (List.mem_cons_of_mem _ hr)) hr

/-- What starts before the end of the gap and ends after its start is kept in part, as long as the
rectangles are in order. -/
theorem select_part (htall : ∀ r ∈ rl, r.min.y < r.max.y)
    (hsorted : rl.Pairwise (·.min.y ≤ ·.min.y)) (hlt : start < stop) (hr : r ∈ rl)
    (hstop : r.min.y < stop) (hstart : start < r.max.y) :
    ∃ r' ∈ (select x start stop m rl nrl found).2.1, Part x start stop r r' := by
  induction rl generalizing m nrl found with
  | nil => cases hr
  | cons r₀ rl ih =>
    have htall' : ∀ r ∈ rl, r.min.y < r.max.y := fun r hr => htall r (List.mem_cons_of_mem _ hr)
    obtain ⟨hhead, htail⟩ := List.pairwise_cons.mp hsorted
    have hgo : ¬ stop ≤ r₀.min.y := by
      rcases List.mem_cons.mp hr with rfl | hr
      · exact not_le_of_gt hstop
      · exact not_le_of_gt ((hhead r hr).trans_lt hstop)
    rw [select_cons (htall r₀ List.mem_cons_self), if_neg hgo]
    rcases List.mem_cons.mp hr with rfl | hr
    · have hpart : Part x start stop r (clip start stop (shut x r)) := clip_part r
      have hne : (clip start stop (shut x r)).min.y < (clip start stop (shut x r)).max.y := by
        have hrtall := htall r List.mem_cons_self
        rw [hpart.top, hpart.bottom]
        omega
      refine ⟨clip start stop (shut x r), (select_mono htall').1 ?_, hpart⟩
      rw [piece, if_pos hne]
      exact List.mem_cons_self
    · exact ih htall' htail hr

/-- What is kept comes in the opposite order. -/
theorem select_sorted (htall : ∀ r ∈ rl, r.min.y < r.max.y)
    (hsorted : rl.Pairwise (·.min.y ≤ ·.min.y)) (hlt : start < stop)
    (hnrl : nrl.Pairwise fun r r' => r'.min.y ≤ r.min.y)
    (hbefore : ∀ a ∈ nrl, a.min.y < stop ∧ (m = false → a.min.y ≤ start) ∧
      ∀ b ∈ rl, a.min.y ≤ max start b.min.y) :
    (select x start stop m rl nrl found).2.1.Pairwise (fun r r' => r'.min.y ≤ r.min.y) ∧
      ∀ a ∈ (select x start stop m rl nrl found).2.1, a.min.y < stop := by
  have hclose : ∀ m nrl, nrl.Pairwise (fun r r' => r'.min.y ≤ r.min.y) →
      (∀ a ∈ nrl, a.min.y < stop ∧ (m = false → a.min.y ≤ start)) →
      (close x start stop m nrl).Pairwise (fun r r' => r'.min.y ≤ r.min.y) ∧
        ∀ a ∈ close x start stop m nrl, a.min.y < stop := by
    intro m nrl hnrl hbefore
    rw [close]
    split_ifs with hm
    · exact ⟨hnrl, fun a ha => (hbefore a ha).1⟩
    · refine ⟨List.pairwise_cons.mpr ⟨fun a ha => (hbefore a ha).2 (by simpa using hm), hnrl⟩, ?_⟩
      intro a ha
      rcases List.mem_cons.mp ha with rfl | ha
      · exact hlt
      · exact (hbefore a ha).1
  induction rl generalizing m nrl found with
  | nil => exact hclose m nrl hnrl fun a ha => ⟨(hbefore a ha).1, (hbefore a ha).2.1⟩
  | cons r₀ rl ih =>
    obtain ⟨hhead, htail⟩ := List.pairwise_cons.mp hsorted
    rw [select_cons (htall r₀ List.mem_cons_self)]
    split_ifs with hbreak
    · exact hclose m nrl hnrl fun a ha => ⟨(hbefore a ha).1, (hbefore a ha).2.1⟩
    · -- everything new starts where the part of `r₀` in the gap starts, or with the gap
      have hpiece : ∀ a ∈ piece start stop (shut x r₀), a.min.y = max start r₀.min.y :=
        fun a ha => (mem_piece ha).2.top
      have hmade : ∀ a ∈ made x start stop m r₀,
          m = false ∧ start < r₀.min.y ∧ a.min.y = start := by
        intro a ha
        obtain ⟨hm, hafter, rfl⟩ := mem_made ha
        exact ⟨hm, hafter, rfl⟩
      have hnew : ∀ a ∈ made x start stop m r₀ ++ nrl, a.min.y ≤ max start r₀.min.y := by
        intro a ha
        rcases List.mem_append.mp ha with ha | ha
        · rw [(hmade a ha).2.2]
          exact le_max_left _ _
        · exact (hbefore a ha).2.2 r₀ List.mem_cons_self
      have hafter : ∀ b ∈ rl, max start r₀.min.y ≤ max start b.min.y :=
        fun b hb => max_le_max le_rfl (hhead b hb)
      refine ih (fun r hr => htall r (List.mem_cons_of_mem _ hr)) htail ?_ ?_
      · refine List.pairwise_append.mpr ⟨?_, List.pairwise_append.mpr ⟨?_, hnrl, ?_⟩, ?_⟩
        · rw [piece]
          split_ifs
          · exact List.pairwise_singleton _ _
          · exact List.Pairwise.nil
        · rw [made]
          split_ifs
          · exact List.pairwise_singleton _ _
          · exact List.Pairwise.nil
        · intro a ha b hb
          obtain ⟨hm, -, hstart⟩ := hmade a ha
          rw [hstart]
          exact (hbefore b hb).2.1 hm
        · intro a ha b hb
          rw [hpiece a ha]
          exact hnew b hb
      · intro a ha
        have hle : a.min.y ≤ max start r₀.min.y := by
          rcases List.mem_append.mp ha with ha | ha
          · exact (hpiece a ha).le
          · exact hnew a ha
        refine ⟨hle.trans_lt (max_lt hlt (not_le.mp hbreak)), fun hm => ?_,
          fun b hb => hle.trans (hafter b hb)⟩
        simp only [Bool.or_eq_false_iff, decide_eq_false_iff_not, not_lt] at hm
        exact hle.trans (max_le le_rfl hm.2)

end Select

/-! ## All gaps of a stop -/

theorem mkr_proper {lay : Lay} {r : Rect} : Proper (lay.mkr r) ↔ Proper r := by
  cases lay with
  | EW => exact Iff.rfl
  | NS => exact and_comm

theorem mem_addfound {found : List Rect} {r f : Rect} :
    f ∈ addfound found r ↔ f ∈ found ∨ f = r ∧ Proper r := by
  rw [addfound, Proper]
  split_ifs with h
  · exact ⟨Or.inl, fun hf => hf.elim id fun hf => absurd hf.2 (by omega)⟩
  · rw [List.mem_cons]
    constructor
    · rintro (rfl | hf)
      · exact Or.inr ⟨rfl, by omega⟩
      · exact Or.inl hf
    · rintro (hf | ⟨rfl, -⟩)
      · exact Or.inr hf
      · exact Or.inl rfl

section Scan

variable {lay : Lay} {x : Int} {rl nrl found nf : List Rect} {r f : Rect} {g : Int × Int}
  {gs : List (Int × Int)}

theorem mem_foldl_addfound (t : Rect → Rect) :
    f ∈ nf.foldl (fun found r => addfound found (t r)) found ↔
      f ∈ found ∨ ∃ r ∈ nf, f = t r ∧ Proper (t r) := by
  induction nf generalizing found with
  | nil => simp
  | cons r nf ih =>
    rw [List.foldl_cons, ih, mem_addfound, List.exists_mem_cons_iff, or_assoc]

/-- What `select` does, for one gap. -/
def fill (lay : Lay) (x : Int) (s : List Rect × List Rect × List Rect) (g : Int × Int) :
    List Rect × List Rect × List Rect :=
  ((select x g.1 g.2 false s.1 s.2.1 []).1, (select x g.1 g.2 false s.1 s.2.1 []).2.1,
    (select x g.1 g.2 false s.1 s.2.1 []).2.2.foldl (fun found r => addfound found (lay.mkr r)) s.2.2)

/-- The inner loop fills the gaps. -/
theorem scan_eq (count : Int) (l : List Delta) :
    scan lay x count l rl nrl found =
      (Gaps.gaps Delta.d Delta.coord count l).foldl (fill lay x) (rl, nrl, found) := by
  fun_induction scan lay x count l rl nrl found with
  | case1 count e e' l rl nrl found hgap rl' nrl' nf hselect ih =>
    rw [Gaps.gaps, if_pos hgap, List.foldl_cons, ih, fill]
    simp only [hselect]
  | case2 count e e' l rl nrl found hgap ih => rw [Gaps.gaps, if_neg hgap, ih]
  | case3 count l rl nrl found hl =>
    rw [Gaps.gaps]
    · rfl
    · exact hl

/-- What comes out at a stop, where `gs` are the gaps. -/
structure Filled (lay : Lay) (x : Int) (gs : List (Int × Int)) (rl nrl found : List Rect)
    (s : List Rect × List Rect × List Rect) : Prop where
  suffix : s.1 <:+ rl
  keeps : nrl ⊆ s.2.1 ∧ found ⊆ s.2.2
  kept : ∀ r ∈ s.2.1, r ∈ nrl ∨ ∃ g ∈ gs, r = fresh x g.1 g.2 ∨
    r.min.y < r.max.y ∧ ∃ r₀ ∈ rl, Part x g.1 g.2 r₀ r
  found : ∀ f ∈ s.2.2, f ∈ found ∨ ∃ r₀ ∈ rl, f = lay.mkr (shut x r₀) ∧ Proper (shut x r₀)
  rest : ∀ r ∈ rl, r ∈ s.1 ∨ (Proper (shut x r) → lay.mkr (shut x r) ∈ s.2.2) ∨ shut x r ∈ s.2.1
  exact : ∀ g ∈ gs, ∃ r ∈ s.2.1, r.min.y = g.1 ∧ r.max.y = g.2
  part : ∀ g ∈ gs, ∀ r ∈ rl, g.1 ≤ r.min.y → r.min.y < g.2 → ∃ r' ∈ s.2.1, Part x g.1 g.2 r r'
  sorted : s.2.1.Pairwise fun r r' => r'.min.y ≤ r.min.y

/-- One gap. -/
theorem fill_filled (hlt : g.1 < g.2) (htall : ∀ r ∈ rl, r.min.y < r.max.y)
    (hsorted : rl.Pairwise (·.min.y ≤ ·.min.y))
    (hnrl : nrl.Pairwise fun r r' => r'.min.y ≤ r.min.y) (hbefore : ∀ a ∈ nrl, a.min.y ≤ g.1) :
    Filled lay x [g] rl nrl found (fill lay x (rl, nrl, found) g) ∧
      (∀ a ∈ (fill lay x (rl, nrl, found) g).2.1, a.min.y < g.2) ∧
      ∀ r ∈ rl, g.2 ≤ r.min.y → r ∈ (fill lay x (rl, nrl, found) g).1 := by
  have hnew : ∀ a ∈ nrl, a.min.y < g.2 ∧ (false = false → a.min.y ≤ g.1) ∧
      ∀ b ∈ rl, a.min.y ≤ max g.1 b.min.y := by
    intro a ha
    have hle := hbefore a ha
    exact ⟨hle.trans_lt hlt, fun _ => hle, fun b _ => hle.trans (le_max_left _ _)⟩
  obtain ⟨hdesc, hbelow⟩ := select_sorted htall hsorted hlt hnrl hnew
  refine ⟨⟨select_suffix htall, ⟨(select_mono htall).1, ?_⟩, ?_, ?_, ?_, ?_, ?_, hdesc⟩, hbelow,
    fun r hr hstop => select_left htall hr hstop⟩
  · exact fun f hf => (mem_foldl_addfound lay.mkr).mpr (Or.inl hf)
  · intro r hr
    refine (select_kept htall hr).imp_right fun hr => ?_
    exact ⟨g, List.mem_cons_self, hr⟩
  · intro f hf
    refine ((mem_foldl_addfound lay.mkr).mp hf).imp_right ?_
    rintro ⟨r, hr, rfl, hproper⟩
    rcases select_found htall hr with hr | ⟨r₀, hr₀, rfl⟩
    · cases hr
    · exact ⟨r₀, hr₀, rfl, mkr_proper.mp hproper⟩
  · intro r hr
    refine (select_rest htall hr).imp_right (Or.imp_left fun hfound hproper => ?_)
    exact (mem_foldl_addfound lay.mkr).mpr (Or.inr ⟨_, hfound, rfl, mkr_proper.mpr hproper⟩)
  · intro g' hg'
    obtain rfl := List.mem_singleton.mp hg'
    exact select_exact htall fun h => absurd h Bool.false_ne_true
  · intro g' hg' r hr hstart hstop
    obtain rfl := List.mem_singleton.mp hg'
    exact select_part htall hsorted hlt hr hstop (hstart.trans_lt (htall r hr))

/-- The next gaps. -/
theorem Filled.trans {s s' : List Rect × List Rect × List Rect}
    (h : Filled lay x [g] rl nrl found s) (h' : Filled lay x gs s.1 s.2.1 s.2.2 s')
    (hleft : ∀ g' ∈ gs, ∀ r ∈ rl, g'.1 ≤ r.min.y → r ∈ s.1) :
    Filled lay x (g :: gs) rl nrl found s' := by
  have hsub : s.1 ⊆ rl := h.suffix.subset
  refine ⟨h'.suffix.trans h.suffix, ⟨fun r hr => h'.keeps.1 (h.keeps.1 hr),
    fun f hf => h'.keeps.2 (h.keeps.2 hf)⟩, ?_, ?_, ?_, ?_, ?_, h'.sorted⟩
  · intro r hr
    rcases h'.kept r hr with hr | ⟨g', hg', hr⟩
    · refine (h.kept r hr).imp_right ?_
      rintro ⟨g', hg', hr⟩
      exact ⟨g', List.mem_cons.mpr (Or.inl (List.mem_singleton.mp hg')), hr⟩
    · refine Or.inr ⟨g', List.mem_cons_of_mem _ hg', hr.imp_right ?_⟩
      rintro ⟨hlt, r₀, hr₀, hpart⟩
      exact ⟨hlt, r₀, hsub hr₀, hpart⟩
  · intro f hf
    rcases h'.found f hf with hf | ⟨r₀, hr₀, hf⟩
    · exact h.found f hf
    · exact Or.inr ⟨r₀, hsub hr₀, hf⟩
  · intro r hr
    rcases h.rest r hr with hr | hr | hr
    · exact h'.rest r hr
    · exact Or.inr (Or.inl fun hproper => h'.keeps.2 (hr hproper))
    · exact Or.inr (Or.inr (h'.keeps.1 hr))
  · intro g' hg'
    rcases List.mem_cons.mp hg' with rfl | hg'
    · obtain ⟨r, hr, hexact⟩ := h.exact g' List.mem_cons_self
      exact ⟨r, h'.keeps.1 hr, hexact⟩
    · exact h'.exact g' hg'
  · intro g' hg' r hr hstart hstop
    rcases List.mem_cons.mp hg' with rfl | hg'
    · obtain ⟨r', hr', hpart⟩ := h.part g' List.mem_cons_self r hr hstart hstop
      exact ⟨r', h'.keeps.1 hr', hpart⟩
    · exact h'.part g' hg' r (hleft g' hg' r hr hstart) hstart hstop

theorem filled (hgs : gs.Pairwise fun g g' => g.2 ≤ g'.1) (hlt : ∀ g ∈ gs, g.1 < g.2)
    (htall : ∀ r ∈ rl, r.min.y < r.max.y) (hsorted : rl.Pairwise (·.min.y ≤ ·.min.y))
    (hnrl : nrl.Pairwise fun r r' => r'.min.y ≤ r.min.y)
    (hbefore : ∀ a ∈ nrl, ∀ g ∈ gs, a.min.y ≤ g.1) :
    Filled lay x gs rl nrl found (gs.foldl (fill lay x) (rl, nrl, found)) := by
  induction gs generalizing rl nrl found with
  | nil =>
    exact {
      suffix := List.suffix_refl _
      keeps := ⟨List.Subset.refl _, List.Subset.refl _⟩
      kept := fun r hr => Or.inl hr
      found := fun f hf => Or.inl hf
      rest := fun r hr => Or.inl hr
      exact := fun g hg => absurd hg List.not_mem_nil
      part := fun g hg => absurd hg List.not_mem_nil
      sorted := hnrl }
  | cons g gs ih =>
    obtain ⟨hhead, htail⟩ := List.pairwise_cons.mp hgs
    obtain ⟨hfirst, hbelow, hleft⟩ : Filled lay x [g] rl nrl found (fill lay x (rl, nrl, found) g) ∧
        (∀ a ∈ (fill lay x (rl, nrl, found) g).2.1, a.min.y < g.2) ∧
        ∀ r ∈ rl, g.2 ≤ r.min.y → r ∈ (fill lay x (rl, nrl, found) g).1 :=
      fill_filled (hlt g List.mem_cons_self) htall hsorted hnrl
        fun a ha => hbefore a ha g List.mem_cons_self
    refine hfirst.trans (ih htail (fun g' hg' => hlt g' (List.mem_cons_of_mem _ hg'))
      (fun r hr => htall r (hfirst.suffix.subset hr)) (hsorted.sublist hfirst.suffix.sublist)
      hfirst.sorted fun a ha g' hg' => ((hbelow a ha).trans_le (hhead g' hg')).le) ?_
    exact fun g' hg' r hr hstart => hleft r hr ((hhead g' hg').trans hstart)

end Scan

end Aimsgui.Winplace
