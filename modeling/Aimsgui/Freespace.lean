import Aimsgui.Vacancy

/-!
# What a sweep finds

A sweep runs to its end, and finds only free rectangles (`sweep_sound`). It does not find all of
them; but it finds one around every free rectangle that has something just before its first corner,
in the direction in which the line lies (`sweep_corner`).
-/

namespace Aimsgui.Winplace

/-- The window is at `x` in the direction of the sweep, and at `y` along the line. -/
def Covers (lay : Lay) (w : Rect) (x y : Int) : Prop :=
  (lay.x w.min ≤ x ∧ x < lay.x w.max) ∧ lay.y w.min ≤ y ∧ y < lay.y w.max

section Crossed

variable (wr : List Rect) (lay : Lay)

/-- Where the sweep reaches a window. -/
def first (i : Nat) : Delta := ⟨1, i, lay.x (win wr i).min⟩

/-- Where the sweep leaves it. -/
def last (i : Nat) : Delta := ⟨-1, i, lay.x (win wr i).max⟩

/-- The windows that the line crosses before the stops `rest`. -/
def crossed (rest : List Delta) : List Nat :=
  (List.range wr.length).filter fun i => first wr lay i ∉ rest ∧ last wr lay i ∈ rest

/-- No window that the line crosses is at `y`. -/
def Clear (act : List Nat) (y : Int) : Prop :=
  ∀ i ∈ act, ¬ (lay.y (win wr i).min ≤ y ∧ y < lay.y (win wr i).max)

variable {wr lay} {rest done : List Delta} {e : Delta} {i w : Nat} {x y X : Int}

theorem mem_crossed :
    i ∈ crossed wr lay rest ↔ i < wr.length ∧ first wr lay i ∉ rest ∧ last wr lay i ∈ rest := by
  rw [crossed, List.mem_filter, List.mem_range, decide_eq_true_eq]

theorem nodup_crossed : (crossed wr lay rest).Nodup := List.nodup_range.filter _

theorem win_mem (hi : i < wr.length) : win wr i ∈ wr :=
  List.mem_of_getElem? (getElem?_eq_win hi)

theorem first_mem (lay : Lay) (hi : i < wr.length) : first wr lay i ∈ sortcoords wr lay :=
  (sortcoords_perm wr lay).mem_iff.mpr
    (List.mem_flatMap.mpr ⟨i, List.mem_range.mpr hi, List.mem_cons_self⟩)

theorem last_mem (lay : Lay) (hi : i < wr.length) : last wr lay i ∈ sortcoords wr lay :=
  (sortcoords_perm wr lay).mem_iff.mpr
    (List.mem_flatMap.mpr ⟨i, List.mem_range.mpr hi, List.mem_cons_of_mem _ List.mem_cons_self⟩)

/-- A stop is an end of a window. -/
theorem mem_sortcoords (he : e ∈ sortcoords wr lay) :
    ∃ i < wr.length, e = first wr lay i ∨ e = last wr lay i := by
  obtain ⟨i, hi, he⟩ := List.mem_flatMap.mp ((sortcoords_perm wr lay).mem_iff.mp he)
  exact ⟨i, List.mem_range.mp hi, List.mem_pair.mp he⟩

theorem first_inj {j : Nat} (h : first wr lay i = first wr lay j) : i = j := (Delta.mk.inj h).2.1

theorem last_inj {j : Nat} (h : last wr lay i = last wr lay j) : i = j := (Delta.mk.inj h).2.1

theorem first_ne_last {j : Nat} : first wr lay i ≠ last wr lay j :=
  fun h => absurd (Delta.mk.inj h).1 (by decide)

theorem sortcoords_nodup (wr : List Rect) (lay : Lay) : (sortcoords wr lay).Nodup := by
  rw [(sortcoords_perm wr lay).nodup_iff, Gaps.ends, List.nodup_flatMap]
  refine ⟨fun i _ => ?_, ?_⟩
  · simp
  · refine List.Pairwise.imp ?_ List.nodup_range
    intro i j hij e hi hj
    rcases List.mem_pair.mp hi with rfl | rfl
    · rcases List.mem_pair.mp hj with hj | hj
      · exact hij (Delta.mk.inj hj).2.1
      · exact absurd (Delta.mk.inj hj).1 (by decide)
    · rcases List.mem_pair.mp hj with hj | hj
      · exact absurd (Delta.mk.inj hj).1 (by decide)
      · exact hij (Delta.mk.inj hj).2.1

/-- The stops before `e` and after it. -/
theorem stop_facts (hall : done ++ e :: rest = sortcoords wr lay) :
    (∀ e' ∈ done, e'.coord ≤ e.coord) ∧ e ∉ rest ∧ ∀ e' ∈ e :: rest, e.coord ≤ e'.coord := by
  have hsorted := sortcoords_sorted wr lay
  have hnodup := sortcoords_nodup wr lay
  rw [← hall] at hsorted hnodup
  obtain ⟨-, htail, hle⟩ := List.pairwise_append.mp hsorted
  refine ⟨fun e' he' => hle e' he' e List.mem_cons_self, ?_, fun e' he' => ?_⟩
  · exact (List.nodup_cons.mp (List.nodup_append.mp hnodup).2.1).1
  · rcases List.mem_cons.mp he' with rfl | he'
    · exact le_rfl
    · exact (List.pairwise_cons.mp htail).1 e' he'

variable (hproper : ∀ w ∈ wr, Proper w)

include hproper

theorem first_lt_last (lay : Lay) (hi : i < wr.length) :
    (first wr lay i).coord < (last wr lay i).coord := by
  have h := hproper _ (win_mem hi)
  cases lay with
  | EW => exact h.1
  | NS => exact h.2

theorem y_lt_y (lay : Lay) (hi : i < wr.length) : lay.y (win wr i).min < lay.y (win wr i).max := by
  have h := hproper _ (win_mem hi)
  cases lay with
  | EW => exact h.2
  | NS => exact h.1

variable (hall : done ++ e :: rest = sortcoords wr lay)

include hall

/-- The line reaches `w`. -/
theorem crossed_first (hw : w < wr.length) (he : e = first wr lay w) :
    (crossed wr lay rest).Perm (w :: crossed wr lay (e :: rest)) := by
  obtain ⟨hle, hnot, -⟩ := stop_facts hall
  have hfirst : first wr lay w ∈ e :: rest := he ▸ List.mem_cons_self
  have hnew : w ∉ crossed wr lay (e :: rest) := fun hm => (mem_crossed.mp hm).2.1 hfirst
  have hlast : last wr lay w ∈ rest := by
    have hmem := last_mem lay hw
    rw [← hall] at hmem
    rcases List.mem_append.mp hmem with hm | hm
    · have hlt := first_lt_last hproper lay hw
      rw [← he] at hlt
      exact absurd (hle _ hm) (not_le_of_gt hlt)
    · refine (List.mem_cons.mp hm).resolve_left fun heq => ?_
      exact first_ne_last (he.symm.trans heq.symm)
  refine (List.perm_ext_iff_of_nodup nodup_crossed (List.nodup_cons.mpr ⟨hnew, nodup_crossed⟩)).mpr ?_
  intro i
  rw [List.mem_cons, mem_crossed, mem_crossed]
  by_cases hi : i = w
  · subst hi
    exact iff_of_true ⟨hw, he ▸ hnot, hlast⟩ (Or.inl rfl)
  · have hfirst' : first wr lay i ≠ e := fun h => hi (first_inj (h.trans he))
    have hlast' : last wr lay i ≠ e := fun h => first_ne_last (he.symm.trans h.symm)
    simp [hi, hfirst', hlast']

/-- The line leaves `w`. -/
theorem crossed_last (hw : w < wr.length) (he : e = last wr lay w) :
    w ∈ crossed wr lay (e :: rest) ∧
      (crossed wr lay rest).Perm ((crossed wr lay (e :: rest)).erase w) := by
  obtain ⟨-, hnot, hge⟩ := stop_facts hall
  constructor
  · refine mem_crossed.mpr ⟨hw, fun hm => ?_, he ▸ List.mem_cons_self⟩
    have hlt := first_lt_last hproper lay hw
    rw [← he] at hlt
    exact absurd (hge _ hm) (not_le_of_gt hlt)
  · refine (List.perm_ext_iff_of_nodup nodup_crossed (nodup_crossed.erase w)).mpr ?_
    intro i
    rw [nodup_crossed.mem_erase_iff, mem_crossed, mem_crossed]
    by_cases hi : i = w
    · subst hi
      exact iff_of_false (fun h => hnot (he ▸ h.2.2)) fun h => h.1 rfl
    · have hfirst' : first wr lay i ≠ e := fun h => first_ne_last (h.trans he)
      have hlast' : last wr lay i ≠ e := fun h => hi (last_inj (h.trans he))
      simp [hi, hfirst', hlast']

end Crossed

/-- Between two stops the line crosses what is there. -/
theorem mem_crossed_iff {wr : List Rect} {lay : Lay} {done rest : List Delta} {i : Nat} {x : Int}
    (hall : done ++ rest = sortcoords wr lay) (hdone : ∀ e ∈ done, e.coord ≤ x)
    (hrest : ∀ e ∈ rest, x < e.coord) :
    i ∈ crossed wr lay rest ↔
      i < wr.length ∧ lay.x (win wr i).min ≤ x ∧ x < lay.x (win wr i).max := by
  rw [mem_crossed]
  refine and_congr_right fun hi => and_congr ⟨fun h => ?_, fun h hm => ?_⟩ ⟨fun h => ?_, fun h => ?_⟩
  · have hmem := first_mem lay hi
    rw [← hall] at hmem
    exact hdone _ ((List.mem_append.mp hmem).resolve_right h)
  · exact absurd (hrest _ hm) (not_lt.mpr h)
  · exact hrest _ h
  · have hmem := last_mem lay hi
    rw [← hall] at hmem
    exact (List.mem_append.mp hmem).resolve_left fun hm => absurd h (not_lt.mpr (hdone _ hm))

/-! ## A stop -/

/-- What is followed after a stop at `x`, where the line crosses the windows `act`. -/
structure Passed (wr : List Rect) (lay : Lay) (act : List Nat) (x : Int) (s s' : Sweep) : Prop where
  keeps : s.found ⊆ s'.found
  /-- what is followed is clear, and has been followed or starts here -/
  kept : ∀ r ∈ s'.rl, r.min.y < r.max.y ∧
    (∀ y, r.min.y ≤ y → y < r.max.y → Clear wr lay act y) ∧
    (∃ i ∈ act, lay.y (win wr i).min ≤ r.min.y) ∧ (∃ i ∈ act, r.max.y ≤ lay.y (win wr i).max) ∧
    (r.min.x = x ∨ ∃ r₀ ∈ s.rl, r.min.x = r₀.min.x ∧ r₀.min.y ≤ r.min.y ∧ r.max.y ≤ r₀.max.y)
  /-- what is found has been followed -/
  found : ∀ f ∈ s'.found, f ∈ s.found ∨
    ∃ r₀ ∈ s.rl, f = lay.mkr (shut x r₀) ∧ Proper (shut x r₀)
  /-- what has been followed is found or still followed -/
  rest : ∀ r ∈ s.rl, (Proper (shut x r) → lay.mkr (shut x r) ∈ s'.found) ∨ shut x r ∈ s'.rl
  /-- wherever it is clear between two windows, something is followed that goes as far as it can -/
  fills : ∀ y, Clear wr lay act y → (∃ i ∈ act, lay.y (win wr i).min ≤ y) →
    (∃ i ∈ act, y < lay.y (win wr i).max) →
    ∃ r ∈ s'.rl, r.min.y ≤ y ∧ y < r.max.y ∧
      ¬ Clear wr lay act (r.min.y - 1) ∧ ¬ Clear wr lay act r.max.y
  /-- what stays clear at the start of a rectangle is still followed -/
  part : ∀ r ∈ s.rl, ∀ y, r.min.y < y → y ≤ r.max.y →
    (∀ z, r.min.y ≤ z → z < y → Clear wr lay act z) →
    (∃ i ∈ act, lay.y (win wr i).min ≤ r.min.y) → (∃ i ∈ act, r.min.y < lay.y (win wr i).max) →
    ∃ r' ∈ s'.rl, r'.min = r.min ∧ y ≤ r'.max.y
  sorted : s'.rl.Pairwise (·.min.y ≤ ·.min.y)

section Stop

variable {wr : List Rect} {lay : Lay} {act : List Nat} {s : Sweep} {cr : List Delta} {ncr : Nat}
  {x : Int}

/-- What the line does at a stop, once the ends of the windows that it crosses are in order. -/
theorem passed (hlt : ∀ i ∈ act, lay.y (win wr i).min < lay.y (win wr i).max)
    (hcrosses : Crosses (fun i => lay.y (win wr i).min) (fun i => lay.y (win wr i).max) act cr ncr)
    (htall : ∀ r ∈ s.rl, r.min.y < r.max.y) (hsorted : s.rl.Pairwise (·.min.y ≤ ·.min.y)) :
    Passed wr lay act x s
      ⟨cr, ncr, (scan lay x 0 (cr.take ncr) s.rl [] s.found).2.1.reverse,
        (scan lay x 0 (cr.take ncr) s.rl [] s.found).1.foldl
          (fun found r => addfound found (lay.mkr (shut x r)))
          (scan lay x 0 (cr.take ncr) s.rl [] s.found).2.2⟩ := by
  obtain ⟨l, junk, rfl, rfl, hl, hperm⟩ := hcrosses
  rw [List.take_left, scan_eq]
  have hgap : ∀ g ∈ Gaps.gaps Delta.d Delta.coord 0 l, g.1 < g.2 ∧
      (∀ y, g.1 ≤ y → y < g.2 → Clear wr lay act y) ∧
      (∃ i ∈ act, lay.y (win wr i).min ≤ g.1) ∧ (∃ i ∈ act, g.2 ≤ lay.y (win wr i).max) ∧
      ¬ Clear wr lay act (g.1 - 1) ∧ ¬ Clear wr lay act g.2 := by
    intro g hg
    obtain ⟨hfirst, hlast⟩ := Gaps.within hperm hlt hg
    obtain ⟨hbefore, hafter⟩ :=
      Gaps.bounded hl hperm (fun _ _ => rfl) (fun _ _ => rfl) hlt hg
    refine ⟨(Gaps.ends_of_mem hg).1, fun y hle hgt => ?_, hfirst, hlast, hbefore, hafter⟩
    have hfree := Gaps.free_of_mem hl hperm (fun _ _ => rfl) (fun _ _ => rfl) hlt hg ⟨hle, hgt⟩
    exact hfree
  have hexists : ∀ y, Clear wr lay act y → (∃ i ∈ act, lay.y (win wr i).min ≤ y) →
      (∃ i ∈ act, y < lay.y (win wr i).max) →
      ∃ g ∈ Gaps.gaps Delta.d Delta.coord 0 l, g.1 ≤ y ∧ y < g.2 :=
    fun y hy => Gaps.exists_gap hl hperm (fun _ _ => rfl) (fun _ _ => rfl) hlt hy
  have hfilled : Filled lay x (Gaps.gaps Delta.d Delta.coord 0 l) s.rl [] s.found
      ((Gaps.gaps Delta.d Delta.coord 0 l).foldl (fill lay x) (s.rl, [], s.found)) :=
    filled (Gaps.gaps_sorted hl) (fun g hg => (hgap g hg).1) htall hsorted List.Pairwise.nil
      fun a ha => absurd ha List.not_mem_nil
  generalize (Gaps.gaps Delta.d Delta.coord 0 l).foldl (fill lay x) (s.rl, [], s.found) = t at hfilled ⊢
  have hfound : ∀ f ∈ t.2.2, f ∈ t.1.foldl
      (fun found r => addfound found (lay.mkr (shut x r))) t.2.2 :=
    fun f hf => (mem_foldl_addfound fun r => lay.mkr (shut x r)).mpr (Or.inl hf)
  refine ⟨fun f hf => hfound f (hfilled.keeps.2 hf), ?_, ?_, ?_, ?_, ?_, ?_⟩
  · intro r hr
    rcases hfilled.kept r (List.mem_reverse.mp hr) with hr | ⟨g, hg, rfl | ⟨htall, r₀, hr₀, hpart⟩⟩
    · cases hr
    · obtain ⟨hlt, hclear, hfirst, hlast, -⟩ := hgap g hg
      exact ⟨hlt, hclear, hfirst, hlast, Or.inl rfl⟩
    · obtain ⟨-, hclear, ⟨i, hi, hfirst⟩, ⟨j, hj, hlast⟩, -⟩ := hgap g hg
      have htop := hpart.top
      have hbottom := hpart.bottom
      refine ⟨htall, fun y hle hgt => hclear y (by omega) (by omega), ⟨i, hi, by omega⟩,
        ⟨j, hj, by omega⟩, Or.inr ⟨r₀, hr₀, hpart.left, by omega, by omega⟩⟩
  · intro f hf
    rcases (mem_foldl_addfound fun r => lay.mkr (shut x r)).mp hf with hf | ⟨r, hr, rfl, hproper⟩
    · exact hfilled.found f hf
    · exact Or.inr ⟨r, hfilled.suffix.subset hr, rfl, mkr_proper.mp hproper⟩
  · intro r hr
    rcases hfilled.rest r hr with hr | hr | hr
    · refine Or.inl fun hproper => (mem_foldl_addfound fun r => lay.mkr (shut x r)).mpr (Or.inr ?_)
      exact ⟨r, hr, rfl, mkr_proper.mpr hproper⟩
    · exact Or.inl fun hproper => hfound _ (hr hproper)
    · exact Or.inr (List.mem_reverse.mpr hr)
  · intro y hy hfirst hlast
    obtain ⟨g, hg, hle, hgt⟩ := hexists y hy hfirst hlast
    obtain ⟨-, -, -, -, hbefore, hafter⟩ := hgap g hg
    obtain ⟨r, hr, htop, hbottom⟩ := hfilled.exact g hg
    refine ⟨r, List.mem_reverse.mpr hr, ?_⟩
    rw [htop, hbottom]
    exact ⟨hle, hgt, hbefore, hafter⟩
  · intro r hr y hlt' hle hclear hfirst hlast
    obtain ⟨g, hg, hge, hgt⟩ := hexists r.min.y (hclear _ le_rfl hlt') hfirst hlast
    obtain ⟨-, -, -, -, -, hafter⟩ := hgap g hg
    obtain ⟨r', hr', hpart⟩ := hfilled.part g hg r hr hge hgt
    have hend : y ≤ g.2 := by
      by_contra hlt
      exact hafter (hclear g.2 hgt.le (not_le.mp hlt))
    refine ⟨r', List.mem_reverse.mpr hr', ?_, ?_⟩
    · rw [Point.ext_iff', hpart.left, hpart.top]
      exact ⟨rfl, max_eq_right hge⟩
    · rw [hpart.bottom]
      exact le_min hend hle
  · exact List.pairwise_reverse.mpr hfilled.sorted

end Stop

/-! ## The whole sweep -/

section Run

variable {wr : List Rect} {lay : Lay} {done rest : List Delta} {e : Delta} {s s' : Sweep}
  {x y X : Int} {r f : Rect}

/-- The sweep has been at the stops `done`, the last one at `X`. -/
structure Along (wr : List Rect) (lay : Lay) (done rest : List Delta) (X : Int) (s : Sweep) :
    Prop where
  all : done ++ rest = sortcoords wr lay
  before : ∀ e ∈ done, e.coord ≤ X
  after : ∀ e ∈ rest, X ≤ e.coord
  size : s.cr.length = 2 * wr.length
  crosses : Crosses (fun i => lay.y (win wr i).min) (fun i => lay.y (win wr i).max)
    (crossed wr lay rest) s.cr s.ncr
  sorted : s.rl.Pairwise (·.min.y ≤ ·.min.y)
  left : ∀ r ∈ s.rl, r.min.x ≤ X ∧ ∃ i < wr.length, lay.x (win wr i).min ≤ r.min.x
  kept : ∀ r ∈ s.rl, r.min.y < r.max.y ∧
    (∀ y, r.min.y ≤ y → y < r.max.y → Clear wr lay (crossed wr lay rest) y) ∧
    (∃ i ∈ crossed wr lay rest, lay.y (win wr i).min ≤ r.min.y) ∧
    ∃ i ∈ crossed wr lay rest, r.max.y ≤ lay.y (win wr i).max
  free : ∀ r ∈ s.rl, ∀ x y, r.min.x ≤ x → x < X → r.min.y ≤ y → y < r.max.y →
    ∀ i < wr.length, ¬ Covers lay (win wr i) x y

/-- After the last stop nothing is followed. -/
theorem Along.rl_nil (h : Along wr lay done [] X s) : s.rl = [] := by
  refine List.eq_nil_iff_forall_not_mem.mpr fun r hr => ?_
  obtain ⟨-, -, ⟨i, hi, -⟩, -⟩ := h.kept r hr
  exact absurd (mem_crossed.mp hi).2.2 List.not_mem_nil

/-- A rectangle where no window is, between some windows. -/
def Vacant (wr : List Rect) (lay : Lay) (f : Rect) : Prop :=
  ∃ r, f = lay.mkr r ∧ Proper r ∧
    (∀ x y, r.min.x ≤ x → x < r.max.x → r.min.y ≤ y → y < r.max.y →
      ∀ i < wr.length, ¬ Covers lay (win wr i) x y) ∧
    (∃ i < wr.length, lay.x (win wr i).min ≤ r.min.x) ∧
    (∃ i < wr.length, r.max.x ≤ lay.x (win wr i).max) ∧
    (∃ i < wr.length, lay.y (win wr i).min ≤ r.min.y) ∧
    ∃ i < wr.length, r.max.y ≤ lay.y (win wr i).max

variable (hproper : ∀ w ∈ wr, Proper w)

include hproper

/-- At a stop the line reaches a window or leaves one. -/
theorem Along.cross (h : Along wr lay done (e :: rest) X s) :
    ∃ w cr ncr, wr[e.wid]? = some w ∧
      (if 0 < e.d then addwin s.cr s.ncr e.wid (lay.y w.min) (lay.y w.max)
        else removewin s.cr s.ncr e.wid (lay.y w.min) (lay.y w.max)) = some (cr, ncr) ∧
      cr.length = 2 * wr.length ∧
      Crosses (fun i => lay.y (win wr i).min) (fun i => lay.y (win wr i).max)
        (crossed wr lay rest) cr ncr := by
  have he : e ∈ sortcoords wr lay := h.all ▸ List.mem_append_right _ List.mem_cons_self
  obtain ⟨i, hi, he⟩ := mem_sortcoords he
  have hlt := y_lt_y hproper lay hi
  rcases he with rfl | rfl
  · have hperm := crossed_first hproper h.all hi rfl
    have hroom : s.ncr + 2 ≤ s.cr.length := by
      have hsub : (crossed wr lay rest).length ≤ (List.range wr.length).length :=
        (List.filter_sublist (l := List.range wr.length)).length_le
      rw [hperm.length_eq, List.length_cons, List.length_range] at hsub
      rw [h.crosses.length, h.size]
      omega
    obtain ⟨cr, hadd, hsize, hcrosses⟩ := addwin_crosses h.crosses hroom hlt
    refine ⟨win wr i, cr, s.ncr + 2, getElem?_eq_win hi, ?_, hsize.trans h.size, hcrosses.perm hperm⟩
    rw [if_pos (show 0 < (first wr lay i).d from Int.one_pos)]
    exact hadd
  · obtain ⟨hmem, hperm⟩ := crossed_last hproper h.all hi rfl
    obtain ⟨cr, hremove, hsize, hcrosses⟩ := removewin_crosses h.crosses hmem hlt
    refine ⟨win wr i, cr, s.ncr - 2, getElem?_eq_win hi, ?_, hsize.trans h.size, hcrosses.perm hperm⟩
    have hneg : ¬ (0 : Int) < -1 := by decide
    rw [if_neg (show ¬ 0 < (last wr lay i).d from hneg)]
    exact hremove

/-- A window starts before every stop, or there, and one ends after it, or there. -/
theorem exists_around (he : e ∈ sortcoords wr lay) :
    (∃ i < wr.length, lay.x (win wr i).min ≤ e.coord) ∧
      ∃ i < wr.length, e.coord ≤ lay.x (win wr i).max := by
  obtain ⟨i, hi, he⟩ := mem_sortcoords he
  have hlt := first_lt_last hproper lay hi
  rcases he with rfl | rfl
  · exact ⟨⟨i, hi, le_rfl⟩, i, hi, hlt.le⟩
  · exact ⟨⟨i, hi, hlt.le⟩, i, hi, le_rfl⟩

/-- A stop. -/
theorem Along.step (h : Along wr lay done (e :: rest) X s) :
    ∃ s', Winplace.stop wr lay e s = some s' ∧ Along wr lay (done ++ [e]) rest e.coord s' ∧
      Passed wr lay (crossed wr lay rest) e.coord s s' ∧
      ∀ f ∈ s'.found, f ∈ s.found ∨ Vacant wr lay f := by
  obtain ⟨w, cr, ncr, hw, hcr, hsize, hcrosses⟩ := h.cross hproper
  obtain ⟨hdone, -, hrest⟩ := stop_facts h.all
  have hpassed := passed (x := e.coord) (s := s)
    (fun i hi => y_lt_y hproper lay (mem_crossed.mp hi).1) hcrosses (fun r hr => (h.kept r hr).1)
    h.sorted
  have hkept := hpassed.kept
  obtain ⟨hstarts, hstops⟩ :=
    exists_around hproper (h.all ▸ List.mem_append_right done (List.mem_cons_self (a := e)))
  -- what is followed was clear up to here
  have hfree : ∀ r₀ ∈ s.rl, ∀ x y, r₀.min.x ≤ x → x < e.coord → r₀.min.y ≤ y → y < r₀.max.y →
      ∀ i < wr.length, ¬ Covers lay (win wr i) x y := by
    intro r₀ hr₀ x y hle hgt htop hbottom i hi hcovers
    rcases lt_or_ge x X with hx | hx
    · exact h.free r₀ hr₀ x y hle hx htop hbottom i hi hcovers
    · have hmem : i ∈ crossed wr lay (e :: rest) := by
        refine (mem_crossed_iff h.all (fun e' he' => (h.before e' he').trans hx) ?_).mpr
          ⟨hi, hcovers.1⟩
        exact fun e' he' => hgt.trans_le (hrest e' he')
      exact (h.kept r₀ hr₀).2.1 y htop hbottom i hmem hcovers.2
  refine ⟨_, ?_, ?_, hpassed, fun f hf => (hpassed.found f hf).imp_right ?_⟩
  · rw [Winplace.stop, hw]
    simp only [Option.bind_eq_bind, Option.bind_some, Option.pure_def]
    split_ifs at hcr ⊢ with hd
    · rw [hcr]
      rfl
    · rw [hcr]
      rfl
  · refine ⟨?_, ?_, fun e' he' => hrest e' (List.mem_cons_of_mem _ he'), hsize, hcrosses,
      hpassed.sorted, ?_, ?_, ?_⟩
    · rw [List.append_assoc]
      exact h.all
    · intro e' he'
      rcases List.mem_append.mp he' with he' | he'
      · exact hdone e' he'
      · rw [List.mem_singleton.mp he']
    · intro r hr
      obtain ⟨-, -, -, -, hstart | ⟨r₀, hr₀, hleft, -⟩⟩ := hkept r hr
      · rw [hstart]
        exact ⟨le_rfl, hstarts⟩
      · rw [hleft]
        exact ⟨(h.left r₀ hr₀).1.trans (h.after e List.mem_cons_self), (h.left r₀ hr₀).2⟩
    · intro r hr
      obtain ⟨htall, hclear, hfirst, hlast, -⟩ := hkept r hr
      exact ⟨htall, hclear, hfirst, hlast⟩
    · intro r hr x y hle hgt htop hbottom
      obtain ⟨-, -, -, -, hstart | ⟨r₀, hr₀, hleft, htop₀, hbottom₀⟩⟩ := hkept r hr
      · exact absurd (hstart.ge.trans hle) (not_le_of_gt hgt)
      · exact hfree r₀ hr₀ x y (hleft ▸ hle) hgt (htop₀.trans htop) (hbottom.trans_le hbottom₀)
  · rintro ⟨r₀, hr₀, rfl, hr⟩
    obtain ⟨-, -, ⟨i, hi, htop⟩, j, hj, hbottom⟩ := h.kept r₀ hr₀
    exact ⟨shut e.coord r₀, rfl, hr, hfree r₀ hr₀, (h.left r₀ hr₀).2, hstops,
      ⟨i, (mem_crossed.mp hi).1, htop⟩, j, (mem_crossed.mp hj).1, hbottom⟩

/-- A sweep runs to its end, and finds what is vacant. -/
theorem Along.run (h : Along wr lay done rest X s) :
    ∃ s', rest.foldlM (fun s e => Winplace.stop wr lay e s) s = some s' ∧ s.found ⊆ s'.found ∧
      ∀ f ∈ s'.found, f ∈ s.found ∨ Vacant wr lay f := by
  induction rest generalizing done X s with
  | nil => exact ⟨s, rfl, List.Subset.refl _, fun f hf => Or.inl hf⟩
  | cons e rest ih =>
    obtain ⟨s₁, hstop, halong, hpassed, hvacant⟩ := h.step hproper
    obtain ⟨s', hrun, hkeeps, hfound⟩ := ih halong
    refine ⟨s', ?_, fun f hf => hkeeps (hpassed.keeps hf), fun f hf => ?_⟩
    · rw [List.foldlM_cons, hstop]
      exact hrun
    · rcases hfound f hf with hf | hf
      · exact hvacant f hf
      · exact Or.inr hf

/-! ### What is found -/

/-- What is followed is found in the end. -/
theorem Along.found_later (h : Along wr lay done rest X s)
    (hrun : rest.foldlM (fun s e => Winplace.stop wr lay e s) s = some s') {x₁ : Int}
    (hr : r ∈ s.rl) (hlt : r.min.x < x₁) (hrest : ∀ e ∈ rest, x₁ ≤ e.coord) :
    ∃ x, x₁ ≤ x ∧ lay.mkr (shut x r) ∈ s'.found := by
  induction rest generalizing done X s r with
  | nil =>
    rw [h.rl_nil] at hr
    cases hr
  | cons e rest ih =>
    obtain ⟨s₁, hstop, halong, hpassed, -⟩ := h.step hproper
    rw [List.foldlM_cons, hstop] at hrun
    have hle := hrest e List.mem_cons_self
    rcases hpassed.rest r hr with hfound | hkept
    · obtain ⟨s₂, hrun', hkeeps, -⟩ := halong.run hproper
      obtain rfl := Option.some.inj (hrun.symm.trans hrun')
      exact ⟨e.coord, hle, hkeeps (hfound ⟨hlt.trans_le hle, (h.kept r hr).1⟩)⟩
    · exact ih (r := shut e.coord r) halong hrun hkept hlt fun e' he' => hrest e' (List.mem_cons_of_mem _ he')

/-- A rectangle where no window is, with windows at its sides that reach from its start to its
end. -/
structure Framed (wr : List Rect) (lay : Lay) (x₀ x₁ y₀ y₁ : Int) : Prop where
  wide : x₀ < x₁
  tall : y₀ < y₁
  free : ∀ x y, x₀ ≤ x → x < x₁ → y₀ ≤ y → y < y₁ → ∀ i < wr.length, ¬ Covers lay (win wr i) x y
  above : ∃ i < wr.length, lay.x (win wr i).min ≤ x₀ ∧ x₁ ≤ lay.x (win wr i).max ∧
    lay.y (win wr i).min ≤ y₀
  below : ∃ i < wr.length, lay.x (win wr i).min ≤ x₀ ∧ x₁ ≤ lay.x (win wr i).max ∧
    y₁ ≤ lay.y (win wr i).max

variable {x₀ x₁ y₀ y₁ : Int} (hframed : Framed wr lay x₀ x₁ y₀ y₁)

include hframed

/-- Beside the rectangle the line crosses nothing in it, but the windows at its sides. -/
theorem beside {c : Int} (hall : done ++ rest = sortcoords wr lay)
    (hdone : ∀ e ∈ done, e.coord ≤ c) (hrest : ∀ e ∈ rest, c ≤ e.coord) (hle : x₀ ≤ c)
    (hlt : c < x₁) (hc : x₀ < c ∨ ∀ e ∈ rest, c < e.coord) :
    (∀ y, y₀ ≤ y → y < y₁ → Clear wr lay (crossed wr lay rest) y) ∧
      (∃ i ∈ crossed wr lay rest, lay.y (win wr i).min ≤ y₀) ∧
      ∃ i ∈ crossed wr lay rest, y₁ ≤ lay.y (win wr i).max := by
  have hmem : ∀ i < wr.length, lay.x (win wr i).min ≤ x₀ → x₁ ≤ lay.x (win wr i).max →
      i ∈ crossed wr lay rest := by
    intro i hi hfirst hlast
    refine mem_crossed.mpr ⟨hi, fun hm => ?_, ?_⟩
    · have hge : c ≤ lay.x (win wr i).min := hrest _ hm
      rcases hc with hc | hc
      · omega
      · have hgt : c < lay.x (win wr i).min := hc _ hm
        omega
    · have hm := last_mem lay hi
      rw [← hall] at hm
      refine (List.mem_append.mp hm).resolve_left fun hm => ?_
      have hge : lay.x (win wr i).max ≤ c := hdone _ hm
      omega
  refine ⟨fun y hy₀ hy₁ i hi hcovers => ?_, ?_, ?_⟩
  · obtain ⟨hi, hfirst, hlast⟩ := mem_crossed.mp hi
    have hlt' : lay.x (win wr i).min < lay.x (win wr i).max := first_lt_last hproper lay hi
    have hstart : lay.x (win wr i).min ≤ c := by
      have hm := first_mem lay hi
      rw [← hall] at hm
      exact hdone _ ((List.mem_append.mp hm).resolve_right hfirst)
    have hstop : c ≤ lay.x (win wr i).max := hrest _ hlast
    rcases Int.lt_or_eq_of_le hstop with hgt | heq
    · exact hframed.free c y hle hlt hy₀ hy₁ i hi ⟨⟨hstart, hgt⟩, hcovers⟩
    · -- it is about to be left here, and has been there just before
      have hgt : x₀ < c := by
        refine hc.resolve_right fun hall' => ?_
        exact absurd (hall' _ hlast) (by rw [heq]; exact lt_irrefl _)
      exact hframed.free (c - 1) y (by omega) (by omega) hy₀ hy₁ i hi
        ⟨⟨by omega, by omega⟩, hcovers⟩
  · obtain ⟨i, hi, hfirst, hlast, hy⟩ := hframed.above
    exact ⟨i, hmem i hi hfirst hlast, hy⟩
  · obtain ⟨i, hi, hfirst, hlast, hy⟩ := hframed.below
    exact ⟨i, hmem i hi hfirst hlast, hy⟩

/-- Once the rectangle is part of something that is followed, it is part of something that is
found. -/
theorem Along.follow (h : Along wr lay done rest X s)
    (hrun : rest.foldlM (fun s e => Winplace.stop wr lay e s) s = some s') (hr : r ∈ s.rl)
    (hx : r.min.x ≤ x₀) (hrest : ∀ e ∈ rest, x₀ < e.coord) (hy₀ : r.min.y = y₀)
    (hy₁ : y₁ ≤ r.max.y) :
    ∃ r', lay.mkr r' ∈ s'.found ∧ r'.min.x ≤ x₀ ∧ x₁ ≤ r'.max.x ∧ r'.min.y ≤ y₀ ∧ y₁ ≤ r'.max.y := by
  induction rest generalizing done X s r with
  | nil =>
    rw [h.rl_nil] at hr
    cases hr
  | cons e rest ih =>
    obtain ⟨-, -, hge⟩ := stop_facts h.all
    rcases lt_or_ge e.coord x₁ with hlt | hge₁
    · obtain ⟨s₁, hstop, halong, hpassed, -⟩ := h.step hproper
      rw [List.foldlM_cons, hstop] at hrun
      have hgt := hrest e List.mem_cons_self
      obtain ⟨hclear, ⟨i, hi, habove⟩, j, hj, hbelow⟩ := beside hproper hframed halong.all
        halong.before halong.after hgt.le hlt (Or.inl hgt)
      have htall := hframed.tall
      obtain ⟨r', hr', hmin, hmax⟩ := hpassed.part r hr y₁ (by omega) hy₁
        (fun z hz hz₁ => hclear z (by omega) hz₁) ⟨i, hi, by omega⟩ ⟨j, hj, by omega⟩
      exact ih halong hrun hr' (hmin ▸ hx) (fun e' he' => hrest e' (List.mem_cons_of_mem _ he'))
        (hmin ▸ hy₀) hmax
    · have hwide := hframed.wide
      obtain ⟨x, hx₁, hfound⟩ := h.found_later hproper hrun hr (hx.trans_lt hwide)
        fun e' he' => hge₁.trans (hge e' he')
      exact ⟨_, hfound, hx, hx₁, hy₀.le, hy₁⟩

variable (hcorner : ∃ i < wr.length, Covers lay (win wr i) x₀ (y₀ - 1))

include hcorner

/-- The rectangle gets followed at the last stop before it, if there is a window just above its
first corner. -/
theorem Along.corner (h : Along wr lay done rest X s) (hX : X ≤ x₀) (hnext : ∃ e ∈ rest, e.coord ≤ x₀)
    (hrun : rest.foldlM (fun s e => Winplace.stop wr lay e s) s = some s') :
    ∃ r', lay.mkr r' ∈ s'.found ∧ r'.min.x ≤ x₀ ∧ x₁ ≤ r'.max.x ∧ r'.min.y ≤ y₀ ∧ y₁ ≤ r'.max.y := by
  induction rest generalizing done X s with
  | nil =>
    obtain ⟨e, he, -⟩ := hnext
    exact absurd he List.not_mem_nil
  | cons e rest ih =>
    obtain ⟨-, -, hge⟩ := stop_facts h.all
    have he : e.coord ≤ x₀ := by
      obtain ⟨e', he', hle⟩ := hnext
      exact (hge e' he').trans hle
    obtain ⟨s₁, hstop, halong, hpassed, -⟩ := h.step hproper
    rw [List.foldlM_cons, hstop] at hrun
    by_cases hlater : ∃ e' ∈ rest, e'.coord ≤ x₀
    · exact ih halong he hlater hrun
    · have hrest : ∀ e' ∈ rest, x₀ < e'.coord := by
        intro e' he'
        by_contra hle
        exact hlater ⟨e', he', not_lt.mp hle⟩
      have hdone : ∀ e' ∈ done ++ [e], e'.coord ≤ x₀ := fun e' he' => (halong.before e' he').trans he
      obtain ⟨hclear, ⟨i, hi, habove⟩, j, hj, hbelow⟩ := beside hproper hframed halong.all hdone
        (fun e' he' => (hrest e' he').le) le_rfl hframed.wide (Or.inr hrest)
      have htall := hframed.tall
      obtain ⟨r, hr, htop, hbottom, hstart, hend⟩ := hpassed.fills y₀ (hclear y₀ le_rfl htall)
        ⟨i, hi, habove⟩ ⟨j, hj, by omega⟩
      obtain ⟨htall', hclear', -⟩ := halong.kept r hr
      have hmax : y₁ ≤ r.max.y := by
        by_contra hlt
        exact hend (hclear _ (by omega) (by omega))
      have hmin : r.min.y = y₀ := by
        by_contra hne
        -- otherwise it would be clear above the corner
        obtain ⟨k, hk, hcovers⟩ := hcorner
        have hkmem : k ∈ crossed wr lay rest :=
          (mem_crossed_iff halong.all hdone hrest).mpr ⟨hk, hcovers.1⟩
        exact hclear' (y₀ - 1) (by omega) (by omega) k hkmem hcovers.2
      exact halong.follow hproper hframed hrun hr ((halong.left r hr).1.trans he) hrest hmin hmax

end Run

section Sweep

variable (wr : List Rect) (lay : Lay) (found : List Rect)

/-- Before the first stop. -/
theorem along_start : ∃ X, Along wr lay [] (sortcoords wr lay) X
      ⟨List.replicate (2 * wr.length) default, 0, [], found⟩ := by
  have hfirst : ∃ X, ∀ e ∈ sortcoords wr lay, X ≤ e.coord := by
    have hsorted := sortcoords_sorted wr lay
    cases hall : sortcoords wr lay with
    | nil => exact ⟨0, fun e he => absurd he List.not_mem_nil⟩
    | cons e rest =>
      rw [hall] at hsorted
      refine ⟨e.coord, fun e' he' => ?_⟩
      rcases List.mem_cons.mp he' with rfl | he'
      · exact le_rfl
      · exact (List.pairwise_cons.mp hsorted).1 e' he'
  obtain ⟨X, hX⟩ := hfirst
  have hcrossed : crossed wr lay (sortcoords wr lay) = [] := by
    refine List.eq_nil_iff_forall_not_mem.mpr fun i hi => ?_
    obtain ⟨hlt, hnot, -⟩ := mem_crossed.mp hi
    exact hnot (first_mem lay hlt)
  refine ⟨X, rfl, fun e he => absurd he List.not_mem_nil, hX, List.length_replicate, ?_,
    List.Pairwise.nil, fun r hr => absurd hr List.not_mem_nil, fun r hr => absurd hr List.not_mem_nil,
    fun r hr => absurd hr List.not_mem_nil⟩
  rw [hcrossed]
  exact ⟨[], _, rfl, rfl, List.Pairwise.nil, List.Perm.refl _⟩

variable {wr} (hproper : ∀ w ∈ wr, Proper w)

include hproper

/-- A sweep finds vacant rectangles, and one around every free rectangle that has a window just
above its first corner. -/
theorem sweep_spec : ∃ found', sweep wr lay found = some found' ∧ found ⊆ found' ∧
    (∀ f ∈ found', f ∈ found ∨ Vacant wr lay f) ∧
    ∀ x₀ x₁ y₀ y₁, Framed wr lay x₀ x₁ y₀ y₁ →
      (∃ i < wr.length, Covers lay (win wr i) x₀ (y₀ - 1)) →
      ∃ r, lay.mkr r ∈ found' ∧ r.min.x ≤ x₀ ∧ x₁ ≤ r.max.x ∧ r.min.y ≤ y₀ ∧ y₁ ≤ r.max.y := by
  obtain ⟨X, hstart⟩ := along_start wr lay found
  obtain ⟨s, hrun, hkeeps, hfound⟩ := hstart.run hproper
  refine ⟨s.found, ?_, hkeeps, hfound, ?_⟩
  · rw [sweep, hrun]
    rfl
  · intro x₀ x₁ y₀ y₁ hframed hcorner
    obtain ⟨i, hi, hcovers⟩ := hcorner
    have hmem := first_mem lay hi
    exact hstart.corner hproper hframed ⟨i, hi, hcovers⟩ ((hstart.after _ hmem).trans hcovers.1.1)
      ⟨_, hmem, hcovers.1.1⟩ hrun

end Sweep

end Aimsgui.Winplace
