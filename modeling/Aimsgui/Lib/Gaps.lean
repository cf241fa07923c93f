import Mathlib.Algebra.BigOperators.Group.List.Basic
import Mathlib.Data.List.Sort
import Mathlib.Tactic.Linarith

/-!
# Gaps between intervals

Some intervals on a line are known by their ends, in order: `1` where one starts and `-1` where it
ends. Summing up the signs tells where no interval is. The stretches that are found that way
(`gaps`) are free (`free_of_mem`), as long as they can be (`bounded`), and all that there
are between the first end and the last one (`exists_gap`).
-/

universe u v

namespace Gaps

variable {α : Type u} (sign coord : α → ℤ)

/-- The stretches between neighbours in `l` where `count` and the signs so far add up to zero. -/
def gaps : ℤ → List α → List (ℤ × ℤ)
  | count, e :: e' :: l =>
    if count + sign e = 0 ∧ coord e < coord e' then
      (coord e, coord e') :: gaps (count + sign e) (e' :: l)
    else gaps (count + sign e) (e' :: l)
  | _, _ => []

/-- The sum of the signs up to `y`. -/
def depth (l : List α) (y : ℤ) : ℤ := ((l.filter fun e => coord e ≤ y).map sign).sum

variable {sign coord} {l l' : List α} {e e' : α} {count y : ℤ} {g : ℤ × ℤ}

theorem depth_cons : depth sign coord (e :: l) y =
    (if coord e ≤ y then sign e else 0) + depth sign coord l y := by
  rw [depth, List.filter_cons, depth]
  by_cases h : coord e ≤ y <;> simp [h]

theorem depth_append : depth sign coord (l ++ l') y =
    depth sign coord l y + depth sign coord l' y := by
  rw [depth, List.filter_append, List.map_append, List.sum_append, depth, depth]

theorem depth_perm (h : l.Perm l') : depth sign coord l y = depth sign coord l' y :=
  ((h.filter _).map _).sum_eq

/-- Before the first end the sum is empty. -/
theorem depth_eq_zero (h : ∀ e ∈ l, y < coord e) : depth sign coord l y = 0 := by
  rw [depth, List.filter_eq_nil_iff.mpr]
  · rfl
  · intro e he
    rw [decide_eq_true_eq, not_le]
    exact h e he

/-- Between the first two ends. -/
theorem depth_of_lt (hsorted : (e :: e' :: l).Pairwise (coord · ≤ coord ·)) (he : coord e ≤ y)
    (he' : y < coord e') : depth sign coord (e :: e' :: l) y = sign e := by
  obtain ⟨-, htail⟩ := List.pairwise_cons.mp hsorted
  have hlater : depth sign coord (e' :: l) y = 0 := by
    refine depth_eq_zero fun x hx => he'.trans_le ?_
    rcases List.mem_cons.mp hx with rfl | hx
    · exact le_rfl
    · exact (List.pairwise_cons.mp htail).1 x hx
  rw [depth_cons, if_pos he, hlater, add_zero]

/-- A gap lies between two ends. -/
theorem ends_of_mem (h : g ∈ gaps sign coord count l) :
    g.1 < g.2 ∧ (∃ e ∈ l, coord e = g.1) ∧ ∃ e ∈ l, coord e = g.2 := by
  fun_induction gaps sign coord count l with
  | case1 count e e' l hgap ih =>
    rcases List.mem_cons.mp h with rfl | h
    · exact ⟨hgap.2, ⟨e, List.mem_cons_self, rfl⟩,
        ⟨e', List.mem_cons_of_mem _ List.mem_cons_self, rfl⟩⟩
    · obtain ⟨hlt, ⟨a, ha, hstart⟩, ⟨b, hb, hstop⟩⟩ := ih h
      exact ⟨hlt, ⟨a, List.mem_cons_of_mem _ ha, hstart⟩, ⟨b, List.mem_cons_of_mem _ hb, hstop⟩⟩
  | case2 count e e' l _ ih =>
    obtain ⟨hlt, ⟨a, ha, hstart⟩, ⟨b, hb, hstop⟩⟩ := ih h
    exact ⟨hlt, ⟨a, List.mem_cons_of_mem _ ha, hstart⟩, ⟨b, List.mem_cons_of_mem _ hb, hstop⟩⟩
  | case3 => cases h

/-- In a gap the sum is zero. -/
theorem depth_of_mem (hsorted : l.Pairwise (coord · ≤ coord ·)) (h : g ∈ gaps sign coord count l)
    (hy : g.1 ≤ y ∧ y < g.2) : count + depth sign coord l y = 0 := by
  fun_induction gaps sign coord count l with
  | case1 count e e' l hgap ih =>
    obtain ⟨hhead, htail⟩ := List.pairwise_cons.mp hsorted
    rcases List.mem_cons.mp h with rfl | h
    · rw [depth_of_lt hsorted hy.1 hy.2]
      exact hgap.1
    · obtain ⟨-, ⟨x, hx, hstart⟩, -⟩ := ends_of_mem h
      rw [depth_cons, if_pos ((hhead x hx).trans (hstart ▸ hy.1)), ← add_assoc]
      exact ih htail h
  | case2 count e e' l _ ih =>
    obtain ⟨hhead, htail⟩ := List.pairwise_cons.mp hsorted
    obtain ⟨-, ⟨x, hx, hstart⟩, -⟩ := ends_of_mem h
    rw [depth_cons, if_pos ((hhead x hx).trans (hstart ▸ hy.1)), ← add_assoc]
    exact ih htail h
  | case3 => cases h

/-- Where the sum is zero between two ends, there is a gap. -/
theorem exists_mem (hsorted : l.Pairwise (coord · ≤ coord ·)) (hfirst : ∃ e ∈ l, coord e ≤ y)
    (hlast : ∃ e ∈ l, y < coord e) (hzero : count + depth sign coord l y = 0) :
    ∃ g ∈ gaps sign coord count l, g.1 ≤ y ∧ y < g.2 := by
  induction l generalizing count with
  | nil =>
    obtain ⟨e, he, -⟩ := hfirst
    exact absurd he List.not_mem_nil
  | cons e l ih =>
    obtain ⟨hhead, htail⟩ := List.pairwise_cons.mp hsorted
    have he : coord e ≤ y := by
      obtain ⟨a, ha, hle⟩ := hfirst
      rcases List.mem_cons.mp ha with rfl | ha
      · exact hle
      · exact (hhead a ha).trans hle
    obtain ⟨b, hb, hlt⟩ := hlast
    rcases List.mem_cons.mp hb with rfl | hb
    · exact absurd hlt (not_lt.mpr he)
    · cases l with
      | nil => exact absurd hb List.not_mem_nil
      | cons e' l =>
        rcases le_or_gt (coord e') y with hle | hlt'
        · rw [depth_cons, if_pos he, ← add_assoc] at hzero
          obtain ⟨g, hg, hy⟩ := ih htail ⟨e', List.mem_cons_self, hle⟩ ⟨b, hb, hlt⟩ hzero
          refine ⟨g, ?_, hy⟩
          rw [gaps]
          split_ifs
          · exact List.mem_cons_of_mem _ hg
          · exact hg
        · rw [depth_of_lt hsorted he hlt'] at hzero
          refine ⟨(coord e, coord e'), ?_, he, hlt'⟩
          rw [gaps, if_pos ⟨hzero, he.trans_lt hlt'⟩]
          exact List.mem_cons_self

/-- The gaps come in order. -/
theorem gaps_sorted (hsorted : l.Pairwise (coord · ≤ coord ·)) :
    (gaps sign coord count l).Pairwise fun g g' => g.2 ≤ g'.1 := by
  fun_induction gaps sign coord count l with
  | case1 count e e' l _ ih =>
    obtain ⟨-, htail⟩ := List.pairwise_cons.mp hsorted
    refine List.pairwise_cons.mpr ⟨fun g hg => ?_, ih htail⟩
    obtain ⟨-, ⟨x, hx, hstart⟩, -⟩ := ends_of_mem hg
    rw [← hstart]
    rcases List.mem_cons.mp hx with rfl | hx
    · exact le_rfl
    · exact (List.pairwise_cons.mp htail).1 x hx
  | case2 count e e' l _ ih => exact ih (List.pairwise_cons.mp hsorted).2
  | case3 => exact List.Pairwise.nil

/-! ## The ends of intervals -/

section Intervals

variable {ι : Type v} (start stop : ι → α)

/-- The ends of some intervals. -/
def ends (is : List ι) : List α := is.flatMap fun i => [start i, stop i]

/-- Where none of the intervals is. -/
def Free (coord : α → ℤ) (is : List ι) (y : ℤ) : Prop :=
  ∀ i ∈ is, ¬ (coord (start i) ≤ y ∧ y < coord (stop i))

variable {start stop} {is : List ι}

theorem length_ends : (ends start stop is).length = 2 * is.length := by
  rw [ends, List.length_flatMap]
  simp
  omega

theorem depth_ends (hstart : ∀ i ∈ is, sign (start i) = 1) (hstop : ∀ i ∈ is, sign (stop i) = -1)
    (hlt : ∀ i ∈ is, coord (start i) < coord (stop i)) :
    0 ≤ depth sign coord (ends start stop is) y ∧
      (depth sign coord (ends start stop is) y = 0 ↔ Free start stop coord is y) := by
  induction is with
  | nil => exact ⟨le_rfl, fun _ i hi => absurd hi List.not_mem_nil, fun _ => rfl⟩
  | cons i is ih =>
    obtain ⟨hnonneg, hiff⟩ := ih (fun j hj => hstart j (List.mem_cons_of_mem _ hj))
      (fun j hj => hstop j (List.mem_cons_of_mem _ hj)) fun j hj => hlt j (List.mem_cons_of_mem _ hj)
    have hi := hlt i List.mem_cons_self
    have hdepth : depth sign coord (ends start stop (i :: is)) y =
        (if coord (start i) ≤ y ∧ y < coord (stop i) then 1 else 0) +
          depth sign coord (ends start stop is) y := by
      rw [ends, List.flatMap_cons, depth_append, depth_cons, depth_cons,
        hstart i List.mem_cons_self, hstop i List.mem_cons_self]
      have hnil : depth sign coord ([] : List α) y = 0 := rfl
      rw [hnil, ← ends]
      split_ifs <;> omega
    rw [hdepth]
    refine ⟨by split_ifs <;> omega, ?_⟩
    rw [Free, List.forall_mem_cons, ← Free, ← hiff]
    split_ifs with hin
    · exact iff_of_false (by omega) fun h => h.1 hin
    · rw [zero_add]
      exact ⟨fun h => ⟨hin, h⟩, fun h => h.2⟩

/-- A gap lies between the intervals. -/
theorem within (hperm : l.Perm (ends start stop is))
    (hlt : ∀ i ∈ is, coord (start i) < coord (stop i)) (h : g ∈ gaps sign coord 0 l) :
    (∃ i ∈ is, coord (start i) ≤ g.1) ∧ ∃ j ∈ is, g.2 ≤ coord (stop j) := by
  obtain ⟨-, ⟨a, ha, hfirst⟩, ⟨b, hb, hlast⟩⟩ := ends_of_mem h
  obtain ⟨i, hi, ha⟩ := List.mem_flatMap.mp (hperm.mem_iff.mp ha)
  obtain ⟨j, hj, hb⟩ := List.mem_flatMap.mp (hperm.mem_iff.mp hb)
  refine ⟨⟨i, hi, ?_⟩, j, hj, ?_⟩
  · rcases List.mem_pair.mp ha with rfl | rfl
    · exact hfirst.le
    · exact (hlt i hi).le.trans hfirst.le
  · rcases List.mem_pair.mp hb with rfl | rfl
    · exact hlast.ge.trans (hlt j hj).le
    · exact hlast.ge

variable (hsorted : l.Pairwise (coord · ≤ coord ·)) (hperm : l.Perm (ends start stop is))
  (hstart : ∀ i ∈ is, sign (start i) = 1) (hstop : ∀ i ∈ is, sign (stop i) = -1)
  (hlt : ∀ i ∈ is, coord (start i) < coord (stop i))

include hperm hstart hstop hlt

theorem depth_eq_zero_iff : 0 + depth sign coord l y = 0 ↔ Free start stop coord is y := by
  rw [zero_add, depth_perm hperm]
  exact (depth_ends hstart hstop hlt).2

include hsorted

theorem free_of_mem (h : g ∈ gaps sign coord 0 l) (hy : g.1 ≤ y ∧ y < g.2) :
    Free start stop coord is y :=
  (depth_eq_zero_iff hperm hstart hstop hlt).mp (depth_of_mem hsorted h hy)

/-- Wherever it is free between two intervals there is a gap. -/
theorem exists_gap (hy : Free start stop coord is y) (hfirst : ∃ i ∈ is, coord (start i) ≤ y)
    (hlast : ∃ i ∈ is, y < coord (stop i)) :
    ∃ g ∈ gaps sign coord 0 l, g.1 ≤ y ∧ y < g.2 := by
  obtain ⟨i, hi, hle⟩ := hfirst
  obtain ⟨j, hj, hgt⟩ := hlast
  have hmem : ∀ i ∈ is, ∀ e ∈ [start i, stop i], e ∈ l :=
    fun i hi e he => hperm.mem_iff.mpr (List.mem_flatMap.mpr ⟨i, hi, he⟩)
  refine exists_mem hsorted ⟨_, hmem i hi (start i) (by simp), hle⟩
    ⟨_, hmem j hj (stop j) (by simp), hgt⟩ ?_
  exact (depth_eq_zero_iff hperm hstart hstop hlt).mpr hy

/-- A gap goes as far as it can. -/
theorem bounded (h : g ∈ gaps sign coord 0 l) :
    ¬ Free start stop coord is (g.1 - 1) ∧ ¬ Free start stop coord is g.2 := by
  obtain ⟨hgt, ⟨a, ha, hfirst⟩, ⟨b, hb, hlast⟩⟩ := ends_of_mem h
  obtain ⟨i, hi, ha⟩ := List.mem_flatMap.mp (hperm.mem_iff.mp ha)
  obtain ⟨j, hj, hb⟩ := List.mem_flatMap.mp (hperm.mem_iff.mp hb)
  have hfree : ∀ y, g.1 ≤ y ∧ y < g.2 → Free start stop coord is y :=
    fun y hy => free_of_mem hsorted hperm hstart hstop hlt h hy
  have hilt := hlt i hi
  have hjlt := hlt j hj
  constructor
  · intro hbefore
    -- an interval that starts here is in the gap, and one that ends here is before it
    rcases List.mem_pair.mp ha with rfl | rfl
    · exact hfree g.1 ⟨le_rfl, hgt⟩ i hi ⟨hfirst.le, hfirst ▸ hilt⟩
    · exact hbefore i hi ⟨by omega, by omega⟩
  · intro hafter
    rcases List.mem_pair.mp hb with rfl | rfl
    · exact hafter j hj ⟨hlast.le, hlast ▸ hjlt⟩
    · exact hfree (g.2 - 1) ⟨by omega, by omega⟩ j hj ⟨by omega, by omega⟩

end Intervals

end Gaps
