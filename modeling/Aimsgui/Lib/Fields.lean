import Mathlib.Data.List.Basic

/-!
# Fields

The fields of a line are what stands between its separators; there are no empty ones, so it
makes no difference how many separators there are in a row, or at the ends. What is appended to
a line belongs to its last field (`fields_append`), unless the line ends with a separator: then
it is a field of its own (`fields_append_sep`).
-/

namespace Fields

variable {α : Type} {e : α} {s t u v : List α} {front : List (List α)}

/-! ## Fields in a row -/

/-- Between fields there are separators. -/
theorem intercalate_append_singleton :
    [e].intercalate (front ++ [v]) = front.flatMap (· ++ [e]) ++ v := by
  induction front with
  | nil => exact List.intercalate_singleton
  | cons w front ih =>
    have hnil : front ++ [v] ≠ [] := List.append_ne_nil_of_right_ne_nil front (List.cons_ne_nil v [])
    rw [List.cons_append, List.intercalate_cons_of_ne_nil hnil, ih, List.flatMap_cons]
    simp

/-- With a separator after each field, there is one more at the end. -/
theorem flatMap_append_singleton :
    (front ++ [v]).flatMap (· ++ [e]) = [e].intercalate (front ++ [v]) ++ [e] := by
  rw [intercalate_append_singleton, List.flatMap_append]
  simp

/-! ## Taking a line apart -/

theorem exists_last_sep (h : e ∈ s) : ∃ u v, s = u ++ e :: v ∧ e ∉ v := by
  obtain ⟨v, u, hrev, hv⟩ := List.eq_append_cons_of_mem (List.mem_reverse.mpr h)
  refine ⟨u.reverse, v.reverse, ?_, mt List.mem_reverse.mp hv⟩
  rw [← List.reverse_reverse s, hrev]
  simp

variable [DecidableEq α]

variable (e) in
/-- The fields of a line with the separator `e`. -/
def fields (s : List α) : List (List α) := (s.splitOnP (· = e)).filter (· ≠ [])

theorem fields_append_cons : fields e (s ++ e :: t) = fields e s ++ fields e t := by
  rw [fields, List.splitOnP_append_cons s t (decide_eq_true rfl), List.filter_append]
  rfl

theorem fields_eq_singleton (h : e ∉ s) (hs : s ≠ []) : fields e s = [s] := by
  have hsplit : s.splitOnP (· = e) = [s] :=
    List.splitOnP_eq_singleton fun a ha => decide_eq_false (ne_of_mem_of_not_mem ha h)
  rw [fields, hsplit]
  exact List.filter_cons_of_pos (decide_eq_true hs)

theorem ne_nil_of_mem_fields (h : v ∈ fields e s) : v ≠ [] :=
  of_decide_eq_true (List.mem_filter.mp h).2

/-- A separator at the end changes nothing. -/
theorem fields_sep : fields e (s ++ [e]) = fields e s := by
  rw [fields_append_cons]
  exact List.append_nil _

/-- After a separator begins a new field. -/
theorem fields_append_sep (h : e ∉ t) (ht : t ≠ []) :
    fields e (s ++ [e] ++ t) = fields e s ++ [t] := by
  rw [List.append_assoc, List.singleton_append, fields_append_cons, fields_eq_singleton h ht]

/-- What follows another element belongs to the last field. -/
theorem fields_append (hs : s ≠ []) (hsep : ¬ [e] <:+ s) :
    ∃ front v, fields e s = front ++ [v] ∧ ∀ t, e ∉ t → fields e (s ++ t) = front ++ [v ++ t] := by
  by_cases he : e ∈ s
  · obtain ⟨u, v, rfl, hv⟩ := exists_last_sep he
    have hnil : v ≠ [] := by
      rintro rfl
      exact hsep (List.suffix_append u [e])
    have hfields (t : List α) (ht : e ∉ t) :
        fields e (u ++ e :: v ++ t) = fields e u ++ [v ++ t] := by
      rw [List.append_assoc, List.cons_append, fields_append_cons,
        fields_eq_singleton (List.not_mem_append hv ht) (List.append_ne_nil_of_left_ne_nil hnil t)]
    refine ⟨fields e u, v, ?_, hfields⟩
    have hend := hfields [] List.not_mem_nil
    rwa [List.append_nil, List.append_nil] at hend
  · refine ⟨[], s, fields_eq_singleton he hs, fun t ht => ?_⟩
    exact fields_eq_singleton (List.not_mem_append he ht) (List.append_ne_nil_of_left_ne_nil hs t)

end Fields
