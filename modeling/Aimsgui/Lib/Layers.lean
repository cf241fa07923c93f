import Mathlib.Data.List.Pairwise
import Mathlib.Data.List.Nodup

/-!
# Two orders that agree where things overlap

Owners stand in an order, and each of them has things that lie on a stack; a thing covers
some points. Who is asked "what is at the point `p`?" can go through the owners in their
order, or through the stack from its top. `Layered` says that the two orders agree wherever
things of different owners cover a common point, and `find?_eq_of_layered` that the two
searches then give the same owner.

* `Layered.cons` — a thing is put on the top of the stack.
* `Layered.concat` — a thing of a new, last owner is put under the stack.
* `Layered.mono` — things cover less than before.
-/

namespace Layers

universe u v w

variable {α : Type u} {β : Type v} {P : Type w} [DecidableEq α] {order : List α} {owner : β → α}
  {covers covers' : β → P → Prop} {stack : List β} {a b c : α}

/-- `a` stands before `b`. -/
def Before (order : List α) (a b : α) : Prop := order.idxOf a < order.idxOf b

instance (order : List α) (a b : α) : Decidable (Before order a b) :=
  inferInstanceAs (Decidable (_ < _))

namespace Before

/-- A new owner stands last. -/
theorem concat (ha : a ∈ order) (hc : c ∉ order) : Before (order ++ [c]) a c := by
  rw [Before, List.idxOf_append, List.idxOf_append, if_pos ha, if_neg hc]
  exact Nat.lt_of_lt_of_le (List.idxOf_lt_length_of_mem ha) (Nat.le_add_left _ _)

theorem concat_iff (ha : a ∈ order) (hb : b ∈ order) :
    Before (order ++ [c]) a b ↔ Before order a b := by
  rw [Before, List.idxOf_append, List.idxOf_append, if_pos ha, if_pos hb, Before]

end Before

/-- Wherever a thing on the stack and one under it cover a point, they belong to the same
owner, or the owner of the upper one stands before that of the lower one. -/
def Agree (order : List α) (owner : β → α) (covers : β → P → Prop) (e f : β) : Prop :=
  ∀ p, covers e p → covers f p → owner e = owner f ∨ Before order (owner e) (owner f)

/-- The order of the owners and the stack agree. -/
def Layered (order : List α) (owner : β → α) (covers : β → P → Prop) (stack : List β) : Prop :=
  stack.Pairwise (Agree order owner covers)

namespace Layered

theorem mono (h : Layered order owner covers stack)
    (hle : ∀ e ∈ stack, ∀ p, covers' e p → covers e p) : Layered order owner covers' stack := by
  refine List.Pairwise.imp_of_mem ?_ h
  intro e f he hf hagree p hep hfp
  exact hagree p (hle e he p hep) (hle f hf p hfp)

theorem cons {e : β} (h : Layered order owner covers stack)
    (he : ∀ f ∈ stack, Agree order owner covers e f) : Layered order owner covers (e :: stack) :=
  List.pairwise_cons.mpr ⟨he, h⟩

/-- Things of a new owner go under the stack. -/
theorem concat {e : β} (h : Layered order owner covers stack) (he : owner e ∉ order)
    (hmem : ∀ f ∈ stack, ∀ p, covers f p → owner f ∈ order) :
    Layered (order ++ [owner e]) owner covers (stack ++ [e]) := by
  refine List.pairwise_append.mpr ⟨?_, List.pairwise_singleton _ _, ?_⟩
  · refine List.Pairwise.imp_of_mem ?_ h
    intro f g hf hg hagree p hfp hgp
    refine (hagree p hfp hgp).imp_right fun hbefore => ?_
    exact (Before.concat_iff (hmem f hf p hfp) (hmem g hg p hgp)).mpr hbefore
  · intro f hf g hg p hfp _
    rw [List.mem_singleton.mp hg]
    exact Or.inr (Before.concat (hmem f hf p hfp) he)

/-- Things of different owners that do not overlap may lie in any order. -/
theorem of_disjoint
    (h : ∀ e ∈ stack, ∀ f ∈ stack, ∀ p, covers e p → covers f p → owner e = owner f) :
    Layered order owner covers stack :=
  List.pairwise_of_forall_mem_list fun e he f hf p hep hfp => Or.inl (h e he f hf p hep hfp)

end Layered

/-- If the orders agree, the first owner with a thing that covers the point is the owner of the
first thing on the stack that does. -/
theorem find?_eq_of_layered {p : P} [∀ e, Decidable (covers e p)] {here : α → Bool}
    (h : Layered order owner covers stack) (hnd : order.Nodup)
    (hthing : ∀ a ∈ order, here a = true → ∃ e ∈ stack, owner e = a ∧ covers e p)
    (howner : ∀ e ∈ stack, covers e p → owner e ∈ order ∧ here (owner e) = true) :
    order.find? here = (stack.find? fun e => covers e p).map owner := by
  cases hfind : stack.find? fun e => covers e p with
  | none =>
    rw [Option.map_none, List.find?_eq_none]
    intro a ha hhere
    obtain ⟨e, he, -, hcovers⟩ := hthing a ha hhere
    exact List.find?_eq_none.mp hfind e he (by simpa using hcovers)
  | some e =>
    rw [Option.map_some]
    obtain ⟨hcovers, l₁, l₂, rfl, hbefore⟩ := List.find?_eq_some_iff_append.mp hfind
    have hcovers : covers e p := by simpa using hcovers
    obtain ⟨hmem, hhere⟩ := howner e (List.mem_append_right _ List.mem_cons_self) hcovers
    obtain ⟨as, bs, rfl⟩ := List.append_of_mem hmem
    refine List.find?_eq_some_iff_append.mpr ⟨hhere, as, bs, rfl, ?_⟩
    intro a ha
    rw [Bool.not_eq_true', Bool.eq_false_iff]
    intro hhere
    have hnotas : owner e ∉ as := fun hm =>
      (List.nodup_append.mp hnd).2.2 _ hm _ List.mem_cons_self rfl
    -- an owner before this one has something on the stack too, and further down
    obtain ⟨f, hf, rfl, hfp⟩ := hthing a (List.mem_append_left _ ha) hhere
    rcases List.mem_append.mp hf with hf | hf
    · have hnot := hbefore f hf
      simp [hfp] at hnot
    rcases List.mem_cons.mp hf with rfl | hf
    · exact hnotas ha
    have hpair := (List.pairwise_append.mp h).2.1
    have hagree := (List.pairwise_cons.mp hpair).1 f hf p hcovers hfp
    rcases hagree with heq | hlt
    · exact hnotas (heq ▸ ha)
    · rw [Before, List.idxOf_append, List.idxOf_append, if_neg hnotas, if_pos ha] at hlt
      have hidx := List.idxOf_lt_length_of_mem ha
      omega

end Layers
