import Mathlib.Data.List.Basic
import Mathlib.Data.List.Nodup
import Mathlib.Data.List.Induction
import Mathlib.Logic.Function.Basic

/-!
# Singly linked lists

Records that carry a `next` field, as a function `next : α → Option α`. `Chain next s l`
says that following `next` from `s` visits the records of `l` and stops. The writes of
programs that work on such lists are `Function.update`s of `next`; the rules say what
each write does to the chain.

* `Chain.follow_eq` — following the links with enough fuel lists the chain.
* `Chain.locate_of_mem`, `Chain.locate_of_notMem` — the search for a record, which
  trails a pointer to the record before it.
* `Chain.push`, `Chain.skip`, `Chain.attach` — put a record in front, unlink one, and
  put one at the end.
-/

namespace Links

universe u

variable {α : Type u}

/-- The records reached from `s` by following `next`, as a chain that ends. -/
inductive Chain (next : α → Option α) : Option α → List α → Prop where
  | nil : Chain next none []
  | cons {a : α} {l : List α} : Chain next (next a) l → Chain next (some a) (a :: l)

/-- Follow the links, at most `n` of them. -/
def follow (next : α → Option α) : Nat → Option α → List α
  | 0, _ => []
  | _ + 1, none => []
  | n + 1, some a => a :: follow next n (next a)

/-- Follow the links up to the record `c`: the record before the one where the search
stops, and the one where it stops. -/
def locate [DecidableEq α] (next : α → Option α) (c : α) :
    Nat → Option α → Option α → Option α × Option α
  | 0, prev, z => (prev, z)
  | _ + 1, prev, none => (prev, none)
  | n + 1, prev, some z => if z = c then (prev, some z) else locate next c n (some z) (next z)

/-- Follow the links to the end: the last record, or `prev` if there is none. -/
def lastFrom (next : α → Option α) : Nat → Option α → Option α → Option α
  | 0, prev, _ => prev
  | _ + 1, prev, none => prev
  | n + 1, _, some z => lastFrom next n (some z) (next z)

/-- The last of a list, or what came before it. -/
theorem getLast?_cons_or (a : α) (l : List α) (prev : Option α) :
    (a :: l).getLast?.or prev = l.getLast?.or (some a) := by
  cases l with
  | nil => rfl
  | cons b l =>
    rw [List.getLast?_cons_cons, List.getLast?_eq_some_getLast (List.cons_ne_nil b l)]
    rfl

namespace Chain

variable {next next' : α → Option α} {s : Option α} {l l₁ l₂ : List α} {a b c p : α} {n : Nat}

/-- A chain only depends on the links of its records. -/
theorem congr (h : Chain next s l) (heq : ∀ a ∈ l, next' a = next a) : Chain next' s l := by
  induction h with
  | nil => exact nil
  | @cons a l _ ih =>
    refine cons ?_
    rw [heq a List.mem_cons_self]
    exact ih fun b hb => heq b (List.mem_cons_of_mem _ hb)

/-- The first record of a chain. -/
theorem head_eq (h : Chain next s l) : s = l.head? := by
  cases h with
  | nil => rfl
  | cons _ => rfl

/-- A chain ends where the links end. -/
theorem eq_nil (h : Chain next none l) : l = [] := by
  cases h
  rfl

/-- A chain goes on with the link of its first record. -/
theorem tail (h : Chain next s (a :: l)) : Chain next (next a) l := by
  cases h with
  | cons h => exact h

/-- The rest of a chain is a chain. -/
theorem suffix (h : Chain next s (l₁ ++ a :: l₂)) : Chain next (some a) (a :: l₂) := by
  induction l₁ generalizing s with
  | nil =>
    obtain rfl : s = some a := h.head_eq
    exact h
  | cons b l₁ ih =>
    cases h with
    | cons h => exact ih h

/-- The link of a record in a chain. -/
theorem next_eq (h : Chain next s (l₁ ++ a :: l₂)) : next a = l₂.head? := by
  cases h.suffix with
  | cons h => exact h.head_eq

/-- The links determine the chain. -/
theorem unique (h : Chain next s l₁) (h' : Chain next s l₂) : l₁ = l₂ := by
  induction h generalizing l₂ with
  | nil => exact h'.eq_nil.symm
  | cons _ ih =>
    cases h' with
    | cons h' => rw [ih h']

/-- Following the links with enough fuel lists the chain. -/
theorem follow_eq (h : Chain next s l) (hn : l.length ≤ n) : follow next n s = l := by
  induction h generalizing n with
  | nil => cases n <;> rfl
  | cons _ ih =>
    cases n with
    | zero => exact absurd hn (Nat.not_succ_le_zero _)
    | succ n => rw [follow, ih (Nat.le_of_succ_le_succ hn)]

theorem lastFrom_eq (h : Chain next s l) (prev : Option α) (hn : l.length ≤ n) :
    lastFrom next n prev s = (l.getLast?.or prev) := by
  induction h generalizing n prev with
  | nil => cases n <;> rfl
  | @cons a l _ ih =>
    cases n with
    | zero => exact absurd hn (Nat.not_succ_le_zero _)
    | succ n =>
      rw [lastFrom, ih _ (Nat.le_of_succ_le_succ hn), getLast?_cons_or]

section Locate

variable [DecidableEq α]

/-- The search for a record that is not in the chain stops at its end. -/
theorem locate_of_notMem (h : Chain next s l) (hc : c ∉ l) (prev : Option α)
    (hn : l.length ≤ n) : locate next c n prev s = (l.getLast?.or prev, none) := by
  induction h generalizing n prev with
  | nil => cases n <;> rfl
  | @cons a l _ ih =>
    obtain ⟨hne, hc⟩ := not_or.mp (fun hm => hc (List.mem_cons.mpr hm))
    cases n with
    | zero => exact absurd hn (Nat.not_succ_le_zero _)
    | succ n =>
      rw [locate, if_neg (Ne.symm hne), ih hc _ (Nat.le_of_succ_le_succ hn), getLast?_cons_or]

/-- The search for a record in the chain stops there, with the record before it. -/
theorem locate_of_mem (h : Chain next s (l₁ ++ c :: l₂)) (hc : c ∉ l₁) (prev : Option α)
    (hn : l₁.length < n) : locate next c n prev s = (l₁.getLast?.or prev, some c) := by
  induction l₁ generalizing n prev s with
  | nil =>
    obtain rfl : s = some c := h.head_eq
    cases n with
    | zero => exact absurd hn (Nat.not_lt_zero _)
    | succ n =>
      rw [locate, if_pos rfl]
      rfl
  | cons a l₁ ih =>
    obtain ⟨hne, hc⟩ := not_or.mp (fun hm => hc (List.mem_cons.mpr hm))
    cases h with
    | cons h =>
      cases n with
      | zero => exact absurd hn (Nat.not_lt_zero _)
      | succ n =>
        rw [locate, if_neg (Ne.symm hne), ih h hc _ (Nat.lt_of_succ_lt_succ hn),
          getLast?_cons_or]

/-! ## Writes -/

/-- A record outside the chain may be written. -/
theorem update_of_notMem (h : Chain next s l) (hc : c ∉ l) (v : Option α) :
    Chain (Function.update next c v) s l := by
  refine h.congr ?_
  intro a ha
  exact Function.update_of_ne (by rintro rfl; exact hc ha) _ _

/-- Put a record in front. -/
theorem push (h : Chain next s l) (hc : c ∉ l) :
    Chain (Function.update next c s) (some c) (c :: l) := by
  refine cons ?_
  rw [Function.update_self]
  exact h.update_of_notMem hc s

/-- Unlink the record after `p`. -/
theorem skip (h : Chain next s (l₁ ++ p :: c :: l₂)) (hnd : (l₁ ++ p :: c :: l₂).Nodup) :
    Chain (Function.update next p (next c)) s (l₁ ++ p :: l₂) := by
  induction l₁ generalizing s with
  | nil =>
    obtain ⟨hp, hnd⟩ := List.nodup_cons.mp hnd
    cases h with
    | cons h =>
      refine cons ?_
      rw [Function.update_self]
      exact h.tail.update_of_notMem (fun hm => hp (List.mem_cons_of_mem _ hm)) _
  | cons a l₁ ih =>
    obtain ⟨ha, hnd⟩ := List.nodup_cons.mp hnd
    cases h with
    | cons h =>
      refine cons ?_
      have hap : a ≠ p := by
        rintro rfl
        exact ha (by simp)
      rw [Function.update_of_ne hap]
      exact ih h hnd

/-- Put a record that ends the links at the end of a chain. -/
theorem attach (h : Chain next s (l ++ [p])) (hnd : (l ++ [p]).Nodup) (hc : c ∉ l ++ [p])
    (hnext : next c = none) :
    Chain (Function.update next p (some c)) s (l ++ [p, c]) := by
  induction l generalizing s with
  | nil =>
    cases h with
    | cons h =>
      refine cons ?_
      rw [Function.update_self]
      have hcp : c ≠ p := fun heq => hc (List.mem_singleton.mpr heq)
      refine cons ?_
      rw [Function.update_of_ne hcp, hnext]
      exact nil
  | cons a l ih =>
    obtain ⟨ha, hnd⟩ := List.nodup_cons.mp hnd
    cases h with
    | cons h =>
      refine cons ?_
      have hap : a ≠ p := by
        rintro rfl
        exact ha (by simp)
      rw [Function.update_of_ne hap]
      exact ih h hnd fun hm => hc (List.mem_cons_of_mem _ hm)

/-- Writing the end of the links where they end already. -/
theorem update_last (h : Chain next s (l ++ [p])) :
    Chain (Function.update next p none) s (l ++ [p]) := by
  have hp : next p = none := h.next_eq
  rw [← hp, Function.update_eq_self]
  exact h

end Locate

end Chain

end Links
