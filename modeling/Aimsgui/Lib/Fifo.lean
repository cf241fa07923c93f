import Mathlib.Data.List.Basic

/-!
# A FIFO queue as a pair of lists

The front `h` is read from its head, the back `t` is consed onto; when the front
runs empty the back is turned over onto it. `contents` is the abstract queue, and
each operation is described once by what it does to `contents`:

* `contents_put` — `put` appends;
* `contents_get`, `get_value` — `get` removes and returns the head;
* `contents_peek`, `peek_value` — `peek` returns the head and changes nothing.

`Moves q ins outs q'` says that a process took the queue from `q` to `q'` while
`ins` went in and `outs` came out. Moves compose (`Moves.trans`), so what is shown
of one step holds of a whole run.

`get` and `peek` answer a caller-supplied value `dflt` on the empty queue.
-/

universe u

/-- A queue as a front list and a reversed back list. -/
structure Fifo (α : Type u) where
  /-- the front, first element first -/
  h : List α := []
  /-- the back, last element first -/
  t : List α := []
  deriving Repr, DecidableEq

namespace Fifo

variable {α : Type u} (q : Fifo α) (x dflt : α)

/-- The elements in order. -/
def contents : List α := q.h ++ q.t.reverse

/-- Cons onto the back. -/
def put : Fifo α := { q with t := x :: q.t }

/-- Turn the back over onto the front, element by element, when the front is empty. -/
def refill : Fifo α :=
  match q.h with
  | [] => { h := q.t.reverseAux [], t := [] }
  | _ :: _ => q

/-- Remove the head. -/
def get : α × Fifo α :=
  match q.refill.h with
  | [] => (dflt, q.refill)
  | a :: rest => (a, { q.refill with h := rest })

/-- Whether there is an element. -/
def nonempty : Bool := !(q.h.isEmpty && q.t.isEmpty)

/-- Look at the head: take it out and cons it back onto the front. -/
def peek : α × Fifo α :=
  if q.h.isEmpty && q.t.isEmpty then (dflt, q)
  else ((q.get dflt).1, { (q.get dflt).2 with h := (q.get dflt).1 :: (q.get dflt).2.h })

@[simp] theorem contents_empty : ({} : Fifo α).contents = [] := rfl

@[simp] theorem contents_put : (q.put x).contents = q.contents ++ [x] := by
  simp [contents, put]

@[simp] theorem contents_refill : q.refill.contents = q.contents := by
  obtain ⟨h, t⟩ := q
  cases h <;> simp [refill, contents, List.reverseAux_eq]

theorem nonempty_iff : q.nonempty = true ↔ q.contents ≠ [] := by
  obtain ⟨h, t⟩ := q
  cases h <;> cases t <;> simp [nonempty, contents]

theorem nonempty_eq_false : q.nonempty = false ↔ q.contents = [] := by
  rw [← Bool.not_eq_true, nonempty_iff, not_not]

/-- After `refill` the front is empty only if the queue is. -/
theorem refill_h_eq_nil (h : q.refill.h = []) : q.contents = [] ∧ q.refill.t = [] := by
  obtain ⟨front, back⟩ := q
  cases front with
  | nil =>
    have hb : back = [] := by simpa [refill, List.reverseAux_eq] using h
    subst hb
    exact ⟨rfl, rfl⟩
  | cons a rest => cases h

/-- `get` returns the head and leaves the rest. -/
theorem get_of_contents {a : α} {rest : List α} (h : q.contents = a :: rest) :
    (q.get dflt).1 = a ∧ (q.get dflt).2.contents = rest := by
  rw [← contents_refill] at h
  rcases hh : q.refill.h with _ | ⟨b, front⟩
  · have hnil := (q.refill_h_eq_nil hh).1
    rw [contents_refill, hnil] at h
    cases h
  · simp only [contents, hh, List.cons_append, List.cons.injEq] at h
    simp only [get, hh, contents]
    exact h

@[simp] theorem contents_get : (q.get dflt).2.contents = q.contents.tail := by
  rcases hc : q.contents with _ | ⟨a, rest⟩
  · rw [← contents_refill] at hc
    have hh : q.refill.h = [] := (List.append_eq_nil_iff.mp hc).1
    simp only [get, hh, List.tail_nil]
    exact hc
  · exact (q.get_of_contents dflt hc).2

theorem get_value {a : α} {rest : List α} (h : q.contents = a :: rest) : (q.get dflt).1 = a :=
  (q.get_of_contents dflt h).1

theorem peek_eq_of_nonempty (h : q.nonempty = true) :
    q.peek dflt = ((q.get dflt).1,
      { (q.get dflt).2 with h := (q.get dflt).1 :: (q.get dflt).2.h }) := by
  have hne : (q.h.isEmpty && q.t.isEmpty) = false := by
    rwa [nonempty, Bool.not_eq_true'] at h
  rw [peek, if_neg (by rw [hne]; exact Bool.false_ne_true)]

/-- `peek` leaves the contents as they are. -/
@[simp] theorem contents_peek : (q.peek dflt).2.contents = q.contents := by
  cases hne : q.nonempty with
  | false =>
    have he : (q.h.isEmpty && q.t.isEmpty) = true := by simpa [nonempty] using hne
    rw [peek, if_pos he]
  | true =>
    rw [peek_eq_of_nonempty q dflt hne]
    rcases hc : q.contents with _ | ⟨a, rest⟩
    · exact absurd hc ((q.nonempty_iff).mp hne)
    · obtain ⟨hv, hr⟩ := q.get_of_contents dflt hc
      rw [← hr, ← hv]
      rfl

/-- `peek` answers the head. -/
theorem peek_value {a : α} {rest : List α} (h : q.contents = a :: rest) :
    (q.peek dflt).1 = a := by
  have hne : q.nonempty = true := by rw [nonempty_iff, h]; exact List.cons_ne_nil _ _
  rw [peek_eq_of_nonempty q dflt hne]
  exact q.get_value dflt h

/-- Offering the peeked element of a nonempty queue is offering the head. -/
theorem offered_eq_head? :
    (if q.nonempty then some (q.peek dflt).1 else none) = q.contents.head? := by
  rcases hc : q.contents with _ | ⟨a, rest⟩
  · rw [if_neg (by rw [q.nonempty_eq_false.mpr hc]; exact Bool.false_ne_true), List.head?_nil]
  · have hne : q.nonempty = true := by rw [nonempty_iff, hc]; exact List.cons_ne_nil _ _
    rw [if_pos hne, q.peek_value dflt hc, List.head?_cons]

/-! ## What goes in and what comes out -/

/-- `ins` went in and `outs` came out, in this order, between `q` and `q'`. -/
def Moves {α : Type u} (q : Fifo α) (ins outs : List α) (q' : Fifo α) : Prop :=
  q.contents ++ ins = outs ++ q'.contents

namespace Moves

variable {q q' q'' : Fifo α} {ins outs ins' outs' : List α}

/-- Nothing moves where the contents stay. -/
theorem of_contents_eq (h : q'.contents = q.contents) : Moves q [] [] q' := by
  rw [Moves, List.append_nil, List.nil_append, h]

/-- `put` lets one element in. -/
theorem put (q : Fifo α) (x : α) : Moves q [x] [] (q.put x) := by
  rw [Moves, contents_put, List.nil_append]

/-- `get` lets the head out. -/
theorem get {a dflt : α} (h : q.contents.head? = some a) : Moves q [] [a] (q.get dflt).2 := by
  rw [Moves, contents_get, List.append_nil, List.cons_append, List.nil_append]
  exact (List.cons_head?_tail h).symm

theorem trans (h : Moves q ins outs q') (h' : Moves q' ins' outs' q'') :
    Moves q (ins ++ ins') (outs ++ outs') q'' := by
  unfold Moves at *
  rw [← List.append_assoc, h, List.append_assoc, h', List.append_assoc]

/-- From the empty queue on: what went in is what came out followed by what is queued. -/
theorem ins_eq (h : Moves {} ins outs q) : ins = outs ++ q.contents := h

end Moves

end Fifo
