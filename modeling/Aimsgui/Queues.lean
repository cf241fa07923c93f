import Aimsgui.Lib.Fifo
import Aimsgui.Draw

/-!
# The server's event queues

`childminder` buffers what the window manager sends in three queues: keys
(`Iqueue`), control messages (`Squeue`) and pointer events (`Ptrqueue`). The first
two are plain FIFOs that answer `-1` and the nil string when empty.

A `Ptrqueue` holds references to pointer records and merges events that have the
same button state: `last` refers to the record that the next such event
overwrites in place. References are indices into the list `mem` of the records
received so far; a nil reference is `none`.
-/

namespace Aimsgui

/-! ## Keys and control messages -/

/-- The queue of keys. -/
abbrev Iqueue := Fifo Int

/-- `Iqueue.put` -/
def Iqueue.put (q : Iqueue) (s : Int) : Iqueue := Fifo.put q s

/-- `Iqueue.get` -/
def Iqueue.get (q : Iqueue) : Int × Iqueue := Fifo.get q (-1)

/-- `Iqueue.peek` -/
def Iqueue.peek (q : Iqueue) : Int × Iqueue := Fifo.peek q (-1)

/-- The queue of control messages. -/
abbrev Squeue := Fifo String

/-- `Squeue.put` -/
def Squeue.put (q : Squeue) (s : String) : Squeue := Fifo.put q s

/-- `Squeue.get` -/
def Squeue.get (q : Squeue) : String × Squeue := Fifo.get q ""

/-- `Squeue.peek` -/
def Squeue.peek (q : Squeue) : String × Squeue := Fifo.peek q ""

/-! ## Pointer events -/

/-- A reference to a pointer record: its place among the records received. -/
abbrev Ref := Nat

/-- The queue of pointer events. -/
structure Ptrqueue extends Fifo (Option Ref) where
  /-- the record that an event with the same button state overwrites -/
  last : Option Ref := none
  deriving Repr, DecidableEq

/-- The button state of a record. -/
def buttonsAt (mem : List Pointer) (r : Ref) : Int := (mem.getD r default).buttons

theorem buttonsAt_new (mem : List Pointer) (p : Pointer) :
    buttonsAt (mem ++ [p]) mem.length = p.buttons := by
  rw [buttonsAt, List.getD_eq_getElem?_getD, List.getElem?_concat_length, Option.getD_some]

theorem buttonsAt_old (mem : List Pointer) (p : Pointer) {r : Ref} (h : r < mem.length) :
    buttonsAt (mem ++ [p]) r = buttonsAt mem r := by
  rw [buttonsAt, buttonsAt, List.getD_eq_getElem?_getD, List.getD_eq_getElem?_getD,
    List.getElem?_append_left h]

namespace Ptrqueue

/-- Add an event, or merge it into `last`. Comparing the buttons of a nil event
is a nil dereference, answered by `none`. -/
def put (q : Ptrqueue) (mem : List Pointer) (s : Option Ref) : Option (Ptrqueue × List Pointer) :=
  match q.last, s with
  | none, s => some ({ toFifo := q.toFifo.put s, last := s }, mem)
  | some _, none => none
  | some last, some s =>
    if buttonsAt mem s = buttonsAt mem last then
      some (q, mem.set last (mem.getD s default))
    else some ({ toFifo := q.toFifo.put (some s), last := some s }, mem)

/-- Remove the head; `last` is forgotten when that empties the front list. -/
def get (q : Ptrqueue) : Option Ref × Ptrqueue :=
  match q.toFifo.refill.h with
  | [] => (none, { q with toFifo := q.toFifo.refill })
  | s :: rest =>
    (s, { toFifo := { q.toFifo.refill with h := rest },
          last := if rest.isEmpty then none else q.last })

/-- Look at the head; `last` is put back afterwards. -/
def peek (q : Ptrqueue) : Option Ref × Ptrqueue :=
  if q.h.isEmpty && q.t.isEmpty then (none, q)
  else (q.get.1, { toFifo := { q.get.2.toFifo with h := q.get.1 :: q.get.2.h }, last := q.last })

/-- `Ptrqueue.nonempty` -/
def nonempty (q : Ptrqueue) : Bool := q.toFifo.nonempty

/-- Drop all events. -/
def flush (q : Ptrqueue) : Ptrqueue := { q with h := [], t := [] }

/-- The queued references in order. -/
def contents (q : Ptrqueue) : List (Option Ref) := q.toFifo.contents

variable (q : Ptrqueue)

/-- An event with another button state than `last` joins the queue. -/
theorem put_append {mem : List Pointer} {s : Ref}
    (h : ∀ r, q.last = some r → buttonsAt mem s ≠ buttonsAt mem r) :
    q.put mem (some s) = some ({ toFifo := q.toFifo.put (some s), last := some s }, mem) := by
  unfold put
  cases hl : q.last with
  | none => rfl
  | some r => exact if_neg (h r hl)

/-- An event with the button state of `last` overwrites that record. -/
theorem put_merge {mem : List Pointer} {s r : Ref} (hl : q.last = some r)
    (h : buttonsAt mem s = buttonsAt mem r) :
    q.put mem (some s) = some (q, mem.set r (mem.getD s default)) := by
  unfold put
  rw [hl]
  exact if_pos h

/-- Putting an event dereferences no nil. -/
theorem put_some_ne_none (mem : List Pointer) (r : Ref) : q.put mem (some r) ≠ none := by
  rw [put.eq_def]
  cases q.last with
  | none => exact Option.some_ne_none _
  | some last =>
    simp only
    split_ifs <;> exact Option.some_ne_none _

theorem get_toFifo : q.get.2.toFifo = (q.toFifo.get none).2 := by
  unfold get Fifo.get
  cases q.toFifo.refill.h <;> rfl

theorem get_fst : q.get.1 = (q.toFifo.get none).1 := by
  unfold get Fifo.get
  cases q.toFifo.refill.h <;> rfl

/-- On the queue of references `peek` is the plain `peek`. -/
theorem peek_toFifo : q.peek.2.toFifo = (q.toFifo.peek none).2 := by
  unfold peek Fifo.peek
  rw [get_toFifo, get_fst]
  split <;> rfl

theorem peek_fst : q.peek.1 = (q.toFifo.peek none).1 := by
  unfold peek Fifo.peek
  rw [get_fst]
  split <;> rfl

@[simp] theorem peek_last : q.peek.2.last = q.last := by
  unfold peek
  split <;> rfl

@[simp] theorem contents_peek : q.peek.2.contents = q.contents := by
  rw [contents, peek_toFifo, Fifo.contents_peek, contents]

@[simp] theorem contents_get : q.get.2.contents = q.contents.tail := by
  rw [contents, get_toFifo, Fifo.contents_get, contents]

@[simp] theorem contents_flush : q.flush.contents = [] := rfl

@[simp] theorem flush_last : q.flush.last = q.last := rfl

/-- What `get` leaves in `last` is what was there, or nil. -/
theorem get_last : q.get.2.last = q.last ∨ q.get.2.last = none := by
  unfold get
  cases q.toFifo.refill.h with
  | nil => exact Or.inl rfl
  | cons s rest => cases rest with
    | nil => exact Or.inr rfl
    | cons s' rest => exact Or.inl rfl

theorem nonempty_iff : q.nonempty = true ↔ q.contents ≠ [] := q.toFifo.nonempty_iff

end Ptrqueue

end Aimsgui
