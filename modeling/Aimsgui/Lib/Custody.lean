import Mathlib.Data.List.Basic
import Mathlib.Order.Basic

/-!
# What is left with a keeper

An owner leaves something with a keeper, and takes it back. The keeper writes a ticket for what is
left with him; the two of them know of each other by messages only. The owner's notes, a `Slip`
each, come in order; a ticket that is given up comes back as a return, upon a note or because somebody claims
it. A `Deal` is all that there is between the two at one time.

* `final` is the ticket that there will be when the keeper has read all notes, and `owed` the number
  of returns that he will send by then.
* `Balanced` says that they will agree: unless something is on its way back to the owner, or will
  be, the keeper will have a ticket for what the owner has left. Every `Step` keeps that, and with
  no message under way they do agree (`Balanced.agree`).
-/

namespace Custody

universe u

variable {L : Type u}

/-- What the owner writes to the keeper. -/
inductive Slip (L : Type u) where
  | deposit (l : L)
  | withdraw
  deriving DecidableEq, Repr

namespace Slip

/-- The ticket when the note has been read. -/
def ticket : Slip L → Option L
  | deposit l => some l
  | withdraw => none

/-- The number of returns that the keeper sends upon the note. -/
def due (old : Option L) : Slip L → Nat
  | deposit _ => 0
  | withdraw => if old.isSome then 1 else 0

end Slip

/-- The ticket when all notes have been read. -/
def final : Option L → List (Slip L) → Option L
  | ticket, [] => ticket
  | _, n :: ns => final n.ticket ns

/-- The number of returns that the keeper sends upon all notes. -/
def owed : Option L → List (Slip L) → Nat
  | _, [] => 0
  | ticket, n :: ns => n.due ticket + owed n.ticket ns

variable {ticket : Option L} {ns ns' : List (Slip L)}

theorem final_append : final ticket (ns ++ ns') = final (final ticket ns) ns' := by
  induction ns generalizing ticket with
  | nil => rfl
  | cons n ns ih => exact ih

theorem owed_append :
    owed ticket (ns ++ ns') = owed ticket ns + owed (final ticket ns) ns' := by
  induction ns generalizing ticket with
  | nil => exact (Nat.zero_add _).symm
  | cons n ns ih => rw [List.cons_append, owed, owed, ih, final, Nat.add_assoc]

/-- The last note counts. -/
@[simp] theorem final_snoc (n : Slip L) : final ticket (ns ++ [n]) = n.ticket := by
  rw [final_append]
  rfl

@[simp] theorem owed_snoc (n : Slip L) :
    owed ticket (ns ++ [n]) = owed ticket ns + n.due (final ticket ns) := by
  rw [owed_append]
  rfl

/-- Without a ticket there is none later, if there will be none anyway. -/
theorem final_none (h : final ticket ns = none) : final none ns = none := by
  cases ns with
  | nil => rfl
  | cons n ns => exact h

/-- Nothing is deposited. -/
theorem final_withdraws (h : ∀ n ∈ ns, n = .withdraw) : final (none : Option L) ns = none := by
  induction ns with
  | nil => rfl
  | cons n ns ih =>
    obtain ⟨rfl, hns⟩ := List.forall_mem_cons.mp h
    exact ih hns

/-- What is between an owner and the keeper. -/
@[ext] structure Deal (L : Type u) where
  /-- what the owner has left, unless he has it back -/
  left : Option L
  ticket : Option L
  /-- the notes on their way to the keeper -/
  notes : List (Slip L)
  /-- the number of returns on their way to the owner -/
  returns : Nat

namespace Deal

variable {d d' : Deal L}

/-- There will be no ticket. -/
def Closed (d : Deal L) : Prop := final d.ticket d.notes = none

/-- Unless there is a return now or later, there will be a ticket for what the owner has left. -/
def Balanced (d : Deal L) : Prop :=
  d.returns + owed d.ticket d.notes = 0 → final d.ticket d.notes = d.left

/-- What the two can do. -/
inductive Step : Deal L → Deal L → Prop where
  /-- the owner leaves something -/
  | leave {left ticket ns k} (l : L) :
      Step ⟨left, ticket, ns, k⟩ ⟨some l, ticket, ns ++ [.deposit l], k⟩
  /-- the owner asks for what he has left -/
  | ask {left ticket ns k} : Step ⟨left, ticket, ns, k⟩ ⟨left, ticket, ns ++ [.withdraw], k⟩
  /-- the owner has it back, upon returns or without one -/
  | fetch {left ticket ns k} (k' : Nat) :
      Step ⟨left, ticket, ns, k⟩ ⟨none, ticket, ns ++ [.withdraw], k'⟩
  /-- the keeper reads a note -/
  | read {left ticket n ns k} :
      Step ⟨left, ticket, n :: ns, k⟩ ⟨left, n.ticket, ns, k + n.due ticket⟩
  /-- somebody claims the ticket -/
  | claim {left l ns k} : Step ⟨left, some l, ns, k⟩ ⟨left, none, ns, k + 1⟩
  /-- more comes back than was left -/
  | gift {left ticket ns k} (k' : Nat) : Step ⟨left, ticket, ns, k⟩ ⟨left, ticket, ns, k + k'⟩

/-- Every step keeps the balance. -/
theorem Step.balanced (h : Step d d') (hd : d.Balanced) : d'.Balanced := by
  cases h with
  | leave l => exact fun _ => final_snoc _
  | @ask left ticket ns k =>
    intro hnone
    simp only [owed_snoc] at hnone
    have hleft : final ticket ns = left := hd (by simp only; omega)
    -- a ticket that the note finds would be owed
    cases hfinal : final ticket ns with
    | none => simp only [final_snoc, Slip.ticket, ← hleft, hfinal]
    | some l =>
      rw [hfinal] at hnone
      simp [Slip.due] at hnone
  | fetch k' => exact fun _ => final_snoc _
  | read =>
    intro hnone
    refine hd ?_
    simp only [owed] at hnone ⊢
    omega
  | claim =>
    intro hnone
    simp only at hnone
    omega
  | gift k' =>
    intro hnone
    refine hd ?_
    simp only at hnone ⊢
    omega

/-- Nobody has left anything, and there will be no ticket. -/
theorem Closed.balanced (h : d.Closed) (hleft : d.left = none) : d.Balanced :=
  fun _ => h.trans hleft.symm

/-- With nothing under way the ticket is for what has been left. -/
theorem Balanced.agree (h : d.Balanced) (hnotes : d.notes = []) (hreturns : d.returns = 0) :
    d.ticket = d.left := by
  have hfinal := h (by rw [hnotes, hreturns]; rfl)
  rwa [hnotes] at hfinal

end Deal

end Custody
