import Mathlib.Order.Basic
import Mathlib.Algebra.Order.Ring.Int
import Mathlib.Tactic.Linarith

/-!
# Arithmetic on signed words

A program that computes with signed words of `w` bits computes with integers as long as
every result fits. `add`, `sub`, `mul` and `div` are its operations as partial functions:
they have no value where the result does not fit, and `div`, which truncates, none for the
divisor zero. So a computation has a value exactly if nothing overflows on the way and
nothing is divided by zero, and the value is then the one over the integers.

A program that goes on after an overflow has the rest modulo `2 ^ w`: `wrap` is the word
that is left of an integer. It is the integer itself if that fits (`wrap_of_fits`), and
one modulus less or more on the next stretch above or below (`wrap_of_ge`, `wrap_of_lt`).
-/

namespace Words

/-- The integers that a signed word of `w` bits holds. -/
def Fits (w : Nat) (n : Int) : Prop := -2 ^ (w - 1) ≤ n ∧ n < 2 ^ (w - 1)

instance (w : Nat) (n : Int) : Decidable (Fits w n) := inferInstanceAs (Decidable (_ ∧ _))

/-- The result of an operation, if it fits. -/
def fit (w : Nat) (n : Int) : Option Int := if Fits w n then some n else none

/-- The sum, if it is a word. -/
def add (w : Nat) (a b : Int) : Option Int := fit w (a + b)

/-- The difference, if it is a word. -/
def sub (w : Nat) (a b : Int) : Option Int := fit w (a - b)

/-- The product, if it is a word. -/
def mul (w : Nat) (a b : Int) : Option Int := fit w (a * b)

/-- Division that truncates towards zero. -/
def div (w : Nat) (a b : Int) : Option Int := if b = 0 then none else fit w (a.tdiv b)

variable {w : Nat} {a b c : Int}

/-- What lies between two words is a word. -/
theorem Fits.of_mem (ha : Fits w a) (hc : Fits w c) (hab : a ≤ b) (hbc : b ≤ c) : Fits w b :=
  ⟨ha.1.trans hab, hbc.trans_lt hc.2⟩

theorem fit_eq_some (h : Fits w a) : fit w a = some a := if_pos h

theorem add_eq_some (h : Fits w (a + b)) : add w a b = some (a + b) := fit_eq_some h

theorem sub_eq_some (h : Fits w (a - b)) : sub w a b = some (a - b) := fit_eq_some h

theorem mul_eq_some (h : Fits w (a * b)) : mul w a b = some (a * b) := fit_eq_some h

theorem neg_two_pow_nonpos {n : Nat} : -2 ^ n ≤ (0 : Int) :=
  neg_nonpos.mpr (pow_nonneg (by decide) n)

/-- A quotient by a positive number lies between zero and the dividend. -/
theorem Fits.tdiv (h : Fits w a) (ha : 0 ≤ a) (hb : 0 < b) : Fits w (a.tdiv b) := by
  constructor
  · exact neg_two_pow_nonpos.trans (Int.tdiv_nonneg ha hb.le)
  · exact (Int.tdiv_le_self b ha).trans_lt h.2

theorem div_eq_some (h : Fits w a) (ha : 0 ≤ a) (hb : 0 < b) : div w a b = some (a.tdiv b) := by
  rw [div, if_neg hb.ne']
  exact fit_eq_some (h.tdiv ha hb)

/-! ## What is left after an overflow -/

/-- The word that a machine keeps of an integer. -/
def wrap (w : Nat) (n : Int) : Int := n.bmod (2 ^ w)

theorem two_pow_eq_add (hw : 0 < w) : (2 : Int) ^ w = 2 ^ (w - 1) + 2 ^ (w - 1) := by
  obtain ⟨w, rfl⟩ := Nat.exists_eq_succ_of_ne_zero hw.ne'
  rw [Nat.succ_sub_one, pow_succ, mul_two]

/-- A word stands for the integers that differ from it by multiples of the modulus. -/
theorem wrap_eq_of_fits (hw : 0 < w) {k : Int} (h : Fits w (a + k * 2 ^ w)) :
    wrap w a = a + k * 2 ^ w := by
  have htwo := two_pow_eq_add hw
  have hcast : ((2 ^ w : Nat) : Int) = 2 ^ w := by push_cast; rfl
  have hmod : wrap w a = (a + k * 2 ^ w).bmod (2 ^ w) := by
    rw [wrap, ← hcast, Int.add_mul_bmod_self_right]
  obtain ⟨hlo, hhi⟩ := h
  rw [hmod]
  exact Int.bmod_eq_of_le_mul_two (by rw [hcast]; linarith) (by rw [hcast]; linarith)

theorem wrap_of_fits (hw : 0 < w) (h : Fits w a) : wrap w a = a := by
  have hzero : a + 0 * 2 ^ w = a := by rw [zero_mul, add_zero]
  exact (wrap_eq_of_fits hw (by rwa [hzero])).trans hzero

/-- Above the words, one modulus is lost. -/
theorem wrap_of_ge (hw : 0 < w) (hlo : 2 ^ (w - 1) ≤ a) (hhi : a < 2 ^ w + 2 ^ (w - 1)) :
    wrap w a = a - 2 ^ w := by
  have htwo := two_pow_eq_add hw
  have hone : a + -1 * 2 ^ w = a - 2 ^ w := by omega
  exact (wrap_eq_of_fits hw (by rw [hone]; exact ⟨by linarith, by linarith⟩)).trans hone

/-- Below the words, one modulus is gained. -/
theorem wrap_of_lt (hw : 0 < w) (hlo : -2 ^ w - 2 ^ (w - 1) ≤ a) (hhi : a < -2 ^ (w - 1)) :
    wrap w a = a + 2 ^ w := by
  have htwo := two_pow_eq_add hw
  have hone : a + 1 * 2 ^ w = a + 2 ^ w := by omega
  exact (wrap_eq_of_fits hw (by rw [hone]; exact ⟨by linarith, by linarith⟩)).trans hone

/-- What is left is a word. -/
theorem fits_wrap (hw : 0 < w) : Fits w (wrap w a) := by
  have htwo := two_pow_eq_add hw
  have hcast : ((2 ^ w : Nat) : Int) = 2 ^ w := by push_cast; rfl
  have hlo := Int.le_bmod (x := a) (m := 2 ^ w) (by positivity)
  have hhi := Int.bmod_lt (x := a) (m := 2 ^ w) (by positivity)
  rw [hcast] at hlo hhi
  exact ⟨by unfold wrap; omega, by unfold wrap; omega⟩

end Words
