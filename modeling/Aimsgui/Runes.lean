import Mathlib.Data.List.Basic
import Mathlib.Algebra.Order.Ring.Int

/-!
# Strings as bytes

A string is a sequence of runes, which are 16 bits wide. `array of byte s` converts it with
`runetochar` to UTF-8 (`bytes_runes`), with one to three bytes for each rune. So the number of
bytes is `len s`, the number of runes, only if all of them are ASCII (`length_bytes_eq_iff`).
-/

namespace Aimsgui

/-- A character of a string. -/
abbrev Rune := Fin (2 ^ 16)

namespace Rune

/-- How many bits of the character a byte that stands alone holds. -/
def Bit1 : Nat := 7
/-- How many a byte that goes on holds. -/
def Bitx : Nat := 6
/-- How many the first of two bytes holds. -/
def Bit2 : Nat := 5
/-- How many the first of three holds. -/
def Bit3 : Nat := 4

/-- The mark of a byte that goes on. -/
def Tx : Nat := (1 <<< (Bitx + 1) - 1) ^^^ 0xFF
/-- The mark of the first of two bytes. -/
def T2 : Nat := (1 <<< (Bit2 + 1) - 1) ^^^ 0xFF
/-- The mark of the first of three. -/
def T3 : Nat := (1 <<< (Bit3 + 1) - 1) ^^^ 0xFF

/-- The last character that is one byte. -/
def Rune1 : Nat := 1 <<< (Bit1 + 0 * Bitx) - 1
/-- The last one that is two. -/
def Rune2 : Nat := 1 <<< (Bit2 + 1 * Bitx) - 1

/-- The bits of the character in a byte that goes on. -/
def Maskx : Nat := 1 <<< Bitx - 1

/-- The bytes that `runetochar` stores. -/
def runetochar (r : Rune) : List UInt8 :=
  let c := r.val
  if c ≤ Rune1 then [.ofNat c]
  else if c ≤ Rune2 then [.ofNat (T2 ||| c >>> (1 * Bitx)), .ofNat (Tx ||| c &&& Maskx)]
  else [.ofNat (T3 ||| c >>> (2 * Bitx)), .ofNat (Tx ||| (c >>> (1 * Bitx)) &&& Maskx),
    .ofNat (Tx ||| c &&& Maskx)]

/-- The rune is an ASCII character. -/
def Ascii (r : Rune) : Prop := r.val ≤ Rune1

instance : DecidablePred Ascii := fun r => inferInstanceAs (Decidable (r.val ≤ Rune1))

variable {r : Rune} {s : List Rune}

/-- `array of byte s` -/
def bytes (s : List Rune) : List UInt8 := s.flatMap runetochar

theorem bytes_append (s t : List Rune) : bytes (s ++ t) = bytes s ++ bytes t := List.flatMap_append

/-- A rune is at least one byte, and more if it is not ASCII. -/
theorem length_runetochar (r : Rune) :
    1 ≤ (runetochar r).length ∧ ((runetochar r).length = 1 ↔ r.Ascii) := by
  rw [runetochar, Ascii]
  split_ifs with h₁ h₂
  · exact ⟨Nat.le_refl 1, iff_of_true rfl h₁⟩
  · exact ⟨Nat.le_add_left 1 1, iff_of_false (Nat.succ_ne_self 1) h₁⟩
  · exact ⟨Nat.le_add_left 1 2, iff_of_false (by simp) h₁⟩

/-- There are as many bytes as runes just if all runes are ASCII. -/
theorem length_bytes (s : List Rune) :
    s.length ≤ (bytes s).length ∧ ((bytes s).length = s.length ↔ ∀ r ∈ s, r.Ascii) := by
  induction s with
  | nil => exact ⟨Nat.le_refl 0, iff_of_true rfl fun _ hr => absurd hr List.not_mem_nil⟩
  | cons r s ih =>
    obtain ⟨hle, hiff⟩ := ih
    obtain ⟨hone, hascii⟩ := length_runetochar r
    rw [bytes, List.flatMap_cons, ← bytes, List.length_append, List.length_cons,
      List.forall_mem_cons, ← hascii, ← hiff]
    constructor
    · omega
    · omega

/-! ## UTF-8 -/

/-- A character of the Basic Multilingual Plane. -/
def ofChar (c : Char) (h : c.toNat < 2 ^ 16) : Rune := ⟨c.toNat, h⟩

theorem or_T2 {n : Nat} (h : n < 32) : T2 ||| n = n % 0x20 + 0xc0 := by
  revert n
  decide

theorem or_T3 {n : Nat} (h : n < 16) : T3 ||| n = n % 0x10 + 0xe0 := by
  revert n
  decide

theorem or_Tx {n : Nat} (h : n < 64) : Tx ||| n = n + 0x80 := by
  revert n
  decide

/-- A continuation byte. -/
theorem or_and_Maskx (n : Nat) : Tx ||| n &&& Maskx = n % 0x40 + 0x80 := by
  have hmask : n &&& Maskx = n % 0x40 := Nat.and_two_pow_sub_one_eq_mod n 6
  rw [hmask]
  exact or_Tx (Nat.mod_lt n (by decide))

/-- `runetochar` encodes in UTF-8. -/
theorem runetochar_ofChar (c : Char) (h : c.toNat < 2 ^ 16) :
    runetochar (ofChar c h) = String.utf8EncodeChar c := by
  have hshift : ∀ n : Nat, n >>> (1 * Bitx) = n / 64 := fun n => Nat.shiftRight_eq_div_pow n 6
  have hshift' : ∀ n : Nat, n >>> (2 * Bitx) = n / 4096 := fun n => Nat.shiftRight_eq_div_pow n 12
  have hnat : c.val.toNat = c.toNat := rfl
  rw [runetochar, String.utf8EncodeChar]
  simp only [ofChar, hnat, hshift, hshift', or_and_Maskx]
  have hRune1 : Rune1 = 0x7f := rfl
  have hRune2 : Rune2 = 0x7ff := rfl
  rw [hRune1, hRune2]
  by_cases h₁ : c.toNat ≤ 0x7f
  · rw [if_pos h₁, if_pos h₁]
  · rw [if_neg h₁, if_neg h₁]
    by_cases h₂ : c.toNat ≤ 0x7ff
    · rw [if_pos h₂, if_pos h₂, or_T2 (by omega)]
    · rw [if_neg h₂, if_neg h₂, if_pos (by omega), or_T3 (by omega)]

/-- The runes of a text, if it has no character beyond the Basic Multilingual Plane. -/
def ofText (s : List Char) (h : ∀ c ∈ s, c.toNat < 2 ^ 16) : List Rune :=
  s.pmap ofChar h

/-- So the bytes of a text are its UTF-8 encoding. -/
theorem bytes_ofText (s : List Char) (h : ∀ c ∈ s, c.toNat < 2 ^ 16) :
    bytes (ofText s h) = s.flatMap String.utf8EncodeChar := by
  induction s with
  | nil => rfl
  | cons c s ih =>
    have ih := ih fun a ha => h a (List.mem_cons_of_mem _ ha)
    rw [List.flatMap_cons, ← ih, ← runetochar_ofChar c (h c List.mem_cons_self)]
    rfl

end Rune

end Aimsgui
