import Aimsgui.Lib.Slices
import Aimsgui.Lib.Words

/-!
# The snarf buffer

`/chan/snarf` is written and read in pieces. A write at 0 replaces the buffer; another one
overlays it at its offset, and makes it longer if need be. A read stops at the end of the
buffer. So what has been written in consecutive pieces, however it was cut, is what is read
in consecutive pieces until there is nothing left, whatever was in the buffer before
(`snarf_round_trip`).
-/

namespace Aimsgui

open Slices

namespace Snarf

/-- The sum of an offset and a length, if it is an `int`. -/
def plus (off n : Nat) : Option Nat := (Words.add 32 off n).map Int.toNat

/-- The case `<-snarfIO.write`. -/
def write (snarf : List UInt8) (off : Nat) (data : List UInt8) : Option (List UInt8) :=
  if off = 0 then some data
  else do
    let e ← plus off data.length
    if snarf.length < e then
      let nsnarf ← blit (List.replicate e 0) 0 snarf
      blit nsnarf off data
    else blit snarf off data

/-- The case `<-snarfIO.read`. -/
def read (snarf : List UInt8) (off nbytes : Nat) : Option (List UInt8) :=
  if snarf.length ≤ off then some []
  else do
    let e ← plus off nbytes
    slice snarf off (if snarf.length < e then snarf.length else e)

/-- Consecutive writes. -/
def writes (snarf : List UInt8) (off : Nat) : List (List UInt8) → Option (List UInt8)
  | [] => some snarf
  | data :: chunks => do
    let snarf ← write snarf off data
    writes snarf (off + data.length) chunks

/-- Consecutive reads, and what they get. -/
def reads (snarf : List UInt8) (off : Nat) : List Nat → Option (List (List UInt8))
  | [] => some []
  | n :: counts => do
    let data ← read snarf off n
    let answers ← reads snarf (off + data.length) counts
    return data :: answers

variable {snarf data : List UInt8} {chunks : List (List UInt8)} {off n : Nat} {counts : List Nat}

theorem plus_eq (h : off + n < 2 ^ 31) : plus off n = some (off + n) := by
  have hfits : Words.Fits 32 ((off : Int) + (n : Int)) := by
    rw [Words.Fits]
    omega
  rw [plus, Words.add_eq_some hfits, Option.map_some]
  exact congrArg some (Int.toNat_natCast (off + n))

/-- A write where the buffer ends makes it longer by what is written. -/
theorem write_end (h : snarf.length + data.length < 2 ^ 31) :
    write snarf snarf.length data = some (snarf ++ data) := by
  rw [write]
  by_cases hnil : snarf.length = 0
  · rw [if_pos hnil, List.length_eq_zero_iff.mp hnil, List.nil_append]
  rw [if_neg hnil, plus_eq h]
  simp only [Option.bind_eq_bind, Option.bind_some]
  split_ifs with hlt
  · have hgrown : blit (List.replicate (snarf.length + data.length) 0) 0 snarf =
        some (snarf ++ List.replicate data.length 0) := by
      rw [blit_zero (by rw [List.length_replicate]; omega), List.drop_replicate,
        Nat.add_sub_cancel_left]
    rw [hgrown, Option.bind_some]
    exact blit_append (List.length_replicate ..)
  · -- nothing is written
    have hdata : data = [] := List.length_eq_zero_iff.mp (by omega)
    have happend : blit (snarf ++ []) snarf.length [] = some (snarf ++ []) := blit_append rfl
    rw [hdata]
    rwa [List.append_nil] at happend ⊢

theorem writes_end (h : snarf.length + chunks.flatten.length < 2 ^ 31) :
    writes snarf snarf.length chunks = some (snarf ++ chunks.flatten) := by
  induction chunks generalizing snarf with
  | nil => rw [writes, List.flatten_nil, List.append_nil]
  | cons data chunks ih =>
    rw [List.flatten_cons, List.length_append] at h
    have hwrite : write snarf snarf.length data = some (snarf ++ data) := write_end (by omega)
    have hrest := @ih (snarf ++ data) (by rw [List.length_append]; omega)
    rw [List.length_append] at hrest
    rw [writes, hwrite]
    simp only [Option.bind_eq_bind, Option.bind_some]
    rw [hrest, List.flatten_cons, List.append_assoc]

/-- What is in the buffer after the writes: without any, what was there. -/
def written (old : List UInt8) (chunks : List (List UInt8)) : List UInt8 :=
  if chunks = [] then old else chunks.flatten

/-- The first write does not depend on what was there. -/
theorem writes_start (old : List UInt8) (h : chunks.flatten.length < 2 ^ 31) :
    writes old 0 chunks = some (written old chunks) := by
  cases chunks with
  | nil => rfl
  | cons data chunks =>
    rw [List.flatten_cons, List.length_append] at h
    have hrest : writes data data.length chunks = some (data ++ chunks.flatten) := writes_end h
    rw [writes, write, if_pos rfl]
    simp only [Option.bind_eq_bind, Option.bind_some, Nat.zero_add]
    exact hrest

/-- A read gets as much as there is. -/
theorem read_eq (h : off + n < 2 ^ 31) : read snarf off n = some ((snarf.drop off).take n) := by
  rw [read]
  split_ifs with hend
  · rw [List.drop_eq_nil_of_le hend, List.take_nil]
  rw [plus_eq h]
  simp only [Option.bind_eq_bind, Option.bind_some]
  split_ifs with hlt
  · rw [slice_length (by omega), List.take_of_length_le (by rw [List.length_drop]; omega)]
  · rw [slice_eq_some (by omega) (by omega), List.drop_take, Nat.add_sub_cancel_left]

/-- Every sum of the offset and the count of a read is an `int`. -/
def Small (snarf : List UInt8) (off : Nat) : List Nat → Prop
  | [] => True
  | n :: counts => off + n < 2 ^ 31 ∧ Small snarf (off + ((snarf.drop off).take n).length) counts

/-- What a read gets and what is left behind it make up what was left before. -/
theorem read_append (snarf : List UInt8) (off n : Nat) : (snarf.drop off).take n ++
    snarf.drop (off + ((snarf.drop off).take n).length) = snarf.drop off := by
  obtain ⟨rest, hrest⟩ := List.take_prefix n (snarf.drop off)
  rw [← List.drop_drop]
  generalize (snarf.drop off).take n = data at hrest ⊢
  rw [← hrest, List.drop_left]

/-- A read of something gets nothing only at the end. -/
theorem read_eq_nil (hn : 0 < n) (h : (snarf.drop off).take n = []) : snarf.drop off = [] := by
  rcases List.take_eq_nil_iff.mp h with h | h
  · omega
  · exact h

/-- The last of more than one answer. -/
theorem getLast?_of_rest {answers : List (List UInt8)} (h : answers.getLast? = some []) :
    (data :: answers).getLast? = some [] := by
  cases answers with
  | nil => cases h
  | cons answer answers => rwa [List.getLast?_cons_cons]

/-- What consecutive reads get, from the offset on. When the last of them gets nothing, there is
nothing left, and there is less left after each one before. -/
theorem reads_from (hoff : off ≤ snarf.length) (hcounts : ∀ n ∈ counts, 0 < n)
    (hsmall : Small snarf off counts) : ∃ answers, reads snarf off counts = some answers ∧
      (answers.getLast? = some [] → answers.flatten = snarf.drop off) ∧
      (snarf.length - off < counts.length → answers.getLast? = some []) := by
  induction counts generalizing off with
  | nil => exact ⟨[], rfl, nofun, fun h => absurd h (Nat.not_lt_zero _)⟩
  | cons n counts ih =>
    obtain ⟨hsum, hsmall⟩ := hsmall
    obtain ⟨hn, hcounts⟩ := List.forall_mem_cons.mp hcounts
    have hlen : ((snarf.drop off).take n).length = min n (snarf.length - off) := by
      rw [List.length_take, List.length_drop]
    have happend := read_append snarf off n
    obtain ⟨answers, hreads, hflatten, hlast⟩ := ih (by omega) hcounts hsmall
    refine ⟨(snarf.drop off).take n :: answers, ?_, ?_, ?_⟩
    · rw [reads, read_eq hsum]
      simp only [Option.bind_eq_bind, Option.bind_some, hreads]
      rfl
    · intro hempty
      rw [List.flatten_cons]
      cases answers with
      | nil =>
        have hnone : (snarf.drop off).take n = [] := Option.some.inj hempty
        rw [hnone, read_eq_nil hn hnone]
        rfl
      | cons answer answers =>
        rw [List.getLast?_cons_cons] at hempty
        rw [hflatten hempty]
        exact happend
    · intro hcount
      rw [List.length_cons] at hcount
      cases counts with
      | nil =>
        obtain rfl := Option.some.inj hreads
        have hend : snarf.length ≤ off := by
          rw [List.length_nil] at hcount
          omega
        rw [List.drop_eq_nil_of_le hend, List.take_nil]
        rfl
      | cons m counts =>
        apply getLast?_of_rest
        apply hlast
        rw [List.length_cons] at hcount ⊢
        omega

/-- For every old content and every division of what is written into pieces, and every sequence of
consecutive reads of something, as long as all offsets are `int`s: nothing is done outside of an
array; if the last read gets nothing, the reads have got what was written; and with more reads
than there are bytes, the last one gets nothing. -/
theorem snarf_round_trip (old : List UInt8) (hsize : chunks.flatten.length < 2 ^ 31)
    (hcounts : ∀ n ∈ counts, 0 < n) (hsmall : Small (written old chunks) 0 counts) :
    ∃ snarf answers, writes old 0 chunks = some snarf ∧ reads snarf 0 counts = some answers ∧
      (answers.getLast? = some [] → answers.flatten = written old chunks) ∧
      (snarf.length < counts.length → answers.getLast? = some []) := by
  obtain ⟨answers, hreads, hflatten, hlast⟩ := reads_from (Nat.zero_le _) hcounts hsmall
  exact ⟨written old chunks, answers, writes_start old hsize, hreads, hflatten, hlast⟩

/-- Three bytes written in two pieces over four old ones, and read in two pieces. -/
theorem snarf_round_trip_three : ∃ snarf answers, writes [9, 9, 9, 9] 0 [[1, 2], [3]] = some snarf ∧
    reads snarf 0 [2, 5, 1] = some answers ∧ answers.flatten = [1, 2, 3] := by
  obtain ⟨snarf, answers, hwrites, hreads, hflatten, -⟩ :=
    @snarf_round_trip [[1, 2], [3]] [2, 5, 1] [9, 9, 9, 9] (by decide) (by decide)
      ⟨by decide, by decide, by decide, trivial⟩
  refine ⟨snarf, answers, hwrites, hreads, hflatten ?_⟩
  obtain rfl := Option.some.inj hwrites
  obtain rfl := Option.some.inj hreads
  rfl

end Snarf

end Aimsgui
