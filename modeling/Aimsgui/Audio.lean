import Aimsgui.Lib.Slices

/-!
# Playing a sound file

A sound file starts with a header, which goes to `/dev/audioctl`, and which ends at the first
pair of adjacent newlines; what follows goes to `/dev/audio`. `play` looks for this pair in
what it gets with its first read, byte by byte. It finds it exactly if it is there, and does
not look further than it has read (`play_spec`).
-/

namespace Aimsgui

open Slices

namespace Audio

/-- `byte '\n'` -/
def newline : UInt8 := 10

/-- `Magic`, "rate". A string of four ASCII characters is made of these bytes only. -/
def magic : List UInt8 := [0x72, 0x61, 0x74, 0x65]

/-- What is printed about the file `f`. -/
def complaint (f e : String) : String := "soundplayer/audio3: " ++ f ++ ": " ++ e ++ "\n"

/-- Where a turn of the loop in `play` leads. -/
inductive Turn where
  /-- another turn, with `i` at this place -/
  | next (i : Nat)
  /-- out of the loop, with `i` at this place -/
  | found (i : Nat)
  | rejected (e : String)
  /-- a byte that has not been read is looked at -/
  | outside
  deriving DecidableEq, Repr

/-- A turn of the loop, where `buff` is what has been read, and `n` its length. -/
def turn (buff : List UInt8) (i : Nat) : Turn :=
  if i = buff.length then .rejected "bad header"
  else
    match buff[i]? with
    | none => .outside
    | some c =>
      if c = newline then
        if i + 1 = buff.length then .rejected "bad header"
        else
          match buff[i + 1]? with
          | none => .outside
          | some c =>
            if c = newline then
              if (i + 2) % 4 ≠ 0 then .rejected "unpadded header" else .found (i + 2)
            else .next (i + 1)
      else .next (i + 1)

/-- The loop; without a value if it takes more turns than there is fuel. -/
def scan (buff : List UInt8) : Nat → Nat → Option Turn
  | 0, _ => none
  | fuel + 1, i =>
    match turn buff i with
    | .next i => scan buff fuel i
    | t => some t

/-- What comes of it: the message, or the bytes written to the two devices. -/
inductive Outcome where
  | rejected (e : String)
  | played (ctl data : List UInt8)
  /-- outside of an array -/
  | failed
  deriving DecidableEq, Repr

/-- `play`, with `buff` for what the first read gets of the file, and `rest` for what there is
after that. The devices open, and take what they are given. -/
def play (f : String) (buff rest : List UInt8) : Option Outcome :=
  if buff.length < 10 ∨ buff.take 4 ≠ magic then
    some (.rejected (complaint f "not an audio file"))
  else
    (scan buff (buff.length + 1) 0).map fun t =>
      match t with
      | .found i =>
        match slice buff 0 (i - 1), if i < buff.length then slice buff i buff.length else some [] with
        | some ctl, some data => .played ctl (data ++ rest)
        | _, _ => .failed
      | .rejected e => .rejected (complaint f e)
      | _ => .failed

variable {buff rest : List UInt8} {i k fuel : Nat} {t : Turn}

/-- There are adjacent newlines at `k`. -/
def Pair (buff : List UInt8) (k : Nat) : Prop :=
  buff[k]? = some newline ∧ buff[k + 1]? = some newline

/-- The first pair of adjacent newlines. -/
def First (buff : List UInt8) (k : Nat) : Prop := Pair buff k ∧ ∀ j < k, ¬ Pair buff j

/-- Up to the place `i` there has been no pair. -/
def Clear (buff : List UInt8) (i : Nat) : Prop := i ≤ buff.length ∧ ∀ j < i, ¬ Pair buff j

theorem First.unique {k' : Nat} (h : First buff k) (h' : First buff k') : k = k' := by
  rcases Nat.lt_trichotomy k k' with hlt | heq | hgt
  · exact absurd h.1 (h'.2 k hlt)
  · exact heq
  · exact absurd h'.1 (h.2 k' hgt)

theorem Clear.succ (h : Clear buff i) (hlt : i < buff.length) (hi : ¬ Pair buff i) :
    Clear buff (i + 1) := by
  refine ⟨hlt, fun j hj => ?_⟩
  rcases Nat.lt_succ_iff_lt_or_eq.mp hj with hj | rfl
  · exact h.2 j hj
  · exact hi

/-- What a turn does, when there has been no pair so far. -/
inductive Turned (buff : List UInt8) (i : Nat) : Turn → Prop where
  | next : Clear buff (i + 1) → Turned buff i (.next (i + 1))
  | found : First buff i → (i + 2) % 4 = 0 → Turned buff i (.found (i + 2))
  | unpadded : First buff i → (i + 2) % 4 ≠ 0 → Turned buff i (.rejected "unpadded header")
  | bad : (∀ k, ¬ Pair buff k) → Turned buff i (.rejected "bad header")

/-- A pair ends before the end. -/
theorem Pair.lt (h : Pair buff k) : k + 1 < buff.length := by
  obtain ⟨hlt, -⟩ := List.getElem?_eq_some_iff.mp h.2
  exact hlt

/-- At the end, or before the last byte, it is too late for a pair. -/
theorem Clear.none (h : Clear buff i) (hend : buff.length ≤ i + 1) (k : Nat) : ¬ Pair buff k := by
  intro hk
  have hlt := hk.lt
  exact h.2 k (by omega) hk

theorem turn_cases (h : Clear buff i) : Turned buff i (turn buff i) := by
  rw [turn]
  by_cases hend : i = buff.length
  · rw [if_pos hend]
    exact .bad (h.none (by omega))
  have hlt : i < buff.length := Nat.lt_of_le_of_ne h.1 hend
  rw [if_neg hend, List.getElem?_eq_getElem hlt]
  by_cases hc : buff[i] = newline
  · by_cases hend' : i + 1 = buff.length
    · simp only [if_pos hc, if_pos hend']
      exact .bad (h.none (by omega))
    have hlt' : i + 1 < buff.length := Nat.lt_of_le_of_ne hlt hend'
    simp only [if_pos hc, if_neg hend', List.getElem?_eq_getElem hlt']
    by_cases hc' : buff[i + 1] = newline
    · have hfirst : First buff i :=
        ⟨⟨List.getElem?_eq_some_iff.mpr ⟨hlt, hc⟩, List.getElem?_eq_some_iff.mpr ⟨hlt', hc'⟩⟩, h.2⟩
      rw [if_pos hc']
      split_ifs with hpad
      · exact .unpadded hfirst hpad
      · exact .found hfirst (not_not.mp hpad)
    · rw [if_neg hc']
      refine .next (h.succ hlt fun hpair => hc' ?_)
      exact (List.getElem?_eq_some_iff.mp hpair.2).2
  · simp only [if_neg hc]
    refine .next (h.succ hlt fun hpair => hc ?_)
    exact (List.getElem?_eq_some_iff.mp hpair.1).2

/-- What the loop comes to. -/
inductive Scanned (buff : List UInt8) : Turn → Prop where
  | found {j} : First buff j → (j + 2) % 4 = 0 → Scanned buff (.found (j + 2))
  | unpadded {j} : First buff j → (j + 2) % 4 ≠ 0 → Scanned buff (.rejected "unpadded header")
  | bad : (∀ k, ¬ Pair buff k) → Scanned buff (.rejected "bad header")

/-- A turn for each byte is enough. -/
theorem scan_cases (h : Clear buff i) (hfuel : buff.length < fuel + i) :
    ∃ t, scan buff fuel i = some t ∧ Scanned buff t := by
  induction fuel generalizing i with
  | zero =>
    have hle := h.1
    omega
  | succ fuel ih =>
    rw [scan]
    have hturn := turn_cases h
    generalize turn buff i = t at hturn ⊢
    cases hturn with
    | next hclear => exact ih hclear (by omega)
    | found hfirst hpad => exact ⟨_, rfl, .found hfirst hpad⟩
    | unpadded hfirst hpad => exact ⟨_, rfl, .unpadded hfirst hpad⟩
    | bad hnone => exact ⟨_, rfl, .bad hnone⟩

/-- The file is one that can be played: there is a pair of newlines in what has been read, and it
ends at a multiple of four bytes. -/
def Playable (buff : List UInt8) (k : Nat) : Prop :=
  10 ≤ buff.length ∧ buff.take 4 = magic ∧ First buff k ∧ 4 ∣ k + 2

/-- For every file, of which the first read gets `buff`: `play` rejects it, or the first pair of
newlines ends at a place divisible by four, and the header with one of them goes to one device,
what follows to the other. -/
theorem play_spec (f : String) (buff rest : List UInt8) :
    (∃ e, play f buff rest = some (.rejected e) ∧ ∀ k, ¬ Playable buff k) ∨
      ∃ k, Playable buff k ∧ k + 2 ≤ buff.length ∧
        play f buff rest = some (.played (buff.take (k + 1)) ((buff ++ rest).drop (k + 2))) := by
  rw [play]
  by_cases hmagic : buff.length < 10 ∨ buff.take 4 ≠ magic
  · rw [if_pos hmagic]
    refine Or.inl ⟨_, rfl, fun k hk => ?_⟩
    rcases hmagic with hlen | hne
    · exact absurd hk.1 (by omega)
    · exact hne hk.2.1
  rw [if_neg hmagic]
  obtain ⟨hlen, htake⟩ := not_or.mp hmagic
  have hclear : Clear buff 0 := ⟨Nat.zero_le _, fun j hj => absurd hj (Nat.not_lt_zero j)⟩
  obtain ⟨t, hscan, hscanned⟩ := scan_cases hclear (Nat.lt_succ_self buff.length)
  rw [hscan, Option.map_some]
  cases hscanned with
  | @found k hfirst hpad =>
    have hk : k + 2 ≤ buff.length := hfirst.1.lt
    refine Or.inr ⟨k, ⟨Nat.not_lt.mp hlen, not_not.mp htake, hfirst, Nat.dvd_of_mod_eq_zero hpad⟩, hk, ?_⟩
    have hctl : slice buff 0 (k + 2 - 1) = some (buff.take (k + 1)) :=
      slice_eq_some (Nat.zero_le _) (by omega)
    have hdata : (if k + 2 < buff.length then slice buff (k + 2) buff.length else some []) =
        some (buff.drop (k + 2)) := by
      split_ifs with hlt
      · exact slice_length hk
      · rw [List.drop_eq_nil_of_le (Nat.not_lt.mp hlt)]
    rw [List.drop_append_of_le_length hk]
    simp only [hctl, hdata]
  | @unpadded k hfirst hpad =>
    refine Or.inl ⟨_, rfl, fun k' hk' => hpad ?_⟩
    rw [hfirst.unique hk'.2.2.1]
    exact Nat.mod_eq_zero_of_dvd hk'.2.2.2
  | bad hnone => exact Or.inl ⟨_, rfl, fun k hk => hnone k hk.2.2.1.1⟩

/-- A header of twelve bytes, and four bytes of sound. -/
example : play "ring" [0x72, 0x61, 0x74, 0x65, 0x20, 0x34, 0x34, 0x31, 0x30, 0x30, 10, 10, 1, 2] [3, 4] =
    some (.played [0x72, 0x61, 0x74, 0x65, 0x20, 0x34, 0x34, 0x31, 0x30, 0x30, 10] [1, 2, 3, 4]) := by
  decide +kernel

end Audio

end Aimsgui
