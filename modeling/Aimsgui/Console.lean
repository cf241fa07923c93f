import Mathlib.Data.List.Induction
import Mathlib.Algebra.Order.Ring.Int
import Aimsgui.Lib.Lines

/-!
# The console transcript

`conout` appends what is written to `/chan/wmstdout` and `/chan/wmstderr` to the transcript and
counts the newlines. When there are more than `MAXCONSOLELINES` of them, it deletes the text
before line `nlines / 4` and subtracts `nlines / 4` from the count. Lines are numbered from 1,
so the text before a line has one newline less than the number says: each such cut leaves one
newline in the transcript that is not counted any more (`newlines_eq`). A newline behind a NUL,
where the text ends for Tk, is counted all the same. The count is right just as long as the one
makes up for the other (`counted_iff`). The count stays bounded (`nlines_le`), the transcript does
not (`transcript_unbounded`).
-/

namespace Aimsgui

namespace Toolbar

/-- How many lines the console keeps. -/
def MAXCONSOLELINES : Nat := 1024

/-- The contents of `.cons.t` and the count of its lines. -/
structure Console where
  text : List Char := []
  nlines : Nat := 0
  deriving DecidableEq, Repr

/-- The newlines in a text. -/
def newlines (text : List Char) : Nat := text.count '\n'

/-- `delete 1.0 n.0` -/
def delete (text : List Char) (n : Nat) : List Char := Lines.drop '\n' (n - 1) text

/-- `insert end`, where `tk->cmd` takes a C string, which ends at the first NUL. -/
def insert (text data : List Char) : List Char := text ++ data.takeWhile (· ≠ '\x00')

/-- What is written is text; `wc` says whether somebody waits for the answer. -/
def conout (s : Console) (data : List Char) (wc : Bool) : Console :=
  if !wc then s
  else
    let text := insert s.text data
    let nlines := s.nlines + newlines data
    if MAXCONSOLELINES < nlines then ⟨delete text (nlines / 4), nlines - nlines / 4⟩
    else ⟨text, nlines⟩

/-- A write to one of the two files. -/
inductive Write where
  | wmstdout (data : List Char) (wc : Bool)
  | wmstderr (data : List Char) (wc : Bool)
  deriving DecidableEq, Repr

namespace Write

/-- The text that is written. -/
def data : Write → List Char
  | wmstdout data _ => data
  | wmstderr data _ => data

/-- Whether somebody waits for the answer. -/
def wc : Write → Bool
  | wmstdout _ wc => wc
  | wmstderr _ wc => wc

/-- The newlines that are counted upon a write. -/
def lines (w : Write) : Nat := if w.wc then newlines w.data else 0

/-- Those of them that Tk does not see, because there is a NUL before them. -/
def unseen (w : Write) : Nat := if w.wc then newlines (w.data.dropWhile (· ≠ '\x00')) else 0

end Write

namespace Console

/-- The write cases of the loop in `consoleproc`, with what is asked of the window manager. -/
def consoleproc (s : Console) : Write → Console × List String
  | .wmstdout data wc => (conout s data wc, [])
  | .wmstderr data wc => (conout s data wc, if wc then ["untask"] else [])

/-- One write after the other. -/
def after (s : Console) : List Write → Console
  | [] => s
  | w :: ws => after (s.consoleproc w).1 ws

/-- The newlines of all writes. -/
def total (ws : List Write) : Nat := (ws.map Write.lines).sum

/-- The write finds or makes the transcript too long. -/
def Overflows (s : Console) (w : Write) : Prop :=
  w.wc = true ∧ MAXCONSOLELINES < s.nlines + w.lines

instance (s : Console) (w : Write) : Decidable (s.Overflows w) :=
  inferInstanceAs (Decidable (_ ∧ _))

/-- A write brings as many newlines that Tk does not see as a cut leaves uncounted: one, if the
transcript is cut, and otherwise none. -/
def Even (s : Console) (w : Write) : Prop := w.unseen = if s.Overflows w then 1 else 0

instance (s : Console) (w : Write) : Decidable (s.Even w) := inferInstanceAs (Decidable (_ = _))

/-- All writes do so. -/
def AllEven (s : Console) : List Write → Prop
  | [] => True
  | w :: ws => s.Even w ∧ AllEven (s.consoleproc w).1 ws

instance allEvenDecidable (s : Console) : ∀ ws, Decidable (s.AllEven ws)
  | [] => inferInstanceAs (Decidable True)
  | w :: ws => @instDecidableAnd _ _ inferInstance (allEvenDecidable (s.consoleproc w).1 ws)

/-- How often the transcript is cut. -/
def cuts (s : Console) : List Write → Nat
  | [] => 0
  | w :: ws => (if s.Overflows w then 1 else 0) + cuts (s.consoleproc w).1 ws

variable {s : Console} {w : Write} {ws ws' : List Write} {d n : Nat}

theorem consoleproc_fst : (s.consoleproc w).1 = conout s w.data w.wc := by
  cases w <;> rfl

theorem newlines_delete {text : List Char} : newlines (delete text n) = newlines text - (n - 1) :=
  Lines.count_drop

/-- What one write does. -/
theorem consoleproc_eq : (s.consoleproc w).1 =
    if s.Overflows w then
      ⟨delete (insert s.text w.data) ((s.nlines + w.lines) / 4),
        s.nlines + w.lines - (s.nlines + w.lines) / 4⟩
    else if w.wc then ⟨insert s.text w.data, s.nlines + w.lines⟩
    else s := by
  rw [consoleproc_fst, conout]
  by_cases hwc : w.wc = true
  · have hlines : w.lines = newlines w.data := if_pos hwc
    have hover : s.Overflows w ↔ MAXCONSOLELINES < s.nlines + newlines w.data :=
      hlines ▸ and_iff_right hwc
    simp only [hwc, hlines, hover, Bool.not_true, Bool.false_eq_true, if_false, if_true]
  · have hover : ¬ s.Overflows w := fun h => hwc h.1
    rw [if_neg hover, if_neg hwc, eq_false_of_ne_true hwc]
    rfl

theorem lines_eq_zero (h : ¬ w.wc = true) : w.lines = 0 := if_neg h

theorem unseen_eq_zero (h : ¬ w.wc = true) : w.unseen = 0 := if_neg h

/-- What is counted is what Tk sees, and what it does not. -/
theorem newlines_insert (h : w.wc = true) :
    newlines (insert s.text w.data) + w.unseen = newlines s.text + w.lines := by
  have hsplit : newlines (w.data.takeWhile (· ≠ '\x00')) +
      newlines (w.data.dropWhile (· ≠ '\x00')) = newlines w.data := by
    rw [newlines, newlines, ← List.count_append, List.takeWhile_append_dropWhile, newlines]
  have hinsert : newlines (insert s.text w.data) =
      newlines s.text + newlines (w.data.takeWhile (· ≠ '\x00')) := List.count_append
  rw [Write.lines, Write.unseen, if_pos h, if_pos h, hinsert, Nat.add_assoc, hsplit]

theorem nlines_consoleproc : (s.consoleproc w).1.nlines =
    if s.Overflows w then s.nlines + w.lines - (s.nlines + w.lines) / 4
    else s.nlines + w.lines := by
  rw [consoleproc_eq]
  split_ifs with hover hwc
  · rfl
  · rfl
  · rw [lines_eq_zero hwc, Nat.add_zero]

theorem newlines_consoleproc : newlines (s.consoleproc w).1.text =
    if s.Overflows w then newlines s.text + w.lines - w.unseen - ((s.nlines + w.lines) / 4 - 1)
    else newlines s.text + w.lines - w.unseen := by
  rw [consoleproc_eq]
  split_ifs with hover hwc
  · rw [newlines_delete, ← newlines_insert hover.1, Nat.add_sub_cancel]
  · rw [← newlines_insert hwc, Nat.add_sub_cancel]
  · rw [lines_eq_zero hwc, unseen_eq_zero hwc, Nat.add_zero, Nat.sub_zero]

theorem unseen_le : w.unseen ≤ w.lines := by
  by_cases hwc : w.wc = true
  · have hsplit := newlines_insert (s := {}) hwc
    have hempty : newlines ({} : Console).text = 0 := rfl
    omega
  · rw [unseen_eq_zero hwc]
    exact Nat.zero_le _

/-- The count stays right just if what Tk does not see makes up for what is left uncounted. -/
theorem counted_step (h : newlines s.text = s.nlines) :
    newlines (s.consoleproc w).1.text = (s.consoleproc w).1.nlines ↔ s.Even w := by
  have hle := unseen_le (w := w)
  rw [newlines_consoleproc, nlines_consoleproc, Even, h]
  split_ifs with hover
  · have hmany : 1024 < s.nlines + w.lines := hover.2
    omega
  · omega

/-- The count is right after every write just if all writes are even. -/
theorem counted_after (h : newlines s.text = s.nlines) :
    (∀ us, us <+: ws → newlines (s.after us).text = (s.after us).nlines) ↔ s.AllEven ws := by
  induction ws generalizing s with
  | nil =>
    refine iff_of_true (fun us hus => ?_) trivial
    rw [List.prefix_nil.mp hus]
    exact h
  | cons w ws ih =>
    rw [AllEven]
    constructor
    · intro hall
      have hone := hall [w] (List.cons_prefix_cons.mpr ⟨rfl, List.nil_prefix⟩)
      refine ⟨(counted_step h).mp hone, (ih hone).mp fun us hus => ?_⟩
      exact hall (w :: us) (List.cons_prefix_cons.mpr ⟨rfl, hus⟩)
    · rintro ⟨heven, hall⟩ us hus
      cases us with
      | nil => exact h
      | cons u us =>
        obtain ⟨rfl, hrest⟩ := List.cons_prefix_cons.mp hus
        exact (ih ((counted_step h).mpr heven)).mpr hall us hrest

/-- Each cut deletes one newline less than it subtracts. -/
theorem newlines_step (hw : w.unseen = 0) (h : newlines s.text = s.nlines + d) :
    newlines (s.consoleproc w).1.text =
      (s.consoleproc w).1.nlines + (d + if s.Overflows w then 1 else 0) := by
  rw [newlines_consoleproc, nlines_consoleproc, h, hw]
  split_ifs with hover
  · -- there is a line to cut, so the subtraction of 1 is one
    have hmany : 1024 < s.nlines + w.lines := hover.2
    omega
  · omega

theorem newlines_after (hws : ∀ w ∈ ws, w.unseen = 0) (h : newlines s.text = s.nlines + d) :
    newlines (s.after ws).text = (s.after ws).nlines + (d + s.cuts ws) := by
  induction ws generalizing s d with
  | nil => exact h
  | cons w ws ih =>
    obtain ⟨hw, hws⟩ := List.forall_mem_cons.mp hws
    rw [after, cuts, ih hws (newlines_step hw h), Nat.add_assoc d]

/-- Without NULs, the newlines that are not counted any more are as many as there were cuts. -/
theorem newlines_eq (h : ∀ w ∈ ws, w.unseen = 0) :
    newlines (after {} ws).text = (after {} ws).nlines + cuts {} ws := by
  have hempty : newlines ({} : Console).text = ({} : Console).nlines + 0 := rfl
  rw [newlines_after h hempty, Nat.zero_add]

/-! ## When the transcript is cut -/

theorem total_cons : total (w :: ws) = w.lines + total ws := rfl

theorem total_replicate : total (List.replicate n w) = n * w.lines := by
  rw [total, List.map_replicate, List.sum_replicate_nat]

/-- Nothing is cut just as long as there is not too much in all. -/
theorem cuts_eq_zero_iff (hs : s.nlines ≤ MAXCONSOLELINES) :
    s.cuts ws = 0 ↔ s.nlines + total ws ≤ MAXCONSOLELINES := by
  induction ws generalizing s with
  | nil => exact iff_of_true rfl hs
  | cons w ws ih =>
    rw [cuts, total_cons, ← Nat.add_assoc]
    by_cases hover : s.Overflows w
    · rw [if_pos hover]
      have hmany := hover.2
      constructor
      · intro h
        omega
      · intro h
        omega
    · have hfew : s.nlines + w.lines ≤ MAXCONSOLELINES := by
        by_contra hmany
        -- a write that brings newlines is answered
        have hwc : w.wc = true := by
          by_contra hwc
          rw [lines_eq_zero hwc] at hmany
          exact hmany hs
        exact hover ⟨hwc, Nat.lt_of_not_le hmany⟩
      have hnlines : (s.consoleproc w).1.nlines = s.nlines + w.lines := by
        rw [nlines_consoleproc, if_neg hover]
      rw [if_neg hover, Nat.zero_add, ih (hnlines ▸ hfew), hnlines]

/-- Without NULs, all writes are even just as long as there are not too many newlines in all. -/
theorem allEven_iff (hws : ∀ w ∈ ws, w.unseen = 0) (hs : s.nlines ≤ MAXCONSOLELINES) :
    s.AllEven ws ↔ s.nlines + total ws ≤ MAXCONSOLELINES := by
  rw [← cuts_eq_zero_iff hs]
  clear hs
  induction ws generalizing s with
  | nil => exact iff_of_true trivial rfl
  | cons w ws ih =>
    obtain ⟨hw, hws⟩ := List.forall_mem_cons.mp hws
    rw [AllEven, Even, hw, ih hws, cuts, Nat.add_eq_zero_iff, eq_comm]

theorem cuts_append : s.cuts (ws ++ ws') = s.cuts ws + (s.after ws).cuts ws' := by
  induction ws generalizing s with
  | nil => exact (Nat.zero_add _).symm
  | cons w ws ih => rw [List.cons_append, cuts, cuts, ih, ← Nat.add_assoc, after]

/-! ## Bounds -/

/-- What is left of a count up to `b` after a write and a cut is no more than `b`. -/
theorem nlines_le {b : Nat} (hb : MAXCONSOLELINES ≤ b) (hn : 3 * n + 3 ≤ b) (hs : s.nlines ≤ b)
    (h : ∀ w ∈ ws, w.lines ≤ n) : (s.after ws).nlines ≤ b := by
  induction ws generalizing s with
  | nil => exact hs
  | cons w ws ih =>
    obtain ⟨hw, hws⟩ := List.forall_mem_cons.mp h
    refine ih ?_ hws
    rw [nlines_consoleproc]
    split_ifs with hover
    · omega
    · by_cases hwc : w.wc = true
      · have hfew : ¬ MAXCONSOLELINES < s.nlines + w.lines := fun h => hover ⟨hwc, h⟩
        omega
      · rw [lines_eq_zero hwc]
        exact hs

/-- The writes that are counted right, and what the transcript then is bounded by. -/
theorem counted_iff (ws : List Write) :
    (∀ us, us <+: ws →
      newlines (after {} us).text = (after {} us).nlines ∧
        ∀ n, (∀ w ∈ ws, w.lines ≤ n) →
          newlines (after {} us).text ≤ MAXCONSOLELINES + 3 * n) ↔
      AllEven {} ws := by
  rw [← counted_after rfl]
  refine ⟨fun h us hus => (h us hus).1, ?_⟩
  rintro h us hus
  refine ⟨h us hus, fun n hn => ?_⟩
  have hbound : 3 * n + 3 ≤ MAXCONSOLELINES + 3 * n := by
    rw [MAXCONSOLELINES]
    omega
  rw [h us hus]
  exact nlines_le (Nat.le_add_right _ _) hbound (Nat.zero_le _) fun w hw => hn w (hus.subset hw)

/-- Two writes, of which the second has a NUL, but no newline behind it. -/
example : AllEven {} [.wmstdout ['a', '\n'] true, .wmstderr ['b', '\n', '\x00', 'c'] true] := by
  decide

/-- One line too many, and the count is one short. -/
theorem miscounted :
    (after {} [.wmstdout (List.replicate 1025 '\n') true]).nlines = 769 ∧
      newlines (after {} [.wmstdout (List.replicate 1025 '\n') true]).text = 770 := by
  decide +kernel

/-- An empty line at a time, the transcript gets as long as one likes. -/
theorem transcript_unbounded (n : Nat) :
    ∃ m, n ≤ newlines (after {} (List.replicate m (.wmstdout ['\n'] true))).text := by
  let w : Write := .wmstdout ['\n'] true
  suffices hcuts : ∃ m, n ≤ cuts {} (List.replicate m w) by
    obtain ⟨m, hm⟩ := hcuts
    have hall : ∀ v ∈ List.replicate m w, v.unseen = 0 := fun v hv =>
      (List.eq_of_mem_replicate hv).symm ▸ rfl
    exact ⟨m, newlines_eq hall ▸ Nat.le_trans hm (Nat.le_add_left _ _)⟩
  induction n with
  | zero => exact ⟨0, Nat.zero_le _⟩
  | succ n ih =>
    obtain ⟨m, hm⟩ := ih
    -- wherever the count stands, this many more lines are too many
    have hone : ∀ v ∈ List.replicate m w, v.lines ≤ 1 := fun v hv =>
      (List.eq_of_mem_replicate hv).symm ▸ Nat.le_refl 1
    have hs : (after {} (List.replicate m w)).nlines ≤ MAXCONSOLELINES :=
      nlines_le (Nat.le_refl _) (by decide) (Nat.zero_le _) hone
    have hcut : cuts (after {} (List.replicate m w))
        (List.replicate (MAXCONSOLELINES + 1) w) ≠ 0 := by
      have hw : w.lines = 1 := rfl
      rw [Ne, cuts_eq_zero_iff hs, total_replicate, hw]
      omega
    refine ⟨m + (MAXCONSOLELINES + 1), ?_⟩
    rw [← List.replicate_append_replicate, cuts_append]
    omega

end Console

end Toolbar

end Aimsgui
