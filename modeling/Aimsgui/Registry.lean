import Aimsgui.Lib.Run
import Aimsgui.Runes

/-!
# The stream to the registry

`registryproc` writes each message with a newline to the registry, and waits for "ok" before it
takes the next one. It tells `write` the number of characters, but what it writes are bytes: of
a message with a character that takes two or three bytes the end is cut off, and the newline
first. So the registry gets the messages just if all of them are ASCII (`stream_iff`).
-/

namespace Aimsgui

open Rune Transition

/-- The newline. -/
def newline : Rune := 10

/-- Where `registryproc` stands, while the registry does as it should. -/
inductive Registryproc.Phase where
  | receiving
  /-- about to write the message, which ends in a newline -/
  | writing (msg : List Rune)
  | reading
  | checking
  deriving DecidableEq, Repr

/-- `registryproc`, and the bytes that it has written to the registry. -/
structure Registryproc where
  phase : Registryproc.Phase := .receiving
  written : List UInt8 := []
  deriving DecidableEq, Repr

namespace Registryproc

/-- What `registryproc` does. -/
inductive Event where
  /-- a message from `cmsg` -/
  | receive (msg : List Rune)
  /-- the registry takes as much as it is told to -/
  | write
  /-- three bytes are read -/
  | read
  /-- they are "ok" and a newline -/
  | check
  deriving DecidableEq, Repr

/-- `sys->write(fd, buf, n)`, as far as it is taken in full: there is no more than `buf`. -/
def write (buf : List UInt8) (n : Nat) : List UInt8 := buf.take n

/-- A step. -/
def step (r : Registryproc) : Event → Option Registryproc
  | .receive msg =>
    match r.phase with
    | .receiving => some { r with phase := .writing (msg ++ [newline]) }
    | _ => none
  | .write =>
    match r.phase with
    | .writing msg =>
      some { phase := .reading, written := r.written ++ write (bytes msg) msg.length }
    | _ => none
  | .read =>
    match r.phase with
    | .reading => some { r with phase := .checking }
    | _ => none
  | .check =>
    match r.phase with
    | .checking => some { r with phase := .receiving }
    | _ => none

variable {r r' : Registryproc} {e : Event} {es : List Event} {m : List Rune}

/-! ## What is written -/

/-- The message as it should be written. -/
def line (m : List Rune) : List UInt8 := bytes m ++ bytes [newline]

/-- The message as it is written. -/
def cut (m : List Rune) : List UInt8 := write (bytes (m ++ [newline])) (m ++ [newline]).length

/-- The messages received. -/
def received (es : List Event) : List (List Rune) :=
  es.filterMap fun e =>
    match e with
    | .receive msg => some msg
    | _ => none

/-- How often the registry has been written to. -/
def writes (es : List Event) : Nat := es.count .write

/-- How often it has said "ok". -/
def acks (es : List Event) : Nat := es.count .check

/-- The messages that have been written. -/
def sent (es : List Event) : List (List Rune) := (received es).take (writes es)

theorem cut_prefix (m : List Rune) : cut m <+: line m := by
  rw [cut, write, bytes_append]
  exact List.take_prefix _ _

/-- A message is written as it should be just if it is ASCII. -/
theorem cut_eq_iff : cut m = line m ↔ ∀ r ∈ m, r.Ascii := by
  obtain ⟨hle, hiff⟩ := length_bytes (m ++ [newline])
  have hnewline : (∀ r ∈ m ++ [newline], r.Ascii) ↔ ∀ r ∈ m, r.Ascii := by
    rw [List.forall_mem_append, List.forall_mem_singleton]
    exact and_iff_left (by decide)
  rw [← hnewline, ← hiff, cut, write, line, ← bytes_append]
  constructor
  · intro heq
    have hlen := congrArg List.length heq
    rw [List.length_take] at hlen
    omega
  · intro hlen
    exact List.take_of_length_le hlen.le

/-- Lines that are prefixes of what they should be make up the same stream only if they are what
they should be. -/
theorem flatMap_eq_iff {α β : Type} {f g : α → List β} (h : ∀ a, f a <+: g a) (l : List α) :
    l.flatMap f = l.flatMap g ↔ ∀ a ∈ l, f a = g a := by
  constructor
  · have hle : ∀ l : List α, (l.flatMap f).length ≤ (l.flatMap g).length := by
      intro l
      induction l with
      | nil => exact Nat.le_refl 0
      | cons a l ih =>
        rw [List.flatMap_cons, List.flatMap_cons, List.length_append, List.length_append]
        exact Nat.add_le_add (h a).length_le ih
    induction l with
    | nil => exact fun _ _ ha => absurd ha List.not_mem_nil
    | cons a l ih =>
      intro heq
      rw [List.flatMap_cons, List.flatMap_cons] at heq
      -- no line is longer than it should be, so none is shorter
      have hlen : (f a).length = (g a).length := by
        have hsum := congrArg List.length heq
        rw [List.length_append, List.length_append] at hsum
        have hhead := (h a).length_le
        have htail := hle l
        omega
      obtain ⟨ha, hl⟩ := List.append_inj heq hlen
      exact List.forall_mem_cons.mpr ⟨ha, ih hl⟩
  · exact List.flatMap_congr

/-- How far `registryproc` has got with the messages it has received, when it has written
`done`. -/
def Progress (es : List Event) (done : List (List Rune)) : Phase → Prop
  | .receiving => received es = done ∧ acks es = done.length
  | .writing msg => ∃ m, msg = m ++ [newline] ∧ received es = done ++ [m] ∧ acks es = done.length
  | .reading | .checking => received es = done ∧ acks es + 1 = done.length

theorem run_progress (h : Run (StepOf step) {} es r) :
    ∃ done, r.written = done.flatMap cut ∧ writes es = done.length ∧ Progress es done r.phase := by
  induction h with
  | nil => exact ⟨[], rfl, rfl, rfl, rfl⟩
  | @snoc es e r r' _ hstep ih =>
    obtain ⟨done, hwritten, hwrites, hprogress⟩ := ih
    have hreceived' : received (es ++ [e]) = received es ++ received [e] := List.filterMap_append ..
    have hwrites' : writes (es ++ [e]) = writes es + writes [e] := List.count_append ..
    have hacks' : acks (es ++ [e]) = acks es + acks [e] := List.count_append ..
    cases e with
    | receive m =>
      simp only [StepOf, step] at hstep
      split at hstep
      · rename_i hphase
        obtain rfl := Option.some.inj hstep
        rw [hphase] at hprogress
        obtain ⟨hreceived, hacks⟩ := hprogress
        refine ⟨done, hwritten, hwrites'.trans hwrites, m, rfl, ?_, hacks'.trans hacks⟩
        rw [hreceived', hreceived]
        rfl
      · cases hstep
    | write =>
      simp only [StepOf, step] at hstep
      split at hstep
      · rename_i msg hphase
        obtain rfl := Option.some.inj hstep
        rw [hphase] at hprogress
        obtain ⟨m, rfl, hreceived, hacks⟩ := hprogress
        refine ⟨done ++ [m], ?_, ?_, ?_, ?_⟩
        · rw [hwritten, List.flatMap_append, List.flatMap_singleton]
          rfl
        · rw [hwrites', hwrites, List.length_append]
          rfl
        · rw [hreceived', hreceived]
          exact List.append_nil _
        · rw [hacks', hacks, List.length_append]
          rfl
      · cases hstep
    | read =>
      simp only [StepOf, step] at hstep
      split at hstep
      · rename_i hphase
        obtain rfl := Option.some.inj hstep
        rw [hphase] at hprogress
        obtain ⟨hreceived, hacks⟩ := hprogress
        refine ⟨done, hwritten, hwrites'.trans hwrites, ?_, ?_⟩
        · rw [hreceived', hreceived]
          exact List.append_nil _
        · rw [hacks']
          exact hacks
      · cases hstep
    | check =>
      simp only [StepOf, step] at hstep
      split at hstep
      · rename_i hphase
        obtain rfl := Option.some.inj hstep
        rw [hphase] at hprogress
        obtain ⟨hreceived, hacks⟩ := hprogress
        refine ⟨done, hwritten, hwrites'.trans hwrites, ?_, ?_⟩
        · rw [hreceived', hreceived]
          exact List.append_nil _
        · rw [hacks', ← hacks]
          rfl
      · cases hstep

/-- A message is written only when those before it have been acknowledged. -/
theorem writes_le_acks {done : List (List Rune)} (hwrites : writes es = done.length)
    (h : Progress es done r.phase) : writes es ≤ acks es + 1 := by
  rw [Progress.eq_def] at h
  split at h
  · omega
  · obtain ⟨-, -, -, hacks⟩ := h
    omega
  · omega
  · omega

theorem sent_eq {done : List (List Rune)} (hwrites : writes es = done.length)
    (h : Progress es done r.phase) : sent es = done := by
  rw [sent, hwrites]
  rw [Progress.eq_def] at h
  split at h
  · rw [h.1, List.take_length]
  · obtain ⟨m, -, hreceived, -⟩ := h
    rw [hreceived, List.take_left]
  · rw [h.1, List.take_length]
  · rw [h.1, List.take_length]

/-- In every run, as long as the registry takes what it is given and says "ok": the bytes written
are those of the messages, each with a newline, just if all of these are ASCII; and no message
is written before the one before it has been acknowledged. The bytes of a message are its
encoding in UTF-8. -/
theorem stream_iff (h : Run (StepOf step) {} es r) :
    (r.written = (sent es).flatMap line ↔ ∀ m ∈ sent es, ∀ c ∈ m, c.Ascii) ∧
      writes es ≤ acks es + 1 ∧ (r.phase = .receiving → sent es = received es) ∧
      ∀ text hbmp, bytes (ofText text hbmp) = text.flatMap String.utf8EncodeChar := by
  obtain ⟨done, hwritten, hwrites, hprogress⟩ := run_progress h
  have hsent := sent_eq hwrites hprogress
  refine ⟨?_, writes_le_acks hwrites hprogress, ?_, bytes_ofText⟩
  · rw [hsent, hwritten, flatMap_eq_iff cut_prefix]
    exact forall₂_congr fun m _ => cut_eq_iff
  · intro hphase
    rw [hphase] at hprogress
    rw [hsent]
    exact hprogress.1.symm

/-- The status "off". -/
def off : List Rune := ofText ['o', 'f', 'f'] (by simp)

/-- It is ASCII, and so is the newline. -/
theorem stream_off : ∃ r, Run (StepOf step) {} [.receive off, .write, .read, .check] r ∧
    r.written = line off := by
  obtain ⟨r, hrun, -⟩ : ∃ r, Run (StepOf step) {} [.receive off, .write, .read, .check] r ∧
      r.phase = .receiving :=
    Run.exists_of_exec (by decide +kernel)
  refine ⟨r, hrun, (stream_iff hrun).1.mpr fun m hm => ?_⟩
  obtain rfl := List.mem_singleton.mp hm
  exact (length_bytes off).2.mp (by decide +kernel)

/-- A message with a player's name. -/
def user : List Rune := ofText ['u', 's', 'e', 'r', ' ', 'Z', 'o', 'é'] (by simp)

/-- It takes a byte more than it has characters, and the newline behind it is missing. -/
theorem stream_cut : ∃ r,
    Run (StepOf step) {} [.receive user, .write, .read, .check, .receive off, .write] r ∧
      r.written = bytes user ++ line off ∧ r.written ≠ line user ++ line off :=
  Run.exists_of_exec (by decide +kernel)

end Registryproc

end Aimsgui
