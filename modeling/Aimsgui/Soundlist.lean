import Mathlib.Data.List.Perm.Basic
import Aimsgui.Lib.Run

/-!
# The sound daemon

Three processes play what is written to `/chan/sound`. `filesrvproc` takes the writes and
passes each on to `soundlistproc`, which keeps the sounds until `playerproc` asks for one, on
a channel of its own for every sound. A player that finds no sound waits as the `drainer`, and
gets the next one directly. All channels are unbuffered, so a sound changes hands in one step
of two processes.

Every sound that `soundlistproc` accepts is handed over once or is still pending. The list
gives the sounds back last in, first out, so that they come in order only as long as the
player never finds more than one in it (`sounds_kept`).
-/

namespace Aimsgui

open Transition

open scoped List

namespace Sounddaemon

/-- A channel that `playerproc` has made, by its number. -/
abbrev Chan := Nat

/-- Where `filesrvproc` stands. -/
inductive Filesrv where
  /-- in the `alt` -/
  | serve
  /-- in `csoundlistadd <-= string d` -/
  | add (s : String)
  deriving DecidableEq, Repr

/-- Where `playerproc` stands. -/
inductive Player where
  /-- in `csoundlistnext <-= c` -/
  | ask (c : Chan)
  /-- in `s := <-c` -/
  | wait (c : Chan)
  /-- in `sp->play(s)` -/
  | play (s : String)
  deriving DecidableEq, Repr

/-- Where `soundlistproc` stands. -/
inductive Listpc where
  /-- in the `alt` -/
  | serve
  /-- in `drainer <-= s` -/
  | drain (s : String)
  /-- in `c <-= hd soundlist` -/
  | give (c : Chan)
  deriving DecidableEq, Repr

end Sounddaemon

open Sounddaemon

/-- The three processes and the variables of `soundlistproc`; a nil string is the empty one. -/
structure Sounddaemon where
  filesrv : Filesrv := .serve
  player : Player := .ask 0
  /-- the channels made so far -/
  chans : Nat := 1
  pc : Listpc := .serve
  soundlist : List String := []
  lastadded : String := ""
  drainer : Option Chan := none
  deriving DecidableEq, Repr

namespace Sounddaemon

/-- A step of the processes. -/
inductive Act where
  /-- somebody reads the file, and is refused -/
  | read
  /-- somebody writes `s` to the file -/
  | write (s : String)
  /-- somebody closes the file -/
  | close
  /-- `soundlistproc` receives `s`, and accepts it or not -/
  | add (s : String) (accepted : Bool)
  /-- `soundlistproc` receives the player's channel -/
  | next (c : Chan)
  /-- `soundlistproc` hands `s` to the player -/
  | hand (s : String)
  /-- the player has played its sound and makes a new channel -/
  | played
  deriving DecidableEq, Repr

/-- The sound that is accepted. -/
def Act.accepted : Act → List String
  | .add s true => [s]
  | _ => []

/-- The sound that is handed to the player. -/
def Act.handed : Act → List String
  | .hand s => [s]
  | _ => []

/-- `s := <-csoundlistadd`, up to the hand-over to a drainer. -/
def received (m : Sounddaemon) (s : String) : Sounddaemon :=
  if s ≠ m.lastadded then
    match m.drainer with
    | some _ => { m with pc := .drain s }
    | none => { m with soundlist := s :: m.soundlist, lastadded := s }
  else m

/-- `c := <-csoundlistnext`, up to the hand-over of the head. -/
def asked (m : Sounddaemon) (c : Chan) : Sounddaemon :=
  match m.soundlist with
  | _ :: _ => { m with pc := .give c }
  | [] => { m with drainer := some c, lastadded := "" }

/-- The channel that `soundlistproc` sends on, the sound, and its variables afterwards. -/
def handing (m : Sounddaemon) : Option (Chan × String × Sounddaemon) :=
  match m.pc, m.drainer, m.soundlist with
  | .drain s, some c, _ => some (c, s, { m with pc := .serve, drainer := none, lastadded := s })
  | .give c, _, s :: soundlist => some (c, s, { m with pc := .serve, soundlist := soundlist })
  | _, _, _ => none

/-- A step of the file server or of the daemon. -/
def step (m : Sounddaemon) : Act → Option Sounddaemon
  | .read | .close => if m.filesrv = .serve then some m else none
  | .write s => if m.filesrv = .serve then some { m with filesrv := .add s } else none
  | .add s accepted =>
    if m.filesrv = .add s ∧ m.pc = .serve ∧ accepted = decide (s ≠ m.lastadded) then
      some { m.received s with filesrv := .serve }
    else none
  | .next c =>
    if m.player = .ask c ∧ m.pc = .serve then some { m.asked c with player := .wait c } else none
  | .hand s =>
    match m.handing with
    | some (c, s', m') =>
      if m.player = .wait c ∧ s' = s then some { m' with player := .play s } else none
    | none => none
  | .played =>
    match m.player with
    | .play _ => some { m with player := .ask m.chans, chans := m.chans + 1 }
    | _ => none

/-- The sounds that were accepted and not handed over, in the order in which they will be. -/
def pending (m : Sounddaemon) : List String :=
  match m.pc with
  | .drain s => s :: m.soundlist
  | _ => m.soundlist

/-- The player finds at most one sound in the list. -/
def Short (m : Sounddaemon) (a : Act) : Prop := ∀ c, a = .next c → m.soundlist.length ≤ 1

instance (m : Sounddaemon) (a : Act) : Decidable (m.Short a) :=
  match a with
  | .next c => decidable_of_iff (m.soundlist.length ≤ 1)
      ⟨fun h _ _ => h, fun h => h c rfl⟩
  | .read | .write _ | .close | .add _ _ | .hand _ | .played =>
    isTrue fun _ h => Act.noConfusion h

variable {m m' : Sounddaemon} {a : Act} {as : List Act} {s : String} {c : Chan}

/-! ## What a step can do -/

theorem step_add {accepted : Bool} (h : m.step (.add s accepted) = some m') :
    m.pc = .serve ∧ accepted = decide (s ≠ m.lastadded) ∧
      m' = { m.received s with filesrv := .serve } := by
  simp only [step] at h
  split_ifs at h with hadd
  exact ⟨hadd.2.1, hadd.2.2, (Option.some.inj h).symm⟩

theorem step_next (h : m.step (.next c) = some m') :
    m.player = .ask c ∧ m.pc = .serve ∧ m' = { m.asked c with player := .wait c } := by
  simp only [step] at h
  split_ifs at h with hnext
  exact ⟨hnext.1, hnext.2, (Option.some.inj h).symm⟩

/-- A sound is handed to a drainer, or it is the head of the list. -/
theorem step_hand (h : m.step (.hand s) = some m') :
    (m.pc = .drain s ∧
      m' = { m with pc := .serve, drainer := none, lastadded := s, player := .play s }) ∨
    (∃ c soundlist, m.pc = .give c ∧ m.soundlist = s :: soundlist ∧
      m' = { m with pc := .serve, soundlist := soundlist, player := .play s }) := by
  simp only [step] at h
  cases hhanding : m.handing with
  | none =>
    rw [hhanding] at h
    cases h
  | some x =>
    obtain ⟨c, s', m₁⟩ := x
    simp only [hhanding] at h
    split_ifs at h with hwait
    obtain ⟨-, rfl⟩ := hwait
    obtain rfl := Option.some.inj h
    simp only [handing] at hhanding
    split at hhanding
    · rename_i hpc _
      simp only [Option.some.injEq, Prod.mk.injEq] at hhanding
      obtain ⟨-, rfl, rfl⟩ := hhanding
      exact Or.inl ⟨hpc, rfl⟩
    · rename_i hpc hlist
      simp only [Option.some.injEq, Prod.mk.injEq] at hhanding
      obtain ⟨-, rfl, rfl⟩ := hhanding
      exact Or.inr ⟨_, _, hpc, hlist, rfl⟩
    · cases hhanding

/-- The other steps are not about `soundlistproc`. -/
theorem step_other (hadd : ∀ s b, a ≠ .add s b) (hnext : ∀ c, a ≠ .next c)
    (hhand : ∀ s, a ≠ .hand s) (h : m.step a = some m') :
    m'.pc = m.pc ∧ m'.soundlist = m.soundlist ∧ m'.drainer = m.drainer := by
  cases a with
  | add s b => exact absurd rfl (hadd s b)
  | next c => exact absurd rfl (hnext c)
  | hand s => exact absurd rfl (hhand s)
  | read | close | write s =>
    simp only [step] at h
    split_ifs at h
    obtain rfl := Option.some.inj h
    exact ⟨rfl, rfl, rfl⟩
  | played =>
    simp only [step] at h
    split at h
    · obtain rfl := Option.some.inj h
      exact ⟨rfl, rfl, rfl⟩
    · cases h

theorem pending_serve (h : m.pc = .serve) : m.pending = m.soundlist := by rw [pending, h]

/-- A sound is refused, is on its way to the drainer, or joins the list. -/
theorem received_cases (m : Sounddaemon) (s : String) :
    m.received s = m ∨ (∃ c, m.drainer = some c ∧ m.received s = { m with pc := .drain s }) ∨
      m.drainer = none ∧
        m.received s = { m with soundlist := s :: m.soundlist, lastadded := s } := by
  rw [received]
  split_ifs
  · cases hdrainer : m.drainer with
    | some c => exact Or.inr (Or.inl ⟨c, rfl, rfl⟩)
    | none => exact Or.inr (Or.inr ⟨rfl, rfl⟩)
  · exact Or.inl rfl

/-- The player gets the head of the list, or waits. -/
theorem asked_cases (m : Sounddaemon) (c : Chan) :
    (m.soundlist ≠ [] ∧ m.asked c = { m with pc := .give c }) ∨
      m.soundlist = [] ∧ m.asked c = { m with drainer := some c, lastadded := "" } := by
  rw [asked]
  cases hlist : m.soundlist with
  | cons s soundlist => exact Or.inl ⟨List.cons_ne_nil _ _, rfl⟩
  | nil => exact Or.inr ⟨rfl, rfl⟩

/-- An accepted sound is pending before all others. -/
theorem received_pending (h : m.pc = .serve) :
    (m.received s).pending = if s ≠ m.lastadded then s :: m.pending else m.pending := by
  rw [pending_serve h, received]
  split
  · split
    · rfl
    · rw [pending, h]
  · exact pending_serve h

/-- What is handed over is the first of the pending sounds. -/
theorem step_pending (h : m.step a = some m') :
    a.handed ++ m'.pending = a.accepted ++ m.pending := by
  cases a with
  | add s accepted =>
    obtain ⟨hpc, rfl, rfl⟩ := step_add h
    refine (received_pending hpc).trans ?_
    by_cases hnew : s = m.lastadded
    · simp [Act.accepted, hnew]
    · simp [Act.accepted, hnew]
  | next c =>
    obtain ⟨-, hpc, rfl⟩ := step_next h
    refine Eq.trans ?_ (pending_serve hpc).symm
    change (m.asked c).pending = m.soundlist
    obtain ⟨-, hasked⟩ | ⟨-, hasked⟩ := asked_cases m c
    · rw [hasked, pending]
    · rw [hasked]
      exact pending_serve hpc
  | hand s =>
    obtain ⟨hpc, rfl⟩ | ⟨c, soundlist, hpc, hlist, rfl⟩ := step_hand h
    · simp only [pending, hpc]
      rfl
    · simp only [pending, hpc, hlist]
      rfl
  | read | close | write s | played =>
    obtain ⟨hpc, hlist, -⟩ := step_other (by simp) (by simp) (by simp) h
    rw [pending, pending, hpc, hlist]
    rfl

/-! ## Nothing is lost -/

/-- Every sound that was accepted has been handed over once or is pending. -/
theorem run_perm (h : Run (StepOf step) {} as m) :
    (as.flatMap Act.handed ++ m.pending).Perm (as.flatMap Act.accepted) := by
  refine h.traced (J := fun as m =>
    (as.flatMap Act.handed ++ m.pending).Perm (as.flatMap Act.accepted)) (List.Perm.refl _) ?_
  intro as m a m' hperm hstep
  rw [List.flatMap_append, List.flatMap_append, List.flatMap_singleton, List.flatMap_singleton,
    List.append_assoc, step_pending hstep]
  calc as.flatMap Act.handed ++ (a.accepted ++ m.pending)
    _ ~ as.flatMap Act.handed ++ (m.pending ++ a.accepted) :=
      List.Perm.append_left _ List.perm_append_comm
    _ ~ as.flatMap Act.accepted ++ a.accepted := by
      rw [← List.append_assoc]
      exact hperm.append_right _

/-! ## The order -/

/-- The sounds come in order as long as no other is pending when one is handed over. -/
structure InOrder (as : List Act) (m : Sounddaemon) : Prop where
  order : as.flatMap Act.accepted = as.flatMap Act.handed ++ m.pending.reverse
  /-- a player that waits has found the list empty -/
  drainer : m.drainer.isSome → m.soundlist = []
  drain : ∀ s, m.pc = .drain s → m.drainer.isSome
  give : ∀ c, m.pc = .give c → m.soundlist.length ≤ 1

theorem start_inOrder : InOrder [] {} where
  order := rfl
  drainer h := absurd h (by decide)
  drain _ h := Listpc.noConfusion h
  give _ h := Listpc.noConfusion h

/-- At most one sound is pending while `soundlistproc` hands one over. -/
theorem InOrder.hand (h : InOrder as m) (hhand : m.step (.hand s) = some m') : m.pending = [s] := by
  obtain ⟨hpc, -⟩ | ⟨c, soundlist, hpc, hlist, -⟩ := step_hand hhand
  · rw [pending, hpc, h.drainer (h.drain s hpc)]
  · have hlength := h.give c hpc
    rw [hlist, List.length_cons] at hlength
    obtain rfl : soundlist = [] := List.length_eq_zero_iff.mp (by omega)
    rw [pending, hpc, hlist]

theorem accepted_reverse (a : Act) : a.accepted.reverse = a.accepted := by
  unfold Act.accepted
  split <;> rfl

theorem step_order (h : InOrder as m) (hstep : m.step a = some m') :
    (as ++ [a]).flatMap Act.accepted = (as ++ [a]).flatMap Act.handed ++ m'.pending.reverse := by
  rw [List.flatMap_append, List.flatMap_append, List.flatMap_singleton, List.flatMap_singleton,
    h.order]
  have hpending := step_pending hstep
  cases a with
  | hand s =>
    rw [h.hand hstep] at hpending ⊢
    have hnone : m'.pending = [] := (List.cons.inj hpending).2
    rw [hnone]
    simp [Act.accepted, Act.handed]
  | add s accepted =>
    have hnew : m'.pending = (Act.add s accepted).accepted ++ m.pending := hpending
    rw [hnew, List.reverse_append, accepted_reverse]
    simp [Act.handed]
  | next c | read | close | write s | played =>
    have hsame : m'.pending = m.pending := hpending
    rw [hsame]
    simp [Act.accepted, Act.handed]

/-- A step that finds the list short keeps the order. -/
theorem step_inOrder (h : InOrder as m) (hshort : m.Short a) (hstep : m.step a = some m') :
    InOrder (as ++ [a]) m' := by
  have horder := step_order h hstep
  cases a with
  | add s accepted =>
    obtain ⟨hpc, -, rfl⟩ := step_add hstep
    obtain hsame | ⟨c, hdrainer, hnew⟩ | ⟨hdrainer, hnew⟩ := received_cases m s
    · rw [hsame] at horder ⊢
      exact ⟨horder, h.drainer, h.drain, h.give⟩
    · rw [hnew] at horder ⊢
      refine ⟨horder, h.drainer, ?_, fun _ hgive => Listpc.noConfusion hgive⟩
      dsimp only
      rw [hdrainer]
      exact fun _ _ => rfl
    · rw [hnew] at horder ⊢
      refine ⟨horder, ?_, h.drain, ?_⟩
      · dsimp only
        rw [hdrainer]
        exact fun hsome => absurd hsome (by decide)
      · dsimp only
        rw [hpc]
        exact fun _ hgive => Listpc.noConfusion hgive
  | next c =>
    obtain ⟨-, hpc, rfl⟩ := step_next hstep
    obtain ⟨hlist, hnew⟩ | ⟨hlist, hnew⟩ := asked_cases m c
    · rw [hnew] at horder ⊢
      exact ⟨horder, h.drainer, fun _ hdrain => Listpc.noConfusion hdrain,
        fun _ _ => hshort c rfl⟩
    · rw [hnew] at horder ⊢
      refine ⟨horder, fun _ => hlist, ?_, ?_⟩
      · exact fun _ _ => rfl
      · dsimp only
        rw [hpc]
        exact fun _ hgive => Listpc.noConfusion hgive
  | hand s =>
    obtain ⟨hpc, rfl⟩ | ⟨c, soundlist, hpc, hlist, rfl⟩ := step_hand hstep
    · exact ⟨horder, by simp, by simp, by simp⟩
    · refine ⟨horder, ?_, by simp, by simp⟩
      intro hdrainer
      have hnil := h.drainer hdrainer
      rw [hlist] at hnil
      cases hnil
  | read | close | write s | played =>
    obtain ⟨hpc, hlist, hdrainer⟩ := step_other (by simp) (by simp) (by simp) hstep
    refine ⟨horder, ?_, ?_, ?_⟩
    · rw [hdrainer, hlist]
      exact h.drainer
    · intro s
      rw [hpc, hdrainer]
      exact h.drain s
    · intro c
      rw [hpc, hlist]
      exact h.give c

/-- However writes and the player's requests follow one another, every accepted sound has been
handed to the player once or is pending. As long as the player never finds more than one sound
in the list, it gets the sounds in the order in which they were accepted, and the ones that are
pending are those that were accepted last. -/
theorem sounds_kept (h : Run (StepOf step) {} as m) :
    (as.flatMap Act.handed ++ m.pending).Perm (as.flatMap Act.accepted) ∧
      (Run (Guarded Short (StepOf step)) {} as m →
        as.flatMap Act.handed <+: as.flatMap Act.accepted ∧
          as.flatMap Act.accepted = as.flatMap Act.handed ++ m.pending.reverse) := by
  refine ⟨run_perm h, ?_⟩
  intro hguarded
  have horder : InOrder as m :=
    hguarded.traced start_inOrder fun _ _ _ _ hm ⟨hshort, hstep⟩ => step_inOrder hm hshort hstep
  exact ⟨⟨_, horder.order.symm⟩, horder.order⟩

/-- A sound that goes to the waiting player, one that goes through the list, and the first one
again, which is accepted because the player has found the list empty in between. -/
theorem sounds_kept_again :
    ∃ m, Run (Guarded Short (StepOf step)) {}
        [.next 0, .write "ring", .add "ring" true, .hand "ring", .write "chat", .add "chat" true,
          .played, .next 1, .hand "chat", .played, .next 2, .write "ring", .add "ring" true] m ∧
      m.pending = ["ring"] ∧ ["ring", "chat"] <+: ["ring", "chat", "ring"] := by
  obtain ⟨m, hrun, hpending⟩ : ∃ m, Run (Guarded Short (StepOf step)) {}
      [.next 0, .write "ring", .add "ring" true, .hand "ring", .write "chat", .add "chat" true,
        .played, .next 1, .hand "chat", .played, .next 2, .write "ring", .add "ring" true] m ∧
      m.pending = ["ring"] :=
    Run.exists_of_execGuarded (by decide +kernel)
  exact ⟨m, hrun, hpending, ((sounds_kept hrun.of_guarded).2 hrun).1⟩

/-- Two sounds are written while the player plays one: it gets the second before the first. -/
theorem later_sound_first :
    ∃ as m, Run (StepOf step) {} as m ∧
      ¬ as.flatMap Act.handed <+: as.flatMap Act.accepted := by
  obtain ⟨m, hrun, -⟩ : ∃ m, Run (StepOf step) {}
      [.next 0, .write "a", .add "a" true, .hand "a", .write "b", .add "b" true, .write "c",
        .add "c" true, .played, .next 1, .hand "c", .played, .next 2, .hand "b"] m ∧
      m.pc = .serve :=
    Run.exists_of_exec (by decide +kernel)
  exact ⟨_, m, hrun, by decide +kernel⟩

end Sounddaemon

end Aimsgui
