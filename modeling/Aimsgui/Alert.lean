import Aimsgui.Strings
import Aimsgui.Lib.Run

/-!
# The alert control process

`ctlproc` takes commands from `cctl` and states from `cwatcherstate`, one message at
a time. Handling a message is a list of actions (`Todo`): assignments to the shared
variables, posts to other processes, spawns, and sends on unbuffered channels, each
of which may have to wait. The processes that it spawns run beside it; a watcher and
a ring process publish their own pids, in their first step (`Event.watcherstart`,
`Event.ringstart`), so that until then nobody can kill them.

A posted kill takes effect at once. What a watcher reports and when is left open, and
so is who sends commands; the modules that follow say with whom the sends on
`cregistry`, `cout` and the reply channel meet.
-/

namespace Aimsgui

/-- A spawned process. -/
inductive Proc where
  /-- spawned, but it has not taken its first step -/
  | fresh
  | running
  | ended
  | killed
  deriving DecidableEq, Repr

namespace Proc

/-- It was neither killed nor did it end. -/
def live : Proc → Bool
  | fresh | running => true
  | ended | killed => false

/-- A posted kill. -/
def kill : Proc → Proc
  | fresh | running => killed
  | p => p

end Proc

/-- A command of the control channel, as the first words of its line decide. -/
inductive Cmd where
  | exit
  | on (wtype : String) (wargs : List String)
  | off
  | pname (name : String)
  /-- answered with an error -/
  | invalid
  /-- `hd` of an empty list: the process breaks -/
  | broken
  deriving DecidableEq, Repr

/-- The branches of `ctlproc` over the words of a command. -/
def Cmd.ofFields : List String → Cmd
  | [] => .broken
  | "exit" :: _ => .exit
  | "on" :: wtype :: wargs => .on wtype wargs
  | ["on"] => .broken
  | "off" :: _ => .off
  | "pname" :: name :: _ => .pname name
  | ["pname"] => .broken
  | _ => .invalid

/-- The other processes that `exit` kills by name. -/
inductive Note where
  | heartbeat | registry | ctlfile
  deriving DecidableEq, Repr

/-- One action of `ctlproc`. -/
inductive Todo where
  /-- `cerror <-= e` -/
  | reply (e : Option String)
  /-- `cregistry <-= msg` -/
  | registry (msg : String)
  /-- `cout <-= msg`, nil at the end -/
  | out (msg : Option String)
  /-- `if(ringpid != 0) postnote(ringpid, "kill")` -/
  | ringpost
  /-- `ringpid = 0` -/
  | ringclear
  /-- `spawn ringproc(cout)` -/
  | ringspawn
  /-- `if(watcherpid != 0) postnote(watcherpid, "killgrp")` in `watcher_kill` -/
  | watcherpost
  /-- `watcherpid = 0` -/
  | watcherclear
  /-- the assignments to `watchertype` and `watcherargs` -/
  | watcherset (wtype : String) (wargs : List String)
  /-- `spawn watcherproc(wtype, wargs)` -/
  | watcherspawn
  /-- `postnote(pid, "kill")` on exit -/
  | note (n : Note)
  /-- `postnote(watcherpid, "killgrp")` on exit -/
  | exitwatcher
  /-- `postnote(ringpid, "kill")` on exit -/
  | exitring
  /-- `exit` -/
  | exit
  deriving DecidableEq, Repr

/-- `ctlproc` with the variables it shares with watchers and ring processes, and these
processes in the order in which they were spawned. A pid is a place in its list, and
`none` stands for 0. -/
structure Ctlproc where
  /-- the rest of the message under way -/
  todo : List Todo := []
  /-- exited or broken -/
  gone : Bool := false
  watcherpid : Option Nat := none
  ringpid : Option Nat := none
  watchertype : String := ""
  watcherargs : List String := []
  watchers : List Proc := []
  rings : List Proc := []
  deriving DecidableEq, Repr

namespace Ctlproc

/-- A step of `ctlproc` or of one of the processes it spawned. -/
inductive Event where
  /-- `ctlproc` takes a command, with or without a channel for the answer -/
  | command (cmdline : String) (cerror : Bool)
  /-- `ctlproc` takes a state from the watcher -/
  | report (i : Nat) (state : Int)
  /-- the next action of `ctlproc` -/
  | act (t : Todo)
  /-- the watcher publishes its pid -/
  | watcherstart (i : Nat)
  /-- the watcher ends without being killed -/
  | watcherend (i : Nat)
  /-- the ring process publishes its pid -/
  | ringstart (i : Nat)
  /-- the ring process sends "ring!" on `cout` -/
  | ring (i : Nat)
  deriving DecidableEq, Repr

/-! ## The messages -/

/-- `ringproc_kill` -/
def ringprocKill : List Todo := [.ringpost, .ringclear]

/-- `watcher_kill` -/
def watcherKill : List Todo :=
  ringprocKill ++ [.watcherpost, .watcherclear, .watcherset "" []]

/-- `watcher_spawn` -/
def watcherSpawn (wtype : String) (wargs : List String) : List Todo :=
  watcherKill ++ [.watcherset wtype wargs, .watcherspawn]

/-- A status goes to the registry and to the window. -/
def status (msg : String) : List Todo := [.registry msg, .out (some msg)]

/-- `if(cerror != nil) cerror <-= e` -/
def answer (cerror : Bool) (e : Option String) : List Todo := if cerror then [.reply e] else []

/-- The branch of a command; `none` where it breaks the process. -/
def command (cerror : Bool) : Cmd → Option (List Todo)
  | .exit => some (answer cerror none ++ [.note .heartbeat, .note .registry, .note .ctlfile,
      .exitwatcher, .exitring, .out (some "exit"), .out none, .exit])
  | .on wtype wargs => some (watcherSpawn wtype wargs ++ answer cerror none)
  | .off => some (watcherKill ++ status "off" ++ answer cerror none)
  | .pname name =>
    some ([.registry ("user " ++ name), .out (some ("pname " ++ name))] ++ answer cerror none)
  | .invalid => some (answer cerror (some "invalid ctl message"))
  | .broken => none

/-- The status line of a watcher that is at work. -/
def running (s : Ctlproc) : String :=
  "running " ++ s.watchertype ++ " " ++ quoted s.watcherargs

/-- The status line of a watcher that has found something. -/
def ringing (s : Ctlproc) : String :=
  "ringing " ++ s.watchertype ++ " " ++ quoted s.watcherargs

/-- The branches over a watcher's state. -/
def watcherstate (s : Ctlproc) (state : Int) : List Todo :=
  if state = -1 then watcherKill ++ status "off"
  else if state = 0 then ringprocKill ++ status s.running
  else if state = 1 then .ringspawn :: status s.ringing
  else []

/-! ## Steps -/

/-- Kill the process of that pid, if there is one. -/
def postnote (procs : List Proc) : Option Nat → List Proc
  | none => procs
  | some i => procs.modify i Proc.kill

/-- What an action does to the variables and to the spawned processes. -/
def perform (s : Ctlproc) : Todo → Ctlproc
  | .reply _ | .registry _ | .out _ | .note _ => s
  | .ringpost | .exitring => { s with rings := postnote s.rings s.ringpid }
  | .ringclear => { s with ringpid := none }
  | .ringspawn => { s with rings := s.rings ++ [.fresh] }
  | .watcherpost | .exitwatcher => { s with watchers := postnote s.watchers s.watcherpid }
  | .watcherclear => { s with watcherpid := none }
  | .watcherset wtype wargs => { s with watchertype := wtype, watcherargs := wargs }
  | .watcherspawn => { s with watchers := s.watchers ++ [.fresh] }
  | .exit => { s with gone := true }

/-- Begin to handle a message. -/
def take (s : Ctlproc) : Option (List Todo) → Ctlproc
  | some todo => { s with todo := todo }
  | none => { s with gone := true }

/-- Between two messages. -/
def Ready (s : Ctlproc) : Prop := s.todo = [] ∧ s.gone = false

instance (s : Ctlproc) : Decidable s.Ready := inferInstanceAs (Decidable (_ ∧ _))

/-- One step; `none` where it is not possible. -/
def step (s : Ctlproc) : Event → Option Ctlproc
  | .command cmdline cerror =>
    if s.Ready then some (s.take (command cerror (Cmd.ofFields (unquoted cmdline)))) else none
  | .report i state =>
    if s.Ready ∧ s.watchers[i]? = some .running then some (s.take (some (s.watcherstate state)))
    else none
  | .act t =>
    match s.todo with
    | t' :: todo => if t' = t then some ({ s with todo := todo }.perform t) else none
    | [] => none
  | .watcherstart i =>
    if s.watchers[i]? = some .fresh then
      some { s with watchers := s.watchers.set i .running, watcherpid := some i }
    else none
  | .watcherend i =>
    if s.watchers[i]? = some .running then some { s with watchers := s.watchers.set i .ended }
    else none
  | .ringstart i =>
    if s.rings[i]? = some .fresh then
      some { s with rings := s.rings.set i .running, ringpid := some i }
    else none
  | .ring i => if s.rings[i]? = some .running then some s else none

/-- The process group as a transition system. -/
abbrev Step : Ctlproc → Event → Ctlproc → Prop := Transition.StepOf step

/-- The control process as `run` starts it. -/
def start : Ctlproc := {}

/-! ## What a step can do -/

variable {s s' : Ctlproc}

theorem step_command {cmdline : String} {cerror : Bool} (h : Step s (.command cmdline cerror) s') :
    s.Ready ∧ s' = s.take (command cerror (Cmd.ofFields (unquoted cmdline))) := by
  simp only [Transition.StepOf, step] at h
  split at h
  · exact ⟨‹_›, (Option.some.inj h).symm⟩
  · cases h

theorem step_report {i : Nat} {state : Int} (h : Step s (.report i state) s') :
    s.Ready ∧ s.watchers[i]? = some .running ∧ s' = { s with todo := s.watcherstate state } := by
  simp only [Transition.StepOf, step] at h
  split at h
  · rename_i hr
    exact ⟨hr.1, hr.2, (Option.some.inj h).symm⟩
  · cases h

theorem step_act {t : Todo} (h : Step s (.act t) s') :
    ∃ todo, s.todo = t :: todo ∧ s' = { s with todo := todo }.perform t := by
  simp only [Transition.StepOf, step] at h
  split at h
  · rename_i t' todo htodo
    split at h
    · rename_i ht
      subst ht
      exact ⟨todo, htodo, (Option.some.inj h).symm⟩
    · cases h
  · cases h

theorem step_watcherstart {i : Nat} (h : Step s (.watcherstart i) s') :
    s.watchers[i]? = some .fresh ∧
      s' = { s with watchers := s.watchers.set i .running, watcherpid := some i } := by
  simp only [Transition.StepOf, step] at h
  split at h
  · exact ⟨‹_›, (Option.some.inj h).symm⟩
  · cases h

theorem step_watcherend {i : Nat} (h : Step s (.watcherend i) s') :
    s.watchers[i]? = some .running ∧ s' = { s with watchers := s.watchers.set i .ended } := by
  simp only [Transition.StepOf, step] at h
  split at h
  · exact ⟨‹_›, (Option.some.inj h).symm⟩
  · cases h

theorem step_ringstart {i : Nat} (h : Step s (.ringstart i) s') :
    s.rings[i]? = some .fresh ∧
      s' = { s with rings := s.rings.set i .running, ringpid := some i } := by
  simp only [Transition.StepOf, step] at h
  split at h
  · exact ⟨‹_›, (Option.some.inj h).symm⟩
  · cases h

theorem step_ring {i : Nat} (h : Step s (.ring i) s') : s' = s := by
  simp only [Transition.StepOf, step] at h
  split at h
  · exact (Option.some.inj h).symm
  · cases h

/-- Actions only consume what is to be done. -/
@[simp] theorem perform_todo (s : Ctlproc) (t : Todo) : (s.perform t).todo = s.todo := by
  cases t <;> rfl

/-- A step that takes no message leaves nothing new to be done. -/
theorem step_todo {e : Event} (hcmd : ∀ c r, e ≠ .command c r) (hrep : ∀ i st, e ≠ .report i st)
    (hstep : Step s e s') {t : Todo} (ht : t ∈ s'.todo) : t ∈ s.todo := by
  cases e with
  | command c r => exact absurd rfl (hcmd c r)
  | report i st => exact absurd rfl (hrep i st)
  | act a =>
    obtain ⟨todo, htodo, rfl⟩ := step_act hstep
    rw [perform_todo] at ht
    rw [htodo]
    exact List.mem_cons_of_mem _ ht
  | watcherstart i =>
    obtain ⟨-, rfl⟩ := step_watcherstart hstep
    exact ht
  | watcherend i =>
    obtain ⟨-, rfl⟩ := step_watcherend hstep
    exact ht
  | ringstart i =>
    obtain ⟨-, rfl⟩ := step_ringstart hstep
    exact ht
  | ring i =>
    obtain rfl := step_ring hstep
    exact ht

end Ctlproc

end Aimsgui
