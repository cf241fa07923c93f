import Aimsgui.Alert

/-!
# The processes around the alert control process

`Alert` is the whole program of `alert`: `ctlproc` with its watchers and ring
processes, `registryproc`, `heartbeatproc`, `ctlfileproc`, the process of `run` and the
status consumer in `init`. All channels are unbuffered, so a send and its receive are
one step of two processes. Every open, write, read, acknowledgement and print may fail.

`die` sends an `exit` command, so a process that fails becomes a sender on `cctl`. It
blocks while `ctlproc` handles a message, and if that message is about to be sent to
the failed process neither can go on. `Orderly` is the condition that keeps the two
apart.
-/

namespace Aimsgui

open Transition

/-- What `registryproc` does in one turn of its loop. -/
inductive RegistryIO where
  | receive | write | read | check
  deriving DecidableEq, Repr

/-- Where `registryproc` stands. `die` returns, so the process goes on after it. -/
inductive Registry where
  | fresh
  | opening
  | at (io : RegistryIO)
  /-- in `die`, sending on `cctl` -/
  | dying (next : RegistryIO)
  | killed
  deriving DecidableEq, Repr

/-- Where the loop of `init` stands. -/
inductive Consumer where
  | receiving
  | printing
  /-- in `die`, sending on `cctl` -/
  | dying
  | exited
  deriving DecidableEq, Repr

/-- Where `heartbeatproc` stands. -/
inductive Heartbeat where
  | fresh | sleeping | sending | killed
  deriving DecidableEq, Repr

/-- Where `ctlfileproc` stands. -/
inductive Ctlfile where
  | fresh
  | idle
  /-- in `ctl`, sending the command -/
  | sending (cmdline : String)
  /-- in `ctl`, waiting for the answer -/
  | waiting
  | killed
  deriving DecidableEq, Repr

/-- Where `run` stands after it has spawned the others. -/
inductive Boot where
  /-- sending the player's name to the registry -/
  | user (name : String)
  /-- sending the name of the ctl file to the consumer -/
  | ctl
  | ended
  deriving DecidableEq, Repr

/-- The program. -/
structure Alert where
  ctl : Ctlproc := {}
  registry : Registry := .fresh
  consumer : Consumer := .receiving
  heartbeat : Heartbeat := .fresh
  ctlfile : Ctlfile := .fresh
  boot : Boot := .ctl
  deriving DecidableEq, Repr

namespace Alert

/-- Who sends a command. -/
inductive Caller where
  | ctlfile | registry | consumer
  deriving DecidableEq, Repr

/-- A step of one process, or of two that communicate. -/
inductive Event where
  /-- a step of `ctlproc` or of a process it spawned that involves none of the others -/
  | inner (e : Ctlproc.Event)
  /-- a write to the ctl file arrives -/
  | filewrite (cmdline : String)
  /-- `ctlproc` takes a command from a process that sends on `cctl` -/
  | command (c : Caller)
  /-- `ctlproc` answers -/
  | reply (e : Option String)
  /-- `ctlproc` sends on `cregistry` -/
  | registry (msg : String)
  /-- `ctlproc` sends on `cout` -/
  | out (msg : Option String)
  /-- a ring process sends on `cout` -/
  | ring (i : Nat)
  /-- `ctlproc` kills one of the others -/
  | note (n : Note)
  /-- `run` sends what it has to send next -/
  | boot
  /-- first steps, which publish the pids -/
  | ctlfilestart | heartbeatstart | registrystart
  /-- `heartbeatproc` wakes up -/
  | wake
  /-- `heartbeatproc` sends on `cregistry` -/
  | heartbeat
  /-- the I/O operation that `registryproc` is at, and whether it goes well -/
  | registryio (ok : Bool)
  /-- the print in `init`, and whether it goes well -/
  | print (ok : Bool)
  deriving DecidableEq, Repr

/-- Whether a step of `ctlproc` involves none of the other processes. -/
def isInner : Ctlproc.Event → Bool
  | .command _ _ | .ring _ => false
  | .act (.reply _) | .act (.registry _) | .act (.out _) | .act (.note _) => false
  | _ => true

/-- The message of a caller that is sending on `cctl`, and the caller afterwards. -/
def call (a : Alert) : Caller → Option (String × Bool × Alert)
  | .ctlfile =>
    match a.ctlfile with
    | .sending cmdline => some (cmdline, true, { a with ctlfile := .waiting })
    | _ => none
  | .registry =>
    match a.registry with
    | .dying next => some ("exit", false, { a with registry := .at next })
    | _ => none
  | .consumer =>
    match a.consumer with
    | .dying => some ("exit", false, { a with consumer := .receiving })
    | _ => none

/-- The consumer receives a message: nil ends it. -/
def consume (a : Alert) (msg : Option String) : Option Alert :=
  match a.consumer with
  | .receiving => some { a with consumer := if msg = none then .exited else .printing }
  | _ => none

/-- `registryproc` receives a message. -/
def register (a : Alert) : Option Alert :=
  match a.registry with
  | .at .receive => some { a with registry := .at .write }
  | _ => none

/-- A step of `ctlproc`. -/
def ctlstep (a : Alert) (e : Ctlproc.Event) : Option Alert :=
  (a.ctl.step e).map fun ctl => { a with ctl := ctl }

/-- The I/O operations of `registryproc`. A failed one is followed by `die`, and then
by what follows when it goes well. -/
def registryio (r : Registry) (ok : Bool) : Option Registry :=
  let after (next : RegistryIO) := some (if ok then .at next else .dying next)
  match r with
  | .opening => after .receive
  | .at .write => after .read
  | .at .read => after .check
  | .at .check => after .receive
  | _ => none

/-- A process that is not known to have started has no pid to kill. -/
def post (a : Alert) : Note → Alert
  | .heartbeat => if a.heartbeat = .fresh then a else { a with heartbeat := .killed }
  | .registry => if a.registry = .fresh then a else { a with registry := .killed }
  | .ctlfile => if a.ctlfile = .fresh then a else { a with ctlfile := .killed }

/-- One step of the program; `none` where it is not possible. -/
def step (a : Alert) : Event → Option Alert
  | .inner e => if isInner e then a.ctlstep e else none
  | .filewrite cmdline =>
    if a.ctlfile = .idle then some { a with ctlfile := .sending cmdline } else none
  | .command c => (a.call c).bind fun (cmdline, cerror, a') => a'.ctlstep (.command cmdline cerror)
  | .reply e =>
    if a.ctlfile = .waiting then { a with ctlfile := .idle }.ctlstep (.act (.reply e)) else none
  | .registry msg => a.register.bind fun a' => a'.ctlstep (.act (.registry msg))
  | .out msg => (a.consume msg).bind fun a' => a'.ctlstep (.act (.out msg))
  | .ring i => (a.consume (some "ring!")).bind fun a' => a'.ctlstep (.ring i)
  | .note n => (a.post n).ctlstep (.act (.note n))
  | .boot =>
    match a.boot with
    | .user _ => a.register.map fun a' => { a' with boot := .ctl }
    | .ctl => (a.consume (some "ctl")).map fun a' => { a' with boot := .ended }
    | .ended => none
  | .ctlfilestart => if a.ctlfile = .fresh then some { a with ctlfile := .idle } else none
  | .heartbeatstart =>
    if a.heartbeat = .fresh then some { a with heartbeat := .sleeping } else none
  | .registrystart => if a.registry = .fresh then some { a with registry := .opening } else none
  | .wake => if a.heartbeat = .sleeping then some { a with heartbeat := .sending } else none
  | .heartbeat =>
    if a.heartbeat = .sending then a.register.map fun a' => { a' with heartbeat := .sleeping }
    else none
  | .registryio ok => (registryio a.registry ok).map fun r => { a with registry := r }
  | .print ok =>
    if a.consumer = .printing then
      some { a with consumer := if ok then .receiving else .dying }
    else none

/-- The program as a transition system. -/
abbrev Step : Alert → Event → Alert → Prop := StepOf step

/-- The program after `run` has spawned its processes, with the player's name if the
file has one. -/
def start (playername : Option String) : Alert :=
  { boot := match playername with
      | some name => .user name
      | none => .ctl }

/-! ## The deadlock, and what avoids it -/

/-- Whether something is to be sent on `cregistry`. -/
def sendsRegistry (todo : List Todo) : Bool :=
  todo.any fun t =>
    match t with
    | .registry _ => true
    | _ => false

/-- Whether something is to be sent on `cout`. -/
def sendsOut (todo : List Todo) : Bool :=
  todo.any fun t =>
    match t with
    | .out _ => true
    | _ => false

/-- The process is in `die`. -/
def Registry.isDying : Registry → Bool
  | .dying _ => true
  | _ => false

/-- Nothing is to be sent to a process that is itself in `die`. -/
def Open (a : Alert) (todo : List Todo) : Prop :=
  (Registry.isDying a.registry = true → sendsRegistry todo = false) ∧
    (a.consumer = .dying → sendsOut todo = false)

instance (a : Alert) (todo : List Todo) : Decidable (Open a todo) :=
  inferInstanceAs (Decidable (_ ∧ _))

/-- No process fails while a message under way is still to be sent to it, and no message
is taken whose handling sends to a process in `die`. -/
def Orderly (a : Alert) : Event → Prop
  | .registryio false => sendsRegistry a.ctl.todo = false
  | .print false => sendsOut a.ctl.todo = false
  | .inner (.report _ state) => Open a (a.ctl.watcherstate state)
  | .command c =>
    match a.call c with
    | some (cmdline, cerror, a') =>
      Open a' ((Ctlproc.command cerror (Cmd.ofFields (unquoted cmdline))).getD [])
    | none => True
  | _ => True

instance (a : Alert) (e : Event) : Decidable (Orderly a e) := by
  unfold Orderly
  split
  · infer_instance
  · infer_instance
  · infer_instance
  · split <;> infer_instance
  · infer_instance

/-- `ctlproc` is blocked sending to a process that is blocked sending on `cctl`. -/
def Deadlocked (a : Alert) : Prop :=
  (∃ msg todo, a.ctl.todo = .registry msg :: todo ∧ Registry.isDying a.registry = true) ∨
    ∃ msg todo, a.ctl.todo = .out msg :: todo ∧ a.consumer = .dying

variable {a b : Alert} {e : Event} {todo todo' : List Todo}

theorem sendsRegistry_mono (h : ∀ t ∈ todo', t ∈ todo) (hs : sendsRegistry todo = false) :
    sendsRegistry todo' = false := by
  rw [sendsRegistry, List.any_eq_false] at hs ⊢
  exact fun t ht => hs t (h t ht)

theorem sendsOut_mono (h : ∀ t ∈ todo', t ∈ todo) (hs : sendsOut todo = false) :
    sendsOut todo' = false := by
  rw [sendsOut, List.any_eq_false] at hs ⊢
  exact fun t ht => hs t (h t ht)

/-- Less is to be done and no process has entered `die`. -/
theorem Open.mono (h : Open a todo) (hsub : ∀ t ∈ todo', t ∈ todo)
    (hreg : Registry.isDying b.registry = true → Registry.isDying a.registry = true)
    (hcon : b.consumer = .dying → a.consumer = .dying) : Open b todo' :=
  ⟨fun hd => sendsRegistry_mono hsub (h.1 (hreg hd)), fun hd => sendsOut_mono hsub (h.2 (hcon hd))⟩

theorem ctlstep_eq {ev : Ctlproc.Event} (h : a.ctlstep ev = some b) :
    ∃ ctl, Ctlproc.Step a.ctl ev ctl ∧ b = { a with ctl := ctl } := by
  obtain ⟨ctl, hctl, rfl⟩ := Option.map_eq_some_iff.mp h
  exact ⟨ctl, hctl, rfl⟩

/-- A step of `ctlproc` that takes no message. -/
theorem Open.ctlstep {ev : Ctlproc.Event} (h : Open a a.ctl.todo)
    (hcmd : ∀ c r, ev ≠ .command c r) (hrep : ∀ i st, ev ≠ .report i st)
    (hstep : a.ctlstep ev = some b) : Open b b.ctl.todo := by
  obtain ⟨ctl, hctl, rfl⟩ := ctlstep_eq hstep
  exact h.mono (fun t ht => Ctlproc.step_todo hcmd hrep hctl ht) id id

/-- The consumer only becomes dying in a print. -/
theorem consume_eq {msg : Option String} (h : a.consume msg = some b) :
    b.ctl = a.ctl ∧ b.registry = a.registry ∧ b.consumer ≠ .dying := by
  simp only [consume] at h
  split at h
  · obtain rfl := Option.some.inj h
    refine ⟨rfl, rfl, ?_⟩
    change (if msg = none then Consumer.exited else .printing) ≠ .dying
    split <;> rintro ⟨⟩
  · cases h

theorem register_eq (h : a.register = some b) :
    b = { a with registry := .at .write } := by
  simp only [register] at h
  split at h
  · exact (Option.some.inj h).symm
  · cases h

/-- The registry process takes a message: it is not in `die` then. -/
theorem Open.register (h : Open a a.ctl.todo) (hreg : a.register = some b) :
    Open b b.ctl.todo := by
  obtain rfl := register_eq hreg
  exact h.mono (fun _ ht => ht) (by rintro ⟨⟩) id

/-- The status consumer takes a message: it is not in `die` then. -/
theorem Open.consume {msg : Option String} (h : Open a a.ctl.todo)
    (hcon : a.consume msg = some b) : Open b b.ctl.todo := by
  obtain ⟨hc, hr, hd⟩ := consume_eq hcon
  rw [hc]
  exact h.mono (fun _ ht => ht) (fun hr' => hr ▸ hr') fun hd' => absurd hd' hd

theorem post_eq (a : Alert) (n : Note) : (a.post n).ctl = a.ctl ∧
    (Registry.isDying (a.post n).registry = true → Registry.isDying a.registry = true) ∧
    (a.post n).consumer = a.consumer := by
  cases n <;> simp only [post] <;> split
  case registry.isFalse =>
    refine ⟨rfl, ?_, rfl⟩
    rintro ⟨⟩
  all_goals exact ⟨rfl, id, rfl⟩

/-- `ctlproc` takes a message and nothing that it is to send goes to a process in `die`. -/
theorem open_command {c : Caller} (hok : Orderly a (.command c))
    (hstep : Step a (.command c) b) : Open b b.ctl.todo := by
  simp only [StepOf, step] at hstep
  obtain ⟨⟨cmdline, cerror, a'⟩, hcall, hbind⟩ := Option.bind_eq_some_iff.mp hstep
  obtain ⟨ctl, hctl, rfl⟩ := ctlstep_eq hbind
  obtain ⟨hready, rfl⟩ := Ctlproc.step_command hctl
  simp only [Orderly, hcall] at hok
  cases hc : Ctlproc.command cerror (Cmd.ofFields (unquoted cmdline)) with
  | none =>
    -- the command breaks `ctlproc`: nothing is left to be done
    have htodo : ({ a' with ctl := a'.ctl.take none } : Alert).ctl.todo = [] := hready.1
    rw [htodo]
    exact ⟨fun _ => rfl, fun _ => rfl⟩
  | some todo =>
    rw [hc] at hok
    exact hok

/-- One orderly step. -/
theorem step_open (h : Open a a.ctl.todo) (hok : Orderly a e) (hstep : Step a e b) :
    Open b b.ctl.todo := by
  cases e with
  | command c => exact open_command hok hstep
  | inner ev =>
    simp only [StepOf, step] at hstep
    split at hstep
    · rename_i hinner
      by_cases hrep : ∃ i st, ev = .report i st
      · obtain ⟨i, state, rfl⟩ := hrep
        obtain ⟨ctl, hctl, rfl⟩ := ctlstep_eq hstep
        obtain ⟨-, -, rfl⟩ := Ctlproc.step_report hctl
        exact hok
      · refine h.ctlstep ?_ (fun i st he => hrep ⟨i, st, he⟩) hstep
        rintro c r rfl
        cases hinner
    · cases hstep
  | filewrite cmdline =>
    simp only [StepOf, step] at hstep
    split at hstep
    · obtain rfl := Option.some.inj hstep
      exact h
    · cases hstep
  | reply r =>
    simp only [StepOf, step] at hstep
    split at hstep
    · have h' : Open { a with ctlfile := .idle } a.ctl.todo := h
      exact h'.ctlstep (by rintro _ _ ⟨⟩) (by rintro _ _ ⟨⟩) hstep
    · cases hstep
  | registry msg =>
    simp only [StepOf, step] at hstep
    obtain ⟨a', hreg, hctl⟩ := Option.bind_eq_some_iff.mp hstep
    exact (h.register hreg).ctlstep (by rintro _ _ ⟨⟩) (by rintro _ _ ⟨⟩) hctl
  | out msg =>
    simp only [StepOf, step] at hstep
    obtain ⟨a', hcon, hctl⟩ := Option.bind_eq_some_iff.mp hstep
    exact (h.consume hcon).ctlstep (by rintro _ _ ⟨⟩) (by rintro _ _ ⟨⟩) hctl
  | ring i =>
    simp only [StepOf, step] at hstep
    obtain ⟨a', hcon, hctl⟩ := Option.bind_eq_some_iff.mp hstep
    exact (h.consume hcon).ctlstep (by rintro _ _ ⟨⟩) (by rintro _ _ ⟨⟩) hctl
  | note n =>
    obtain ⟨hc, hr, hd⟩ := post_eq a n
    have h' : Open (a.post n) (a.post n).ctl.todo := by
      rw [hc]
      exact h.mono (fun _ ht => ht) hr fun hd' => hd ▸ hd'
    exact h'.ctlstep (by rintro _ _ ⟨⟩) (by rintro _ _ ⟨⟩) hstep
  | boot =>
    simp only [StepOf, step] at hstep
    split at hstep
    · obtain ⟨a', hreg, rfl⟩ := Option.map_eq_some_iff.mp hstep
      have h' := h.register hreg
      exact h'
    · obtain ⟨a', hcon, rfl⟩ := Option.map_eq_some_iff.mp hstep
      have h' := h.consume hcon
      exact h'
    · cases hstep
  | ctlfilestart | heartbeatstart | wake =>
    simp only [StepOf, step] at hstep
    split at hstep
    · obtain rfl := Option.some.inj hstep
      exact h
    · cases hstep
  | registrystart =>
    simp only [StepOf, step] at hstep
    split at hstep
    · obtain rfl := Option.some.inj hstep
      exact h.mono (fun _ ht => ht) (by rintro ⟨⟩) id
    · cases hstep
  | heartbeat =>
    simp only [StepOf, step] at hstep
    split at hstep
    · obtain ⟨a', hreg, rfl⟩ := Option.map_eq_some_iff.mp hstep
      have h' := h.register hreg
      exact h'
    · cases hstep
  | registryio ok =>
    simp only [StepOf, step] at hstep
    obtain ⟨r, hr, rfl⟩ := Option.map_eq_some_iff.mp hstep
    cases ok with
    | false => exact ⟨fun _ => hok, h.2⟩
    | true =>
      refine h.mono (fun _ ht => ht) ?_ id
      intro hd
      simp only [registryio] at hr
      split at hr <;> cases hr <;> cases hd
  | print ok =>
    simp only [StepOf, step] at hstep
    split at hstep
    · obtain rfl := Option.some.inj hstep
      cases ok with
      | false => exact ⟨h.1, fun _ => hok⟩
      | true => exact h.mono (fun _ ht => ht) id (by rintro ⟨⟩)
    · cases hstep

/-- **Deadlock freedom**, as long as the failures are orderly: in every run of the program
in which no process fails while it is still to be sent something, and in which no message
is taken whose handling sends to a process in `die`, `ctlproc` is never blocked sending
on `cregistry` or on the status channel to a process that is blocked sending on `cctl`. -/
theorem no_deadlock (playername : Option String) (es : List Event) (a : Alert)
    (h : Run (Guarded Orderly Step) (start playername) es a) : ¬ Deadlocked a := by
  have hopen : Open a a.ctl.todo := by
    refine h.invariant (I := fun a => Open a a.ctl.todo) ⟨fun _ => rfl, fun _ => rfl⟩ ?_
    rintro a e b ho ⟨hok, hstep⟩
    exact step_open ho hok hstep
  rintro (⟨msg, todo, htodo, hd⟩ | ⟨msg, todo, htodo, hd⟩)
  · have hs := hopen.1 hd
    rw [htodo] at hs
    cases hs
  · have hs := hopen.2 hd
    rw [htodo] at hs
    cases hs

/-- The registry cannot be opened, while `ctlproc` has nothing to send. -/
theorem no_deadlock_open_failure : ¬ Deadlocked { registry := .dying .receive } := by
  refine no_deadlock none [.registrystart, .registryio false] _ (Run.of_execGuarded ?_)
  decide +kernel

/-- A run in which the registry fails to write a heartbeat while `off` is being handled. -/
def failingWrite : List Event :=
  [.registrystart, .registryio true, .heartbeatstart, .wake, .heartbeat, .ctlfilestart,
    .filewrite "off", .command .ctlfile, .registryio false] ++
    Ctlproc.watcherKill.map fun t => .inner (.act t)

/-- In that run `ctlproc` sends `off` to the registry, and the registry sends `exit` to it. -/
theorem failing_write_deadlocks : ∃ a, exec step (start none) failingWrite = some a ∧
    a.ctl.todo = Ctlproc.status "off" ++ [.reply none] ∧ a.registry = .dying .read ∧
    Deadlocked a := by
  let a : Alert :=
    { ctl := { todo := Ctlproc.status "off" ++ [.reply none] }
      registry := .dying .read
      heartbeat := .sleeping
      ctlfile := .waiting }
  refine ⟨a, ?_, rfl, rfl, Or.inl ⟨_, _, rfl, rfl⟩⟩
  decide +kernel

end Alert

end Aimsgui
