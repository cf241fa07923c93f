import Aimsgui.Alert

/-!
# An alert window

`alertwin2` runs the alert processes and shows them in a window. Its three variables
`gametype`, `location` and `playercount` are written by the user's choices and by the
"running" statuses that come back from `ctlproc`. Both travel on the action channel.

The channel is created unbuffered, but Tk's `send` cannot wait: the first message that
Tk sends while nobody receives gives the channel a buffer of `TkMaxmsgs` places, and
from then on sends of `ctlproc` go into that buffer too. Tk's commands run inside the
main loop, so at that moment the main loop never receives.
-/

namespace Aimsgui

/-- The size of the buffer that Tk gives to a channel. -/
def TkMaxmsgs : Nat := 100

/-- The messages that the window's widgets send to the action channel. -/
inductive Tkmsg where
  /-- a line of the list of games -/
  | change_game (line : String)
  /-- a line of the list of locations -/
  | change_location (line : String)
  | change_playercount (n : Nat)
  | togglemute
  | exit
  | changing_name
  | change_name (arg : String)
  deriving DecidableEq, Repr

/-- The message as the window gets it. -/
def Tkmsg.text : Tkmsg → String
  | .change_game line => "change_game " ++ line
  | .change_location line => "change_location " ++ line
  | .change_playercount n => "change_playercount " ++ toString n
  | .togglemute => "togglemute"
  | .exit => "exit"
  | .changing_name => "changing_name"
  | .change_name arg => "change_name " ++ arg

/-- The values of the three menus. -/
structure Selection where
  gametype : String
  location : String
  playercount : Int
  deriving DecidableEq, Repr

/-- The command that `update_alert` gives to the control process. `sprint` ends a name at a NUL. -/
def Selection.command (sel : Selection) : String :=
  if sel.playercount = 0 then "off"
  else "on " ++ cstring sel.gametype ++ " " ++ cstring sel.location ++ " " ++
    toString sel.playercount

/-- Where the main loop stands. -/
inductive Main where
  /-- in its `alt`, or handling an input that sends nothing -/
  | idle
  /-- `update_alert` is sending a command -/
  | updating (cmdline : String)
  /-- another call of `alert->ctl`, sending -/
  | calling (cmdline : String)
  /-- in `alert->ctl`, waiting for the answer -/
  | waiting
  /-- `alert->ctln`, sending; the process exits after it, or goes on -/
  | noting (cmdline : String) (last : Bool)
  /-- exited, or broken by `hd` of an empty list -/
  | gone
  deriving DecidableEq, Repr

/-- The window with the alert processes. The registry takes what it is sent. -/
structure Alertwin where
  ctl : Ctlproc := {}
  /-- what is buffered in the action channel, once it has a buffer -/
  buf : Option (List String) := none
  selection : Selection
  main : Main
  deriving DecidableEq, Repr

namespace Alertwin

/-- Where a message of the action channel comes from. -/
inductive Source where
  | buffer (msg : String)
  | ctlproc (msg : Option String)
  | ring (i : Nat)
  deriving DecidableEq, Repr

/-- The text of a message: nil is the empty string. -/
def Source.text : Source → String
  | .buffer msg => msg
  | .ctlproc msg => msg.getD ""
  | .ring _ => "ring!"

/-- A step of one process, or of two that communicate. -/
inductive Event where
  /-- a step of the alert processes that does not involve the main loop -/
  | inner (e : Ctlproc.Event)
  /-- a widget sends a message -/
  | tk (m : Tkmsg)
  /-- the window manager asks the window to exit -/
  | wmexit
  /-- `ctlproc` takes the command that the main loop is sending -/
  | command
  /-- `ctlproc` answers the main loop -/
  | reply (e : Option String)
  /-- `ctlproc` sends into the buffer of the action channel -/
  | out (msg : Option String)
  /-- a ring process sends into the buffer of the action channel -/
  | ring (i : Nat)
  /-- the main loop takes a message from the action channel and runs `action`;
  `entry` is what the name entry holds -/
  | action (src : Source) (entry : String)
  deriving DecidableEq, Repr

/-- Whether a step of the alert processes does not involve the main loop. -/
def isInner : Ctlproc.Event → Bool
  | .command _ _ | .ring _ => false
  | .act (.reply _) | .act (.out _) => false
  | _ => true

/-! ## The main loop -/

/-- `update_alert` -/
def updateAlert (w : Alertwin) : Alertwin := { w with main := .updating w.selection.command }

/-- `action`, over the words of the message. -/
def action (w : Alertwin) (entry : String) : List String → Alertwin
  | [] => { w with main := .gone }
  | "exit" :: _ => { w with main := .noting "exit" true }
  | "update_alert" :: _ => w.updateAlert
  | "running" :: gt :: loc :: pc :: _ => { w with selection := ⟨gt, loc, int pc⟩ }
  | "running" :: _ => { w with main := .gone }
  | "change_game" :: gt :: _ =>
    updateAlert { w with selection := { w.selection with gametype := gt } }
  | ["change_game"] => { w with main := .gone }
  | "change_location" :: loc :: _ =>
    updateAlert { w with selection := { w.selection with location := loc } }
  | ["change_location"] => { w with main := .gone }
  | "change_playercount" :: pc :: _ =>
    updateAlert { w with selection := { w.selection with playercount := int pc } }
  | ["change_playercount"] => { w with main := .gone }
  | ["change_name"] => { w with main := .calling ("pname " ++ entry) }
  | "change_name" :: k :: _ =>
    if k = "done" then { w with main := .calling ("pname " ++ entry) } else w
  -- statuses and buttons that only change what is shown
  | _ => w

/-- The command that the main loop is sending, whether it waits for an answer, and where
it stands afterwards. -/
def Main.call : Main → Option (String × Bool × Main)
  | .updating cmdline | .calling cmdline => some (cmdline, true, .waiting)
  | .noting cmdline last => some (cmdline, false, if last then .gone else .idle)
  | .idle | .waiting | .gone => none

/-! ## Steps -/

/-- A step of `ctlproc`. -/
def ctlstep (w : Alertwin) (e : Ctlproc.Event) : Option Alertwin :=
  (w.ctl.step e).map fun ctl => { w with ctl := ctl }

/-- Tk's `send`: a full buffer drops the message. -/
def tksend (w : Alertwin) (msg : String) : Alertwin :=
  match w.buf with
  | none => { w with buf := some [msg] }
  | some q => if q.length < TkMaxmsgs then { w with buf := some (q ++ [msg]) } else w

/-- A send into the buffer, which waits while there is no place. -/
def buffer (w : Alertwin) (msg : String) : Option Alertwin :=
  match w.buf with
  | none => none
  | some q => if q.length < TkMaxmsgs then some { w with buf := some (q ++ [msg]) } else none

/-- A receive on the action channel: from the buffer, or from a sender that waits. -/
def receive (w : Alertwin) : Source → Option Alertwin
  | .buffer msg =>
    match w.buf with
    | some (msg' :: q) => if msg' = msg then some { w with buf := some q } else none
    | _ => none
  | .ctlproc msg => if w.buf = none then w.ctlstep (.act (.out msg)) else none
  | .ring i => if w.buf = none then w.ctlstep (.ring i) else none

/-- One step; `none` where it is not possible. -/
def step (w : Alertwin) : Event → Option Alertwin
  | .inner e => if isInner e then w.ctlstep e else none
  | .tk m => if w.main = .idle then some (w.tksend m.text) else none
  | .wmexit => if w.main = .idle then some { w with main := .calling "exit" } else none
  | .command =>
    match Main.call w.main with
    | some (cmdline, cerror, main) => { w with main := main }.ctlstep (.command cmdline cerror)
    | none => none
  | .reply e =>
    if w.main = .waiting then { w with main := .idle }.ctlstep (.act (.reply e)) else none
  | .out msg => (w.buffer (msg.getD "")).bind fun w' => w'.ctlstep (.act (.out msg))
  | .ring i => (w.buffer "ring!").bind fun w' => w'.ctlstep (.ring i)
  | .action src entry =>
    if w.main = .idle then (w.receive src).map fun w' => w'.action entry (unquoted src.text)
    else none

/-- The window as a transition system. -/
abbrev Step : Alertwin → Event → Alertwin → Prop := Transition.StepOf step

/-- The window when `init` has learnt the name of the ctl file, with the first game and the
first location of the lists. -/
def start (gametype location : String) : Alertwin :=
  { selection := ⟨gametype, location, 0⟩, main := .noting "off" false }

/-! ## What a step can do -/

variable {w w' : Alertwin}

theorem ctlstep_eq {e : Ctlproc.Event} (h : w.ctlstep e = some w') :
    ∃ ctl, Ctlproc.Step w.ctl e ctl ∧ w' = { w with ctl := ctl } := by
  obtain ⟨ctl, hctl, rfl⟩ := Option.map_eq_some_iff.mp h
  exact ⟨ctl, hctl, rfl⟩

theorem buffer_eq {msg : String} (h : w.buffer msg = some w') :
    ∃ q, w.buf = some q ∧ w' = { w with buf := some (q ++ [msg]) } := by
  simp only [buffer] at h
  split at h
  · cases h
  · rename_i q hq
    split at h
    · exact ⟨q, hq, (Option.some.inj h).symm⟩
    · cases h

/-- A receive takes the message from the buffer, or from a sender. -/
theorem receive_eq {src : Source} (h : w.receive src = some w') :
    (∃ q, w.buf = some (src.text :: q) ∧ w' = { w with buf := some q }) ∨
      (∃ msg ctl, src = .ctlproc msg ∧ Ctlproc.Step w.ctl (.act (.out msg)) ctl ∧
        w' = { w with ctl := ctl }) ∨
      (∃ i, src = .ring i ∧ w' = w) := by
  cases src with
  | buffer msg =>
    simp only [receive] at h
    split at h
    · rename_i msg' q hq
      split at h
      · rename_i hm
        subst hm
        exact Or.inl ⟨q, hq, (Option.some.inj h).symm⟩
      · cases h
    · cases h
  | ctlproc msg =>
    simp only [receive] at h
    split at h
    · obtain ⟨ctl, hctl, rfl⟩ := ctlstep_eq h
      exact Or.inr (Or.inl ⟨msg, ctl, rfl, hctl, rfl⟩)
    · cases h
  | ring i =>
    simp only [receive] at h
    split at h
    · obtain ⟨ctl, hctl, rfl⟩ := ctlstep_eq h
      obtain rfl := Ctlproc.step_ring hctl
      exact Or.inr (Or.inr ⟨i, rfl, rfl⟩)
    · cases h

end Alertwin

end Aimsgui
