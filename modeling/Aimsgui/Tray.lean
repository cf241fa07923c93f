import Aimsgui.Heading

/-!
# Windows that have been put away

`Tray` is `topwin` with its toolbar, the client `t`, and its other clients, which are programs that
use `tkclient`. Everybody handles one message at a time and waits for the answers to the requests
that this causes; in between the manager takes its turns. A program may put its window away (`task`)
and show it again of its own accord (`untask`), and somebody may click on a button.

The toolbar has a button for a window that has been put away, and only for those; but it learns of
them by messages, and they of clicks on the buttons. All that is under way about one window is a
`deal`.
-/

namespace Aimsgui

open Topbar Transition
open Custody (Slip Deal)
open Toolbar (Request)

/-- `topwin` and its clients. -/
structure Tray where
  session : Session
  buttons : Buttons := []
  /-- the clicks that the toolbar has not handled -/
  clicks : List String := []
  /-- the number of messages that a client has handled -/
  heard : Cid → Nat := fun _ => 0
  /-- the requests that a client is going to make before it goes on -/
  asks : Cid → List String := fun _ => []
  /-- the title of a window that is not on the screen -/
  away : Cid → Option String := fun _ => none

/-- Something that happens at a `Tray`. -/
inductive Doing where
  /-- a turn of the main loop of the manager -/
  | turn (e : Event)
  /-- a program puts its window away -/
  | task (c : Cid) (title : String)
  /-- a program shows its window -/
  | untask (c : Cid)
  /-- a client handles a message -/
  | hear (c : Cid)
  /-- somebody clicks on a button -/
  | click (id : String)
  /-- the toolbar handles a click -/
  | select
  /-- the manager handles a request of a client that waits for the answer -/
  | serve (c : Cid)
  deriving DecidableEq, Repr

/-- What `tkclient` writes when the window is to be put away. -/
def Tkclient.task (title : String) : String := "task " ++ quoted [title]

namespace Tray

/-- A manager without clients. -/
def start (screen : Rect) : Tray := { session := .start screen }

/-- The messages that a client has not handled yet. -/
def pending (d : Tray) (c : Cid) : List String := (d.session.wm.mail c).drop (d.heard c)

/-- The name of a client in the toolbar. -/
def name (d : Tray) (c : Cid) : String := toString (d.session.wm.client c).id

variable (env : Env) (t : Cid) (d : Tray)

/-- The toolbar makes a call. -/
def calls (f : Call) : Tray :=
  { d with
    buttons := (call d.buttons f).1
    asks := Function.update d.asks t (call d.buttons f).2 }

/-- `wmctl` of `tkclient`, in a program. -/
def passes (c : Cid) (e : String) : Tray :=
  { d with
    away := if Tkclient.qword e = "untask" then Function.update d.away c none else d.away
    asks := Function.update d.asks c (Tkclient.wmctl e).toList }

/-- One message more has been handled. -/
def told (c : Cid) : Tray := { d with heard := Function.update d.heard c (d.heard c + 1) }

/-- The client is there, and waits for no answer. -/
def Free (c : Cid) : Prop := d.session.Live c ∧ d.asks c = []

instance (c : Cid) : Decidable (d.Free c) := inferInstanceAs (Decidable (_ ∧ _))

/-- A step of the manager, of the toolbar or of a client program. -/
def step : Doing → Option Tray
  | .turn e => (d.session.step .topwin env e).map fun s => { d with session := s }
  | .task c title =>
    if d.Free c ∧ c ≠ t then
      (d.session.wm.handlerequest .topwin env c (Tkclient.task title) []).map fun (w, answer) =>
        { d with
          session := { d.session with wm := w }
          away := if answer = none then Function.update d.away c (some title) else d.away }
    else none
  | .untask c => if d.Free c ∧ c ≠ t then some (d.passes c "untask") else none
  | .hear c =>
    if d.Free c then
      match d.pending c with
      | [] => none
      | e :: _ =>
        if c = t then (Topbar.wmctl e).map ((d.told c).calls t) else some ((d.told c).passes c e)
    else none
  | .click id =>
    if id ∈ d.buttons.map Prod.fst then some { d with clicks := d.clicks ++ [id] } else none
  | .select =>
    if d.Free t then
      match d.clicks with
      | [] => none
      | id :: clicks => some (calls t { d with clicks := clicks } (.deiconify id))
    else none
  | .serve c =>
    match d.asks c with
    | [] => none
    | r :: rs => (d.session.step .topwin env (.request c r [])).map fun s =>
      { d with session := s, asks := Function.update d.asks c rs }

/-- The id of a new client is an `int`, and no other client's that has not left; the toolbar is the
first to join and does not leave. While a client waits for an answer it makes no request, and
nobody but `tkclient` asks for a button. A program puts its window away when it has been on the
screen. Only `Topbar` asks for what the toolbar needs control for. -/
def Ruled : Doing → Prop
  | .turn (.opened id) => id < 2 ^ 31 ∧
      ∀ c < d.session.wm.z.refs, c ∉ d.session.left → (d.session.wm.client c).id ≠ id
  | .turn (.join c) => c ≠ t → t ∈ d.session.joined
  | .turn (.leave c) => c ≠ t
  | .turn (.request c data _) => d.asks c = [] ∧
      if c = t then (unquoted data).head? ≠ some "ctl" ∧ (unquoted data).head? ≠ some "endcontrol"
      else (unquoted data).head? ≠ some "task"
  | .task c _ => c ∈ d.session.wm.order
  | _ => True

instance : ∀ x, Decidable (Ruled t d x)
  | .turn (.opened _) => inferInstanceAs (Decidable (_ ∧ ∀ c < _, _ → _))
  | .turn (.join _) => inferInstanceAs (Decidable (_ → _))
  | .turn (.leave _) => inferInstanceAs (Decidable (_ ≠ _))
  | .turn (.request _ _ _) => inferInstanceAs (Decidable (_ ∧ _))
  | .task _ _ => inferInstanceAs (Decidable (_ ∈ _))
  | .turn (.key _) | .turn (.pointer _ _) | .turn (.winctl _ _) => inferInstanceAs (Decidable True)
  | .untask _ | .hear _ | .click _ | .select | .serve _ => inferInstanceAs (Decidable True)

/-- Nobody has anything left to do. -/
def Idle (d : Tray) : Prop := ∀ c, d.session.Live c → d.asks c = [] ∧ d.pending c = []

instance : Decidable (Idle d) :=
  decidable_of_iff (∀ c < d.session.wm.z.refs, c ∉ d.session.left → d.asks c = [] ∧ d.pending c = [])
    ⟨fun h c hc => h c hc.1 hc.2, fun h c hc hleft => h c ⟨hc, hleft⟩⟩

/-- There is one button for each window that has been put away, with its title, and none for
others. -/
structure Matched : Prop where
  once : (d.buttons.map Prod.fst).Nodup
  shown : ∀ c, d.session.Live c → c ≠ t →
    d.buttons.lookup (d.name c) = (d.away c).map condenselabel
  owned : ∀ x ∈ d.buttons, ∃ c, d.session.Live c ∧ c ≠ t ∧ x.1 = d.name c

/-! ## Deals -/

/-- What the messages for the toolbar mean for the button of that id. -/
def notes (id : String) : List (Slip String) := (d.pending t).filterMap (note id)

/-- What is under way about a client's window: the toolbar is told by messages, and by the client
passing one back; the client by messages, and by requests of the toolbar. -/
def deal (c : Cid) : Deal String where
  left := (d.away c).map condenselabel
  ticket := d.buttons.lookup (d.name c)
  notes := d.notes t (d.name c) ++ (d.asks c).filterMap (asked (d.name c))
  returns := (d.pending c).countP (fun e => Tkclient.qword e = "untask") +
    (d.asks t).count (Request.text ⟨d.name c, .untask⟩)

end Tray

end Aimsgui
