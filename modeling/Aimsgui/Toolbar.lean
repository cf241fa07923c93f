import Aimsgui.Strings

/-!
# The toolbar of `tabswin`

`toolbar.b` is the controller of `tabswin`: it is told about the other clients by control
messages, and shows a tab for each of them. `wmctl` takes a message apart and says which
function of the toolbar is called for it; a `Call` names the function and its arguments.
`Bar` is what the toolbar keeps about the clients, and `Bar.call` what a call makes of it,
with the requests that it sends to the window manager. The commands of Tk are known as far as
`tkexec` takes a text apart; what a single command does is a parameter.
-/

namespace Aimsgui

namespace Toolbar

/-- What the toolbar does about a control message. -/
inductive Call where
  /-- too few words -/
  | ignore
  /-- a request that is answered with an error -/
  | refuse (err : String)
  /-- `client_focus` -/
  | focus (id : String)
  /-- `client_iconify` -/
  | iconify (id label : String)
  /-- `client_name` -/
  | name (id label : String)
  /-- `client_icon` -/
  | icon (id icon : String)
  /-- `client_kbdfocuschange` -/
  | kbdfocuschange (id : String)
  /-- `client_new` -/
  | new (id : String)
  /-- `client_del` -/
  | del (id : String)
  /-- the message is for the toolbar's own window -/
  | own (c : String)
  deriving DecidableEq, Repr

/-- The loop of `handlerequest` that puts the words of a name together again. -/
def joinwords (label : String) : List String → String
  | [] => label
  | [w] => label ++ w
  | w :: ws => joinwords (label ++ w ++ " ") ws

/-- `handlerequest`: the request `cmd args` of a client, forwarded by the window manager. -/
def handlerequest (clientid cmd : String) (args : List String) : Call :=
  match cmd with
  | "task" => match args with
    | [label] => .iconify clientid label
    | _ => .refuse "no task label given"
  | "untask" | "unhide" => .focus clientid
  | "clientname" => match args with
    | [] => .refuse "no label given"
    | words => .name clientid (joinwords "" words)
  | "clienticon" => match args with
    | icon :: _ => .icon clientid icon
    | [] => .refuse "no icon given"
  | _ => .refuse "unknown request"

/-- `wmctl`. Without an argument the last three of its own messages dereference nil. -/
def wmctl (c : String) : Option Call :=
  match unquoted c with
  | [] => some .ignore
  | cmd :: args => match cmd with
    | "request" => match args with
      | clientid :: req :: reqargs => some (handlerequest clientid req reqargs)
      | _ => some .ignore
    | "newclient" => args.head?.map .new
    | "delclient" => args.head?.map .del
    | "kbdfocuschange" => args.head?.map .kbdfocuschange
    | _ => some (.own c)

/-! ## Tk -/

/-- An open bracket, as `tkmatch` follows it. -/
structure Bracket where
  inc : Char
  dec : Char
  depth : Nat := 1
  esc : Bool := false

/-- `tkexec`: the commands in a C string that are carried out, one after the other. Of a text with
an open bracket only what stands before it is, and a quote ends the search for semicolons. -/
def tkcommands (bracket : Option Bracket) (cmd : List Char) : List Char → List (List Char)
  | [] => match bracket with
    | some _ => []
    | none => [cmd.reverse]
  | c :: cs => match bracket with
    | some b =>
      if b.esc then tkcommands (some { b with esc := false }) (c :: cmd) cs
      else if c = b.inc then tkcommands (some { b with depth := b.depth + 1 }) (c :: cmd) cs
      else if c = b.dec then
        if b.depth = 1 then tkcommands none (c :: cmd) cs
        else tkcommands (some { b with depth := b.depth - 1 }) (c :: cmd) cs
      else tkcommands (some { b with esc := decide (c = '\\') }) (c :: cmd) cs
    | none =>
      if c = '[' then tkcommands (some { inc := '[', dec := ']' }) (c :: cmd) cs
      else if c = '{' then tkcommands (some { inc := '{', dec := '}' }) (c :: cmd) cs
      else if c = ';' then cmd.reverse :: tkcommands none [] cs
      else if c = '\'' then [cmd.reverse ++ c :: cs]
      else tkcommands none (c :: cmd) cs

/-! ## The tabs -/

/-- What the window manager is asked to tell a client. -/
inductive Order where
  | untask | raise | kbdfocus | exit
  deriving DecidableEq, Repr

/-- The words of the order. -/
def Order.words : Order → List String
  | untask => ["untask"]
  | raise => ["raise"]
  | kbdfocus => ["kbdfocus", "1"]
  | exit => ["exit"]

/-- A request to the window manager. -/
structure Request where
  id : String
  order : Order
  deriving DecidableEq, Repr

/-- The request as it is written to the window manager. -/
def Request.text (r : Request) : String := quoted ("ctl" :: r.id :: r.order.words)

/-- What the toolbar keeps about the clients: the ids of those that have a tab, of those whose
tab is sunken, and of the one that has the keyboard. -/
structure Bar where
  tabs : List String := []
  sunken : List String := []
  kbdfocus : Option String := none
  deriving DecidableEq, Repr

namespace Bar

/-- What a single command of Tk makes of the tabs, unless it fails. -/
abbrev Tk := Bar → String → Option Bar

/-- The commands, up to the first one that fails. -/
def run (tk : Tk) (b : Bar) : List String → Bar
  | [] => b
  | cmd :: cmds => match tk b cmd with
    | some b => run tk b cmds
    | none => b

/-- `tk->cmd`: `tkexec` is given a C string, which ends at the first NUL. -/
def cmd (tk : Tk) (b : Bar) (s : String) : Bar :=
  b.run tk ((tkcommands none [] (cstring s).toList).map String.ofList)

/-- `client_focus` -/
def clientFocus (b : Bar) (id : String) : Bar × List Request :=
  if id ∈ b.tabs then
    ({ b with sunken := b.sunken.filter (· ≠ id) },
      [⟨id, if id ∈ b.sunken then .untask else .raise⟩, ⟨id, .kbdfocus⟩])
  else (b, [])

/-- `client_icon` -/
def clientIcon (tk : Tk) (b : Bar) (id icon : String) : Bar :=
  b.cmd tk (".toolbar." ++ id ++ ".icon configure -bitmap @/icons/aimsgui/" ++ icon ++ ".bit")

/-- `client_iconify` -/
def clientIconify (b : Bar) (id : String) : Bar :=
  if id ∈ b.tabs then { b with sunken := id :: b.sunken } else b

/-- `client_kbdfocuschange` -/
def clientKbdfocuschange (b : Bar) (id : String) : Bar :=
  { b with kbdfocus := if id = "none" then none else some id }

/-- `client_new`: there is no second frame of the same name. -/
def clientNew (b : Bar) (id : String) : Bar :=
  if id ∈ b.tabs then b else { b with tabs := id :: b.tabs }

/-- `client_del`. The relief of a frame that has been destroyed is an error, not "sunken". -/
def clientDel (b : Bar) (id : String) : Bar × List Request :=
  if id ∈ b.tabs then
    ({ tabs := b.tabs.filter (· ≠ id)
       sunken := b.sunken.filter (· ≠ id)
       kbdfocus := if b.kbdfocus = some id then none else b.kbdfocus }, [⟨id, .kbdfocus⟩])
  else (b, [])

/-- What a call makes of the tabs, and the requests that it sends. -/
def call (tk : Tk) (b : Bar) : Call → Bar × List Request
  | .focus id => b.clientFocus id
  | .iconify id _ => (b.clientIconify id, [])
  | .icon id icon => (b.clientIcon tk id icon, [])
  | .kbdfocuschange id => (b.clientKbdfocuschange id, [])
  | .new id => (b.clientNew id, [])
  | .del id => b.clientDel id
  | .ignore | .refuse _ | .name _ _ | .own _ => (b, [])

end Bar

end Toolbar

end Aimsgui
