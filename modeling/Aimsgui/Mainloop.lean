import Aimsgui.Handled

/-!
# The main loop of a window manager

An `Event` is what the main loop receives in one turn, with what comes from outside:
whether the manager's own window takes a pointer event, its new image, the pointer events
that are still to come. `Session` adds what `wm()` knows about the clients: a client's
record is made when it reads `/chan/wmctl`, it joins at most once, and nothing is heard of
it after it has closed the file. It need not join before its first request.
-/

namespace Aimsgui

/-- What the main loop receives in one turn. -/
inductive Event where
  /-- the record of a new client is made in the slot `id` of `clients` -/
  | opened (id : Nat)
  | join (c : Cid)
  | leave (c : Cid)
  | request (c : Cid) (data : String) (ptr : List Pointer)
  | key (k : Int)
  | pointer (p : Pointer) (taken : Bool)
  /-- a control message for the manager's own window, and the window's image if it is new -/
  | winctl (e : String) (img : Option Rect)
  deriving DecidableEq, Repr

namespace Wm

variable (m : Manager) (env : Env) (w : Wm) (c : Cid)

/-- Make the record of a new client. -/
def addclient (id : Nat) : Wm :=
  { w with
    client := Function.update w.client w.z.refs { id := id }
    z := { w.z with refs := w.z.refs + 1 } }

/-- `<-join`, after the answer. -/
def onJoin : Wm :=
  let w := w.ctl c ("rect " ++ r2s w.screen)
  let w := if w.allowcontrol then
      { w.put c fun cl => { cl with controller := true } with
        controller := some c, allowcontrol := false }
    else w.controlevent ("newclient " ++ toString (w.client c).id)
  w.put c fun cl => { cl with cursor := "cursor" }

/-- Set to nil what is the client that leaves. -/
def forget (c : Cid) (x : Option Cid) : Option Cid := if x = some c then none else x

/-- `<-req` of a client that leaves, before the controller is told. -/
def forgetting : Wm :=
  { w.remove m c with
    ptrfocus := forget c w.ptrfocus
    kbdfocus := forget c w.kbdfocus
    controller := forget c w.controller }

/-- The same, as far as `pack_windows`. -/
def departing : Wm :=
  (w.forgetting m c).controlevent ("delclient " ++ toString (w.client c).id)

/-- The same, up to the election. Only `rowwm` packs. -/
def departed : Wm :=
  match m with
  | .rowwm => (w.departing .rowwm c).packWindows env (w.departing .rowwm c).screen
  | m => w.departing m c

/-- `for(z := top(); z != nil; z = z.znext) if(z.flags & Kbdstarted) break;` -/
def elect : Option Cid := w.order.find? fun z => (w.client z).kbdstarted

/-- `<-req` of a client that leaves. -/
def onLeave : Wm :=
  let w := w.departed m env c
  (w.setfocus m w.elect).send (.stop c)

theorem onLeave_eq (m : Manager) (env : Env) (w : Wm) (c : Cid) :
    w.onLeave m env c =
      ((w.departed m env c).setfocus m (w.departed m env c).elect).send (.stop c) := rfl

/-- `<-wmctxt.kbd` and `<-fakekbd` -/
def onKey (k : Int) : Wm :=
  match w.kbdfocus with
  | some c => w.send (.kbd c k)
  | none => w

/-- A pointer event over the client `c`. Only `topwin` asks whether a button was down before. -/
def pointAt (p : Pointer) : Wm :=
  if p.buttons = 0 then
    let w := match w.ptrfocus with
      | some old => if c ≠ old then w.send (.ptr old (some p)) else w
      | none => w
    { w with ptrfocus := some c }
  else if m = .topwin ∧ w.buttons ≠ 0 then w
  else
    let w := if w.kbdfocus ≠ some c then w.ctl c "raise" else w
    w.setfocus m (some c)

/-- `<-wmctxt.ptr` -/
def onPointer (p : Pointer) (taken : Bool) : Wm :=
  if taken then w
  else
    let w := match w.find p.xy with
      | some c => w.pointAt m c p
      | none => w
    match w.ptrfocus with
    | some c =>
      if (w.client c).ptrstarted then { w with buttons := p.buttons }.send (.ptr c (some p))
      else { w with buttons := 0 }
    | none => { w with buttons := 0 }

/-- The first half of `onPointer`: the client under the pointer gets a focus. -/
def aimed (p : Pointer) : Wm :=
  match w.find p.xy with
  | some c => w.pointAt m c p
  | none => w

/-- The second half of `onPointer`: the event goes to the client that has the pointer. -/
def deliver (p : Pointer) : Wm :=
  match w.ptrfocus with
  | some c =>
    if (w.client c).ptrstarted then { w with buttons := p.buttons }.send (.ptr c (some p))
    else { w with buttons := 0 }
  | none => { w with buttons := 0 }

theorem onPointer_eq (p : Pointer) (taken : Bool) :
    w.onPointer m p taken = if taken then w else (w.aimed m p).deliver p := rfl

/-- `z.ctl <-= e` for every client on the screen. -/
def ctlAll (e : String) : List Cid → Wm → Wm
  | [], w => w
  | c :: cs, w => ctlAll e cs (w.ctl c e)

/-- `<-win.ctl` and `<-wmctxt.ctl`, before the window's image is looked at. -/
def told (e : String) : Wm :=
  (if e = "exit" then ctlAll "exit" w.order w else w).wmctl e

/-- `<-win.ctl` and `<-wmctxt.ctl` -/
def onWinctl (e : String) (img : Option Rect) : Wm :=
  match img with
  | some newr => (w.told e).reshaped m env newr
  | none => w.told e

end Wm

/-- A window manager, with the clients that have joined and those that have left. -/
structure Session where
  wm : Wm
  joined : List Cid := []
  left : List Cid := []

namespace Session

/-- The client's record exists and `wm()` still finds it. -/
def Live (s : Session) (c : Cid) : Prop := c < s.wm.z.refs ∧ c ∉ s.left

instance (s : Session) (c : Cid) : Decidable (s.Live c) :=
  inferInstanceAs (Decidable (c < s.wm.z.refs ∧ c ∉ s.left))

/-- A manager without clients, on a screen. -/
def start (screen : Rect) : Session := { wm := { screen := screen } }

/-- One turn of the main loop. -/
def step (m : Manager) (env : Env) (s : Session) : Event → Option Session
  | .opened id => some { s with wm := s.wm.addclient id }
  | .join c =>
    if s.Live c ∧ c ∉ s.joined then some { s with wm := s.wm.onJoin c, joined := c :: s.joined }
    else none
  | .leave c =>
    if s.Live c then some { s with wm := s.wm.onLeave m env c, left := c :: s.left } else none
  | .request c data ptr =>
    if s.Live c then
      (s.wm.handlerequest m env c data ptr).map fun (w, _) => { s with wm := w }
    else none
  | .key k => some { s with wm := s.wm.onKey k }
  | .pointer p taken => some { s with wm := s.wm.onPointer m p taken }
  | .winctl e img => some { s with wm := s.wm.onWinctl m env e img }

end Session

end Aimsgui
