import Aimsgui.Strings
import Aimsgui.Zorder

/-!
# The state of a window manager and its clients

The managers `rowwm` (alertswin) and the `wm` of `tabswin` and `topwin` are copies of one
program; this module has what they share with the libraries that keep the clients.
Everything the main loop sends is logged in `out`, in order; the modules on requests and on
joining say who receives it. What comes from outside (whether a window could be created,
whether a client's `childminder` accepted an image) is asked of an `Env`, one question at a
time.
-/

namespace Aimsgui

/-- A window of a client. -/
structure Window where
  tag : String
  r : Rect
  img : Option Image
  deriving DecidableEq, Repr

/-- A client's record: its flags, the first of its attributes, its windows. -/
structure Client where
  id : Nat := 0
  ptrstarted : Bool := false
  kbdstarted : Bool := false
  controlstarted : Bool := false
  controller : Bool := false
  fixedorigin : Bool := false
  /-- `attrs[0]`, when there are attributes -/
  attrs : Option String := none
  cursor : String := ""
  wins : List Window := []
  deriving DecidableEq, Repr

/-- Something the main loop sends. -/
inductive Send where
  | kbd (c : Cid) (k : Int)
  | ptr (c : Cid) (p : Option Pointer)
  | ctl (c : Cid) (e : String)
  /-- an image request, and whether it was accepted -/
  | image (c : Cid) (o : Option Point) (i : Image) (ok : Bool)
  | stop (c : Cid)
  /-- to the process that buffers injected keys -/
  | fakekbd (s : String)
  /-- a request about the manager's own window -/
  | wmctl (s : String)
  /-- the window is shown at a point while it is dragged -/
  | origin (c : Cid) (tag : String) (org : Point)
  deriving DecidableEq, Repr

/-- The answers from outside, by the number of the question. -/
structure Env where
  /-- whether `screen.newwindow` succeeds -/
  newwindow : Nat → Bool
  /-- whether `childminder` accepts an image request -/
  accepts : Nat → Bool
  /-- the answer to a request about the manager's own window -/
  wmctl : Nat → Option String
  millisec : Nat → Int
  /-- the text of `%r` -/
  errstr : Nat → String
  /-- `winplace->place` -/
  place : List Rect → Rect → Rect → Point → Rect

/-- Every window can be created, and every image is accepted. -/
instance : Inhabited Env :=
  ⟨{ newwindow := fun _ => true
     accepts := fun _ => true
     wmctl := fun _ => none
     millisec := fun _ => 0
     errstr := fun _ => ""
     place := fun _ r _ _ => r }⟩

/-- The variables of a window manager. -/
structure Wm where
  client : Cid → Client := fun _ => {}
  z : Zorder := {}
  /-- `screen.image.r` -/
  screen : Rect
  ptrfocus : Option Cid := none
  kbdfocus : Option Cid := none
  controller : Option Cid := none
  allowcontrol : Bool := true
  buttons : Int := 0
  lastrect : Rect := ⟨⟨0, 0⟩, ⟨0, 0⟩⟩
  /-- the number of questions asked of the environment -/
  tick : Nat := 0
  out : List Send := []

namespace Client

/-- `Client.window` -/
def window (c : Client) (tag : String) : Option Window := c.wins.find? (·.tag = tag)

/-- `Client.contains` -/
def contains (c : Client) (p : Point) : Bool := c.wins.any fun w => w.r.contains p

/-- `Client.setimage` without an image: the window is taken off the list. -/
def dropwin (c : Client) (tag : String) : Client :=
  match c.wins with
  | w :: ws => if w.tag = tag then { c with wins := ws }
    else { c with wins := c.wins.filter (·.tag ≠ tag) }
  | [] => c

/-- Change the first window with that tag. -/
def updatewin (tag : String) (f : Window → Window) : List Window → List Window
  | [] => []
  | w :: ws => if w.tag = tag then f w :: ws else w :: updatewin tag f ws

/-- The windows after `Client.setimage` has recorded the image. -/
def putimage (c : Client) (tag : String) (img : Image) : Client :=
  match c.window tag with
  | none => { c with wins := ⟨tag, img.r, some img⟩ :: c.wins }
  | some _ => { c with wins := updatewin tag (fun w => { w with img := some img, r := img.r }) c.wins }

/-- The windows after `Client.setorigin` has recorded the origin. -/
def putrect (c : Client) (tag : String) (r : Rect) : Client :=
  { c with wins := updatewin tag (fun w => { w with r := r }) c.wins }

end Client

namespace Wm

/-- The clients on the screen, front first. -/
def order (w : Wm) : List Cid := w.z.order

/-- Change a client's record. -/
def put (w : Wm) (c : Cid) (f : Client → Client) : Wm :=
  { w with client := Function.update w.client c (f (w.client c)) }

/-- A message is sent. -/
def send (w : Wm) (s : Send) : Wm := { w with out := w.out ++ [s] }

/-- `c.ctl <-= e` -/
def ctl (w : Wm) (c : Cid) (e : String) : Wm := w.send (.ctl c e)

/-- `find` -/
def find (w : Wm) (p : Point) : Option Cid := w.order.find? fun c => (w.client c).contains p

/-- `screen.newwindow(r, …)` -/
def newwindow (env : Env) (w : Wm) (r : Rect) : Wm × Option Image :=
  ({ w with tick := w.tick + 1 }, if env.newwindow w.tick then some ⟨w.tick, r⟩ else none)

/-- `c.images <-= (o, i, rc)` and the answer. -/
def images (env : Env) (w : Wm) (c : Cid) (o : Option Point) (i : Image) : Wm × Bool :=
  (send { w with tick := w.tick + 1 } (.image c o i (env.accepts w.tick)), env.accepts w.tick)

/-- `Client.setimage` with an image: whether the client accepted it. -/
def setimage (env : Env) (w : Wm) (c : Cid) (tag : String) (img : Image) : Wm × Bool :=
  images env (w.put c (·.putimage tag img)) c none img

/-- `Client.setorigin`: whether the client was told. -/
def setorigin (env : Env) (w : Wm) (c : Cid) (tag : String) (o : Point) : Wm × Bool :=
  match ((w.client c).window tag).bind Window.img with
  | none => (w, false)
  | some img =>
    match images env w c (some o) img with
    | (w, true) => (w.put c (·.putrect tag (Rect.ofSize o img.r.size)), true)
    | (w, false) => (w, false)

/-- `controlevent` -/
def controlevent (w : Wm) (e : String) : Wm :=
  match w.controller with
  | some ctlr => if (w.client ctlr).controlstarted then w.ctl ctlr e else w
  | none => w

/-- `wmclient->win.wmctl(req)` where the answer is not looked at. -/
def wmctl (w : Wm) (req : String) : Wm := w.send (.wmctl req)

/-- `wmclient->win.wmctl(req)` and its answer. -/
def wmctl' (env : Env) (w : Wm) (req : String) : Wm × Option String :=
  ({ w.wmctl req with tick := w.tick + 1 }, env.wmctl w.tick)

/-! ## Placing windows anew -/

/-- `r2s` -/
def r2s (r : Rect) : String :=
  toString r.min.x ++ " " ++ toString r.min.y ++ " " ++ toString r.max.x ++ " " ++ toString r.max.y

/-- The message that tells a client about the new place of a window:
`sprint("!reshape %q -1 %s", tag, r2s(r))`. -/
def reshapeMsg (tag : String) (r : Rect) : String :=
  "!reshape " ++ sprintq tag ++ " -1 " ++ r2s r

/-- The words of a message about a window's place. A tag with a NUL in it does not come
through. -/
theorem unquoted_reshapeMsg (tag : String) (r : Rect) :
    unquoted (reshapeMsg tag r) = ["!reshape", cstring tag, "-1", toString r.min.x,
      toString r.min.y, toString r.max.x, toString r.max.y] := by
  have hreshape : Plain "!reshape" := by decide
  have hreqid : Plain "-1" := by decide
  rw [← unquoted_sprintq hreshape, quoted_cons_of_plain hreqid,
    quoted_cons_of_plain (plain_toString _), quoted_cons_of_plain (plain_toString _),
    quoted_cons_of_plain (plain_toString _), quoted_singleton_of_plain (plain_toString _),
    reshapeMsg, r2s]
  simp only [String.append_assoc]
  rfl

/-- A message says the same about a tag and about what comes through of it. -/
@[simp] theorem reshapeMsg_cstring (tag : String) (r : Rect) :
    reshapeMsg (cstring tag) r = reshapeMsg tag r := by
  simp only [reshapeMsg, sprintq, cstring_cstring]

section Replace

variable {σ : Type}

/-- The inner loop over a client's windows: `place` says where a window goes, if anywhere,
and what it leaves for the next one. A window that is placed gets a new image and its
client is told. -/
def replaceWins (env : Env) (newr : Rect) (place : σ → Window → σ × Option Rect) (c : Cid) :
    Wm → σ → List Window → Wm × σ × List Window
  | w, s, [] => (w, s, [])
  | w, s, win :: wins =>
    match place s win with
    | (s, none) =>
      let (w, s, wins) := replaceWins env newr place c w s wins
      (w, s, win :: wins)
    | (s, some nr) =>
      let (w, img) := newwindow env w nr
      let w := (w.ctl c (reshapeMsg win.tag nr)).ctl c ("rect " ++ r2s newr)
      let (w, s, wins) := replaceWins env newr place c w s wins
      (w, s, { win with r := nr, img := img } :: wins)

/-- The outer loop over the clients. -/
def replaceAll (env : Env) (newr : Rect) (place : σ → Window → σ × Option Rect) :
    Wm → σ → List Cid → Wm × σ
  | w, s, [] => (w, s)
  | w, s, c :: cs =>
    let (w, s, wins) := replaceWins env newr place c w s (w.client c).wins
    replaceAll env newr place (w.put c fun cl => { cl with wins := wins }) s cs

end Replace

/-- The factor of the fixed-point scaling. -/
def Fix : Int := 1000

/-- A window rectangle, scaled from the old screen to the new one. -/
def scaled (oldr newr r : Rect) : Rect :=
  let mx := if 0 < oldr.dx then (newr.dx * Fix).tdiv oldr.dx else Fix
  let my := if 0 < oldr.dy then (newr.dy * Fix).tdiv oldr.dy else Fix
  let nr := r.subpt oldr.min
  (Rect.mk ⟨(nr.min.x * mx).tdiv Fix, (nr.min.y * my).tdiv Fix⟩
    ⟨(nr.max.x * mx).tdiv Fix, (nr.max.y * my).tdiv Fix⟩).addpt newr.min

end Wm

end Aimsgui
