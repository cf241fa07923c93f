import Aimsgui.Wm

/-!
# The requests of the clients

`handlerequest` of the window managers, with everything it calls. The managers are
copies of one program, so each function is written once and says by cases on the
`Manager` where the copies differ: `rowwm` stacks the windows as rows (`packWindows`),
keeps its clients with `Xwmsrv` and knows `wintype`; the others bring clients to the
front, and `tabswin` reports the keyboard focus to its controller.

A request is answered with nil or an error text. `!move` and `!size` also read pointer
events until the buttons are released; when these run out the manager waits, and the
model has no answer. Nor has it one where the source dereferences nil.
-/

namespace Aimsgui

/-- The window managers. -/
inductive Manager where
  | rowwm
  | tabswin
  | topwin
  deriving DecidableEq, Repr

/-- What a request is answered: nil, or an error. -/
abbrev Answer := Option String

/-- Which edges of a window the pointer moves. -/
structure Edges where
  minx : Bool
  miny : Bool
  maxx : Bool
  maxy : Bool
  deriving DecidableEq, Repr

namespace Wm

variable (m : Manager) (env : Env) (w : Wm) (c : Cid)

/-- `c.top()` -/
def top : Wm :=
  { w with z := match m with | .rowwm => Xwmsrv.top w.z c | _ => Wmsrv.top w.z c }

/-- `c.bottom()` -/
def bottom : Wm :=
  { w with z := match m with | .rowwm => Xwmsrv.bottom w.z c | _ => Wmsrv.bottom w.z c }

/-- `c.remove()` -/
def remove : Wm :=
  { w with z := match m with | .rowwm => Xwmsrv.remove w.z c | _ => Wmsrv.remove w.z c }

/-! ## The keyboard focus -/

/-- The cursor is set when the focus changes to a client with another cursor, or to none. -/
def setcursor (new : Option Cid) : Wm :=
  match w.kbdfocus, new with
  | _, none => w.wmctl "cursor"
  | none, some new => w.wmctl (w.client new).cursor
  | some old, some new =>
    if (w.client old).cursor ≠ (w.client new).cursor then w.wmctl (w.client new).cursor else w

/-- Only `tabswin` tells its controller about the focus. -/
def focusevent (e : String) : Wm :=
  match m with
  | .tabswin => w.controlevent ("kbdfocuschange " ++ e)
  | _ => w

/-- The client that has the focus is told that it loses it. -/
def losefocus : Wm :=
  match w.kbdfocus with
  | some old => w.ctl old "haskbdfocus 0"
  | none => w

/-- The focus goes to `new`, which is told so. -/
def givefocus : Option Cid → Wm
  | some c =>
    let w := ((w.focusevent m (toString (w.client c).id)).ctl c "raise").ctl c "haskbdfocus 1"
    { w with kbdfocus := some c }
  | none => { w.focusevent m "none" with kbdfocus := none }

/-- `setfocus` -/
def setfocus (new : Option Cid) : Wm :=
  if w.kbdfocus = new then w
  else
    let w := w.setcursor new
    if new.any fun c => !(w.client c).kbdstarted then w
    else w.losefocus.givefocus m new

/-! ## Rows -/

/-- The first client on the screen with that attribute. -/
def typed (a : String) : Option Cid := w.order.find? fun c => (w.client c).attrs = some a

/-- The first loop of `pack_windows`. -/
def packHeader : Wm :=
  match w.typed "header" with
  | some c => w.top .rowwm c
  | none => w

/-- The second loop of `pack_windows`. -/
def packFooter : Wm :=
  match w.typed "footer" with
  | some c => w.bottom .rowwm c
  | none => w

/-- Where `pack_windows` puts a window: across the whole width, below the last one. -/
def row (newr : Rect) (y : Int) (win : Window) : Int × Option Rect :=
  (y + win.r.dy, some ⟨⟨newr.min.x, y⟩, ⟨newr.max.x, y + win.r.dy⟩⟩)

/-- `pack_windows`, which does not look at its first argument. -/
def packWindows (newr : Rect) : Wm :=
  let w := w.packHeader.packFooter
  (replaceAll env newr (row newr) w newr.min.y w.order).1

/-- `reshape_floating`, and for the other managers the loops of `reshaped`. -/
def reshapeFloating (oldr newr : Rect) : Wm :=
  let place : Unit → Window → Unit × Option Rect := fun _ win =>
    ((), if m = .rowwm ∧ win.tag = "." then none else some (scaled oldr newr win.r))
  (replaceAll env newr place w () w.order).1

/-- `reshaped` as far as `pack_windows`: a new screen, and windows scaled to it. -/
def rescreened (newr : Rect) : Wm :=
  reshapeFloating m env { w with screen := newr } w.screen newr

/-- `reshaped`, when the manager's own window has got a new image. -/
def reshaped (newr : Rect) : Wm :=
  match m with
  | .rowwm => (w.rescreened m env newr).packWindows env newr
  | _ => w.rescreened m env newr

/-! ## Reshaping a window -/

/-- `fitrect`, which `tabswin` has cut down to the screen without its last lines. -/
def fitrect (w r : Rect) : Rect :=
  match m with
  | .tabswin => ⟨r.min, ⟨r.max.x, word (r.max.y - 23)⟩⟩
  | _ =>
    let w := if r.extent.x < w.extent.x then
        { w with max := ⟨word (w.min.x + r.extent.x), w.max.y⟩ } else w
    let w := if r.extent.y < w.extent.y then
        { w with max := ⟨w.max.x, word (w.min.y + r.extent.y)⟩ } else w
    let size := w.extent
    let w := if r.max.x < w.max.x then
        Rect.mk ⟨word (r.min.x - size.x), w.min.y⟩ ⟨word (r.max.x - size.x), w.max.y⟩ else w
    let w := if r.max.y < w.max.y then
        Rect.mk ⟨w.min.x, word (r.min.y - size.y)⟩ ⟨w.max.x, word (r.max.y - size.y)⟩ else w
    let w := if w.min.x < r.min.x then
        Rect.mk ⟨r.min.x, w.min.y⟩ ⟨word (r.min.x + size.x), w.max.y⟩ else w
    if w.min.y < r.min.y then
      Rect.mk ⟨w.min.x, r.min.y⟩ ⟨w.max.x, word (r.min.y + size.y)⟩ else w

/-- `newrect` -/
def newrect (r scr : Rect) : Wm × Rect :=
  let rl := (w.order.flatMap fun c => (w.client c).wins.map Window.r).reverse
  let lastrect := env.place rl scr w.lastrect r.extent
  ({ w with lastrect := lastrect }, lastrect)

/-- `samesize` of `reshape` -/
def Samesize (tag : String) (r : Rect) : Prop :=
  ∃ win ∈ (w.client c).window tag, win.r.extent = r.extent

instance (tag : String) (r : Rect) : Decidable (w.Samesize c tag r) :=
  match h : (w.client c).window tag with
  | none => isFalse (by simp [Samesize, h])
  | some win => decidable_of_iff (win.r.extent = r.extent) (by simp [Samesize, h])

/-- Whether `reshape` keeps the window's image and only moves it. -/
def Moves (tag : String) (r : Rect) : Prop :=
  (w.client c).fixedorigin = false ∧ w.Samesize c tag r

instance (tag : String) (r : Rect) : Decidable (w.Moves c tag r) :=
  inferInstanceAs (Decidable (_ ∧ _))

/-- The first half of `reshape`: the window gets its place, or an error says why not. -/
def reshapeImage (tag : String) (r : Rect) : Wm × Answer :=
  if w.Moves c tag r then ((w.setorigin env c tag r.min).1, none)
  else
    match w.newwindow env r with
    | (w, none) => (w, some ("window creation failed: " ++ env.errstr w.tick))
    | (w, some img) =>
      match w.setimage env c tag img with
      | (w, false) => (w, some "can't do two at once")
      | (w, true) => (w, none)

/-- A client that is not on the screen yet comes last. -/
def enlist : Wm := if c ∈ w.order then w else w.bottom .rowwm c

/-- `reshape` -/
def reshape (tag : String) (r : Rect) : Wm × Answer :=
  match w.reshapeImage env c tag r with
  | (w', some e) => (w', some e)
  | (w', none) =>
    match m with
    | .rowwm =>
      let w' := w'.enlist c
      if ¬ w.Samesize c tag r ∧ tag = "." then (w'.packWindows env w'.screen, none) else (w', none)
    | _ => (w'.top m c, none)

/-! ## Moving and sizing with the pointer -/

/-- Where `dragwin` shows the window: at least ten pixels of it stay on the screen. -/
def clamp (scr r : Rect) (org : Point) : Point :=
  let margin := 10
  let y := if org.y < scr.min.y then scr.min.y
    else if scr.max.y - margin < org.y then scr.max.y - margin else org.y
  let x := if org.x < scr.min.x ∧ org.x + r.dx < scr.min.x + margin then
      scr.min.x + margin - r.dx
    else if scr.max.x - margin < org.x then scr.max.x - margin else org.x
  ⟨x, y⟩

/-- The loop of `dragwin`: the window follows the pointer until the buttons are released. -/
def follow (win : Window) (off : Point) : Wm → List Pointer → Option (Wm × Pointer)
  | _, [] => none
  | w, p :: ps =>
    let w := w.send (.origin c win.tag (clamp w.screen win.r (p.xy.diff off)))
    if p.buttons = 0 then some (w, p) else follow win off w ps

/-- `dragwin` up to the call of `reshape`: the error, or where the window was dropped. -/
def drag (win : Window) (off : Point) (ptr : List Pointer) : Option (Wm × Except String Rect) :=
  if w.buttons = 0 then some (w, .error "too late")
  else if win.img = none then none
  else
    match follow c win off w ptr with
    | none => none
    | some (w, p) =>
      let w := { w.send (.ptr c (some p)) with buttons := 0 }
      let r := Rect.ofSize (p.xy.diff off) win.r.size
      some (w, if r = win.r then .error "not moved" else .ok r)

/-- `dragwin`, which does not look at the answer of `reshape`. -/
def dragwin (win : Window) (off : Point) (ptr : List Pointer) : Option (Wm × Answer) :=
  match w.drag c win off ptr with
  | none => none
  | some (w, .error e) => some (w, some e)
  | some (w, .ok r) => some ((reshape m env w c win.tag r).1, none)

/-- The loop of `sweep`: the edges that move follow the pointer. -/
def sweepLoop (move : Edges) (offset : Point) : Rect → List Pointer → Option Rect
  | _, [] => none
  | r, p :: ps =>
    if p.buttons = 0 then some r
    else
      let x := word (p.xy.x - offset.x)
      let y := word (p.xy.y - offset.y)
      sweepLoop move offset
        ⟨⟨if move.minx then x else r.min.x, if move.miny then y else r.min.y⟩,
          ⟨if move.maxx then x else r.max.x, if move.maxy then y else r.max.y⟩⟩ ps

/-- `sweep` -/
def sweep (scr : Rect) (r : Rect) (offset : Point) (move : Edges) (min : Point)
    (ptr : List Pointer) : Option Rect :=
  (sweepLoop move offset r ptr).map fun r =>
    let r := r.canon
    let r := if r.min.y < scr.min.y then Rect.canon ⟨⟨r.min.x, scr.min.y⟩, r.max⟩ else r
    let r := if r.extent.x < min.x then
        if move.maxx then Rect.mk r.min ⟨word (r.min.x + min.x), r.max.y⟩
        else Rect.mk ⟨word (r.max.x - min.x), r.min.y⟩ r.max
      else r
    if r.extent.y < min.y then
      if move.maxy then Rect.mk r.min ⟨r.max.x, word (r.min.y + min.y)⟩
      else if word (r.max.y - min.y) < scr.min.y then
        Rect.mk ⟨r.min.x, scr.min.y⟩ ⟨r.max.x, word (scr.min.y + min.y)⟩
      else Rect.mk ⟨r.min.x, word (r.max.y - min.y)⟩ r.max
    else r

/-- What the place where the button goes down says about sizing: the edges that move, the
distance kept to them, and the rectangle to begin with. -/
def grip (r : Rect) (xy : Point) : Edges × Point × Rect :=
  if r.contains xy then
    let left := decide (xy.x < (word (r.min.x + r.max.x)).tdiv 2)
    let upper := decide (xy.y < (word (r.min.y + r.max.y)).tdiv 2)
    (⟨left, upper, !left, !upper⟩,
      ⟨word (xy.x - if left then r.min.x else r.max.x),
        word (xy.y - if upper then r.min.y else r.max.y)⟩, r)
  else (⟨false, false, true, true⟩, ⟨0, 0⟩, ⟨xy, xy⟩)

/-- `sizewin` up to the call of `reshape`: the size that was swept. -/
def sizing (win : Window) (minsize : Point) (ptr : List Pointer) : Option Rect :=
  match ptr.dropWhile (·.buttons = 0) with
  | [] => none
  | p :: ps =>
    let (move, offset, r) := grip win.r p.xy
    sweep w.screen r offset move minsize ps

/-- `sizewin` -/
def sizewin (win : Window) (minsize : Point) (ptr : List Pointer) : Option (Wm × Answer) :=
  (w.sizing win minsize ptr).map fun r => reshape m env w c win.tag r

/-! ## The requests

`args` are the words after the first one. -/

/-- `"key"` -/
def keyRequest : List String → Wm × Answer
  | [s] => (w.send (.fakekbd s), none)
  | _ => (w, some "bad arg count")

/-- `"ptr"`: the pointer is moved, and the client told about its new place. -/
def ptrRequest (req : String) : List String → Wm × Answer
  | [x, y] =>
    if w.ptrfocus ≠ some c then (w, some "cannot move pointer")
    else
      match w.wmctl' env req with
      | (w, some _) => (w, none)
      | (w, none) =>
        let p : Pointer := ⟨w.buttons, ⟨int x, int y⟩, env.millisec w.tick⟩
        ((w.send (.ptr c none)).send (.ptr c (some p)), none)
  | _ => (w, some "bad arg count")

/-- `"cursor"` -/
def cursorRequest (req : String) (args : List String) : Wm × Answer :=
  if args.length ≠ 5 ∧ args.length ≠ 0 then (w, some "bad arg count")
  else
    let w := w.put c fun cl => { cl with cursor := req }
    if w.ptrfocus = some c ∨ w.kbdfocus = some c then w.wmctl' env req else (w, none)

/-- `"start"` -/
def startRequest : List String → Wm × Answer
  | [source] =>
    if source = "mouse" ∨ source = "ptr" then
      (w.put c fun cl => { cl with ptrstarted := true }, none)
    else if source = "kbd" then
      ((w.put c fun cl => { cl with kbdstarted := true }).setfocus m (some c), none)
    else if source = "control" then
      if (w.client c).controller then (w.put c fun cl => { cl with controlstarted := true }, none)
      else (w, some "control not available")
    else (w, some "unknown input source")
  | _ => (w, some "bad arg count")

/-- The rectangle of `!reshape`, placed in the way the request says. -/
def placement (r : Rect) : List String → Option (Wm × Rect)
  | [] => some (w, r)
  | how :: _ =>
    if how = "onscreen" then some (w, fitrect m r w.screen)
    else if how = "place" then
      match m with
      | .tabswin => some (w, fitrect m r w.screen)
      | _ => some (w.newrect env (fitrect m r w.screen) w.screen)
    else if how = "exact" then some (w, r)
    else if how = "max" then some (w, w.screen)
    else none

/-- `"!reshape"`: tag, reqid, rect, and how to place it. -/
def reshapeRequest : List String → Wm × Answer
  | tag :: _ :: x₀ :: y₀ :: x₁ :: y₁ :: how =>
    match w.placement m env ⟨⟨int x₀, int y₀⟩, ⟨int x₁, int y₁⟩⟩ how with
    | some (w, r) => reshape m env w c tag r
    | none => (w, some "unkown placement method")
  | _ => (w, some "bad arg count")

/-- `"delete"` -/
def deleteRequest : List String → Wm × Answer
  | tag :: _ =>
    let w := w.put c (·.dropwin tag)
    if (w.client c).wins = [] ∧ w.kbdfocus = some c then (w.setfocus m none, none) else (w, none)
  | [] => (w, some "tag required")

/-- `"!move"` and `"!size"`: tag, reqid and two numbers. The answer of `sizewin` is not
looked at. -/
def moveRequest (ismove : Bool) (ptr : List Pointer) : List String → Option (Wm × Answer)
  | tag :: _ :: args =>
    match (w.client c).window tag with
    | none => some (w, some "no such tag")
    | some win =>
      match args with
      | [x, y] =>
        if ismove then w.dragwin m env c win (Point.diff ⟨int x, int y⟩ win.r.min) ptr
        else (w.sizewin m env c win ⟨int x, int y⟩ ptr).map fun (w, _) => (w, none)
      | _ => some (w, some "bad arg count")
  | _ => some (w, some "bad arg count")

/-- `"kbdfocus"` -/
def kbdfocusRequest : List String → Wm × Answer
  | [on] =>
    if int on ≠ 0 then (w.setfocus m (some c), none)
    else if w.kbdfocus = some c then (w.setfocus m none, none)
    else (w, none)
  | _ => (w, some "bad arg count")

/-- `"ctl"`: a message of the controller to the client with that id. -/
def ctlRequest (args : List String) : Wm × Answer :=
  if (w.client c).controlstarted = false then (w, some "invalid request")
  else
    match args with
    | id :: msg :: msgs =>
      match w.order.find? fun z => ((w.client z).id : Int) = int id with
      | some z => (w.ctl z (quoted (msg :: msgs)), none)
      | none => (w, some "no such client")
    | _ => (w, some "bad arg count")

/-- `"endcontrol"` -/
def endcontrolRequest : Wm × Answer :=
  if w.controller ≠ some c then (w, some "invalid request")
  else
    let w := w.put c fun cl => { cl with controlstarted := false, controller := false }
    ({ w with controller := none, allowcontrol := true }, none)

/-- `"wintype"`, of `rowwm` only. -/
def wintypeRequest : List String → Wm × Answer
  | [wtype] => (w.put c fun cl => { cl with attrs := some wtype }, none)
  | _ => (w, some "bad arg count")

/-- A request that the manager does not know goes to the controller, if it is not its own. -/
def otherRequest (req : String) : Wm × Answer :=
  match w.controller with
  | none => (w, some "unknown control request")
  | some ctlr =>
    if ctlr = c ∨ (w.client ctlr).controlstarted = false then (w, some "unknown control request")
    else (w.ctl ctlr ("request " ++ toString (w.client c).id ++ " " ++ req), none)

/-- The `case` of `handlerequest`, without the requests that read pointer events. -/
def plainRequest (req cmd : String) (args : List String) : Wm × Answer :=
  match cmd with
  | "key" => w.keyRequest args
  | "ptr" => w.ptrRequest env c req args
  | "cursor" => w.cursorRequest env c req args
  | "start" => w.startRequest m c args
  | "!reshape" => w.reshapeRequest m env c args
  | "delete" => w.deleteRequest m c args
  | "raise" => match m with
    | .rowwm => (w, none)
    | _ => (w.top m c, none)
  | "lower" => match m with
    | .rowwm => (w, none)
    | _ => (w.bottom m c, none)
  | "fixedorigin" => (w.put c fun cl => { cl with fixedorigin := true }, none)
  | "rect" => (w, none)
  | "kbdfocus" => w.kbdfocusRequest m c args
  | "request" => (w, if (w.client c).controller then none else some "you are not in control")
  | "ctl" => w.ctlRequest c args
  | "endcontrol" => w.endcontrolRequest c
  | "wintype" => match m with
    | .rowwm => w.wintypeRequest c args
    | _ => w.otherRequest c req
  | _ => w.otherRequest c req

/-- `handlerequest` -/
def handlerequest (req : String) (ptr : List Pointer) : Option (Wm × Answer) :=
  match unquoted req with
  | [] => some (w, some "no request")
  | cmd :: args =>
    if req.toList.head? = some '!' ∧ args.length < 2 then some (w, some "bad arg count")
    else if cmd = "!move" ∨ cmd = "!size" then w.moveRequest m env c (cmd = "!move") ptr args
    else some (w.plainRequest m env c req cmd args)

/-- The call of `reshape` that `"!reshape"` makes. -/
def reshapeArgs : List String → Option (Wm × String × Rect)
  | tag :: _ :: x₀ :: y₀ :: x₁ :: y₁ :: how =>
    (w.placement m env ⟨⟨int x₀, int y₀⟩, ⟨int x₁, int y₁⟩⟩ how).map fun (w, r) => (w, tag, r)
  | _ => none

/-- The call of `reshape` that `"!move"` or `"!size"` makes. -/
def moveArgs (ismove : Bool) (ptr : List Pointer) : List String → Option (Wm × String × Rect)
  | [tag, _, x, y] =>
    match (w.client c).window tag with
    | none => none
    | some win =>
      if ismove then
        match w.drag c win (Point.diff ⟨int x, int y⟩ win.r.min) ptr with
        | some (w, .ok r) => some (w, win.tag, r)
        | _ => none
      else (w.sizing win ⟨int x, int y⟩ ptr).map fun r => (w, win.tag, r)
  | _ => none

/-- The call of `reshape` that a request makes, if it makes one: the manager at that
point, and the window's tag and new rectangle. -/
def reshapeCall (req : String) (ptr : List Pointer) : Option (Wm × String × Rect) :=
  match unquoted req with
  | [] => none
  | cmd :: args =>
    if cmd = "!move" ∨ cmd = "!size" then w.moveArgs c (cmd = "!move") ptr args
    else if cmd = "!reshape" then w.reshapeArgs m env args
    else none

end Wm

end Aimsgui
