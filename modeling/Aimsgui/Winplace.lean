import Aimsgui.Draw
import Aimsgui.Lib.Bisect
import Aimsgui.Lib.Shellsort
import Aimsgui.Lib.Slices

/-!
# Room for a new window

`Winplace`, which finds the place for a new window. A line sweeps over the screen, once from
left to right and once downwards. It stops wherever a window starts or ends, and keeps the ends of the
windows that it crosses in order (`addwin`, `removewin`). Between them are the rectangles
that no window has covered since some earlier stop; when a window gets in the way of such a
rectangle, it is one of the free rectangles that are found (`select`).

What the source does with arrays is done here with lists of the same length, and has no value where
the source would be out of bounds or panic.
-/

namespace Aimsgui

namespace Rect

/-- `Rect.inset` -/
def inset (r : Rect) (n : Int) : Rect :=
  ⟨⟨r.min.x + n, r.min.y + n⟩, ⟨r.max.x - n, r.max.y - n⟩⟩

end Rect

/-- `Point.div` -/
def Point.div (p : Point) (n : Int) : Point := ⟨p.x.tdiv n, p.y.tdiv n⟩

namespace Winplace

open Slices

/-- An end of a window. -/
structure Delta where
  /-- `1` where the window starts, `-1` where it ends -/
  d : Int
  /-- the window, as an index -/
  wid : Nat
  coord : Int
  deriving DecidableEq, Repr, Inhabited

/-- The direction of the sweep. -/
inductive Lay where
  | EW | NS
  deriving DecidableEq, Repr

namespace Lay

/-- The coordinate along which the line moves. -/
def x : Lay → Point → Int
  | EW, p => p.x
  | NS, p => p.y

/-- The coordinate along the line. -/
def y : Lay → Point → Int
  | EW, p => p.y
  | NS, p => p.x

/-- A rectangle that the sweep has found, in the coordinates of the screen. -/
def mkr : Lay → Rect → Rect
  | EW, r => r
  | NS, r => ⟨⟨r.min.y, r.min.x⟩, ⟨r.max.y, r.max.x⟩⟩

end Lay

/-! ## The ends of the windows -/

/-- The next distance between the elements that `sortdelta` compares. -/
def gap (m : Nat) : Nat := if m < 5 then 1 else (5 * m - 1) / 11

/-- The outer loop of `sortdelta`. The first argument bounds the number of passes. -/
def passes : Nat → Nat → List Delta → List Delta
  | 0, _, a => a
  | n + 1, m, a => if 1 < m then passes n (gap m) (Shellsort.pass Delta.coord (gap m) a) else a

/-- `sortdelta`, a Shellsort by the coordinate; it is not stable. The last pass compares neighbours.
-/
def sortdelta (a : List Delta) : List Delta := passes a.length a.length a

/-- `sortcoords`: the ends of the windows along the way of the line, in order. -/
def sortcoords (wr : List Rect) (lay : Lay) : List Delta :=
  sortdelta (wr.zipIdx.flatMap fun (r, i) => [⟨1, i, lay.x r.min⟩, ⟨-1, i, lay.x r.max⟩])

/-- `findcoord`: an index at which the coordinate could be put in, among the first `nd` ends. -/
def findcoord (d : List Delta) (nd : Nat) (coord : Int) : Nat :=
  Bisect.search Delta.coord coord d nd 0 nd

/-- How far it is to `df`, among the first elements with the same coordinate. -/
def run (df : Delta) : List Delta → Option Nat
  | [] => none
  | e :: l =>
    if e.coord = df.coord then if e = df then some 0 else (run df l).map (· + 1) else none

/-- `finddelta`: the index of the end `df`. Ends with the same coordinate are in no order, so it
looks to the right of the index that `findcoord` gives, and then to the left. -/
def finddelta (d : List Delta) (nd : Nat) (df : Delta) : Option Nat :=
  let idx := findcoord d nd df.coord
  match run df ((d.take nd).drop idx) with
  | some k => some (idx + k)
  | none => (run df (d.take idx).reverse).map fun k => idx - 1 - k

/-- `addwin`: the ends of the window `wid` are put in where they belong. The blocks are moved inside
the array, which has to have room for two more. -/
def addwin (d : List Delta) (nd wid : Nat) (min max : Int) : Option (List Delta × Nat) := do
  let minidx := findcoord d nd min
  let maxidx := findcoord d nd max
  let d ← blit d (maxidx + 2) (← slice d maxidx nd)
  let d ← blit d (maxidx + 1) [⟨-1, wid, max⟩]
  let d ← blit d (minidx + 1) (← slice d minidx maxidx)
  let d ← blit d minidx [⟨1, wid, min⟩]
  return (d, nd + 2)

/-- Without a value where the source panics. -/
def removewin (d : List Delta) (nd wid : Nat) (min max : Int) : Option (List Delta × Nat) := do
  let minidx ← finddelta d nd ⟨1, wid, min⟩
  let maxidx ← finddelta d nd ⟨-1, wid, max⟩
  if minidx = maxidx then none
  else
    let d ← blit d minidx (← slice d (minidx + 1) maxidx)
    let d ← blit d (maxidx - 1) (← slice d (maxidx + 1) nd)
    return (d, nd - 2)

/-! ## The sweep -/

/-- `addfound`: an empty rectangle is not kept. -/
def addfound (found : List Rect) (r : Rect) : List Rect :=
  if r.max.x - r.min.x < 1 ∨ r.max.y - r.min.y < 1 then found else r :: found

/-- `r.max.x = xcoord` -/
def shut (xcoord : Int) (r : Rect) : Rect := { r with max := ⟨xcoord, r.max.y⟩ }

section Select

variable (xcoord start stop : Int)

/-- A rectangle that starts here. -/
def fresh : Rect := ⟨⟨xcoord, start⟩, ⟨xcoord, stop⟩⟩

/-- `r` between `start` and `stop` -/
def clip (r : Rect) : Rect :=
  ⟨⟨r.min.x, if r.min.y < start then start else r.min.y⟩,
    ⟨r.max.x, if stop < r.max.y then stop else r.max.y⟩⟩

/-- The loop of `select`: the rectangles that are left of `rl`, `nrl` and the rectangles that are found.
`stop` is `end` in the source. -/
def select : Bool → List Rect → List Rect → List Rect → List Rect × List Rect × List Rect
  | made, [], nrl, found => ([], if made then nrl else fresh xcoord start stop :: nrl, found)
  | made, r₀ :: rl, nrl, found =>
    let r := shut xcoord r₀
    if stop ≤ r.min.y then (r₀ :: rl, if made then nrl else fresh xcoord start stop :: nrl, found)
    else if r.min.y = start ∧ r.max.y = stop then select true rl (r :: nrl) found
    else
      let nrl := if made = false ∧ start < r.min.y then fresh xcoord start stop :: nrl else nrl
      let made := made || decide (start < r.min.y)
      if stop < r.max.y ∨ r.min.y < start then
        let r' := clip start stop r
        select made rl (if r'.min.y < r'.max.y then r' :: nrl else nrl) (r :: found)
      else select made rl (r :: nrl) found

end Select

/-- The variables of `sweep`. -/
structure Sweep where
  cr : List Delta
  ncr : Nat
  rl : List Rect
  found : List Rect
  deriving DecidableEq, Repr

/-- The inner loop of `sweep`, over the ends of the windows that the line crosses. -/
def scan (lay : Lay) (xcoord : Int) : Int → List Delta → List Rect → List Rect → List Rect →
    List Rect × List Rect × List Rect
  | count, e :: e' :: cr, rl, nrl, found =>
    if count + e.d = 0 ∧ e.coord < e'.coord then
      let (rl, nrl, nf) := select xcoord e.coord e'.coord false rl nrl []
      scan lay xcoord (count + e.d) (e' :: cr) rl nrl
        (nf.foldl (fun found r => addfound found (lay.mkr r)) found)
    else scan lay xcoord (count + e.d) (e' :: cr) rl nrl found
  | _, _, rl, nrl, found => (rl, nrl, found)

/-- The line stops at `e`. -/
def stop (wr : List Rect) (lay : Lay) (e : Delta) (s : Sweep) : Option Sweep := do
  let w ← wr[e.wid]?
  let (cr, ncr) ←
    if 0 < e.d then addwin s.cr s.ncr e.wid (lay.y w.min) (lay.y w.max)
    else removewin s.cr s.ncr e.wid (lay.y w.min) (lay.y w.max)
  let (rl, nrl, found) := scan lay e.coord 0 (cr.take ncr) s.rl [] s.found
  return {
    cr := cr
    ncr := ncr
    rl := nrl.reverse
    found := rl.foldl (fun found r => addfound found (lay.mkr (shut e.coord r))) found }

/-- `sweep`: the line goes over all ends, and what has been found is added to `found`. -/
def sweep (wr : List Rect) (lay : Lay) (found : List Rect) : Option (List Rect) :=
  ((sortcoords wr lay).foldlM (fun s e => stop wr lay e s)
    ⟨List.replicate (2 * wr.length) default, 0, [], found⟩).map Sweep.found

/-- The border of the screen, as windows. -/
def sentinels (scr : Rect) : List Rect :=
  let scr2 := scr.inset (-1)
  [⟨⟨scr.max.x, scr2.min.y⟩, ⟨scr2.max.x, scr2.max.y⟩⟩,
    ⟨⟨scr.min.x, scr.max.y⟩, ⟨scr.max.x, scr2.max.y⟩⟩,
    ⟨⟨scr2.min.x, scr2.min.y⟩, ⟨scr.min.x, scr2.max.y⟩⟩,
    ⟨⟨scr.min.x, scr2.min.y⟩, ⟨scr.max.x, scr.min.y⟩⟩]

/-- `find`: the free rectangles of both sweeps. `wr` begins with the border, then the windows, the
last one first. -/
def find (wins : List Rect) (scr : Rect) : Option (List Rect) := do
  let wr := sentinels scr ++ wins.reverse
  let found ← sweep wr .EW []
  sweep wr .NS found

/-! ## The choice -/

/-- `better`: higher on the screen, or as high and farther to the left. -/
def better (r₁ r₂ : Rect) : Prop :=
  r₁.min.y < r₂.min.y ∨ r₁.min.y = r₂.min.y ∧ r₁.min.x < r₂.min.x

instance (r₁ r₂ : Rect) : Decidable (better r₁ r₂) := inferInstanceAs (Decidable (_ ∨ _))

/-- The best of the rectangles that are big enough, if any is. -/
def findfit (found : List Rect) (minsize : Point) : Option Rect :=
  found.foldl (fun best r =>
    if r.dx < minsize.x ∨ r.dy < minsize.y then best
    else
      match best with
      | none => some r
      | some b => if better r b then some r else some b) none

/-- How much of a title bar is kept in view. -/
def TBARWIDTH : Int := 100
/-- The height of a title bar. -/
def TBARHEIGHT : Int := 20

/-- `titlebarrects`: the right ends of the title bars, the last window first. -/
def titlebarrects (rl : List Rect) : List Rect :=
  (rl.map fun r => ⟨⟨max (r.max.x - TBARWIDTH) r.min.x, r.min.y⟩,
    ⟨r.max.x, min (r.min.y + TBARHEIGHT) r.max.y⟩⟩).reverse

/-- `somespace`: where no place is free, a bit below and to the right of the last one, or in the
corner of the screen. -/
def somespace (scr lastrect : Rect) (minsize : Point) : Rect :=
  let r := (Rect.ofSize lastrect.min minsize).addpt ⟨20, 20⟩
  if scr.max.x < r.max.x ∨ scr.max.y < r.max.y then .ofSize scr.min minsize else r

/-- `checkrect`: the rectangle is moved inside the screen as far as it fits. -/
def checkrect (r scr : Rect) : Rect :=
  let r := if scr.max.x < r.max.x then r.subpt ⟨r.max.x - scr.max.x, 0⟩ else r
  let r := if scr.max.y < r.max.y then r.subpt ⟨0, r.max.y - scr.max.y⟩ else r
  let off := r.min.sub scr.min
  r.subpt ⟨min off.x 0, min off.y 0⟩

/-- `clipsize`: not more than `size` of the rectangle. -/
def clipsize (r : Rect) (size : Point) : Rect :=
  ⟨r.min, ⟨if size.x < r.dx then r.min.x + size.x else r.max.x,
    if size.y < r.dy then r.min.y + size.y else r.max.y⟩⟩

/-- The largest of the rectangles, after it is clipped. -/
def largest (minsize : Point) (r : Rect) (found : List Rect) : Rect :=
  found.foldl (fun best r =>
    let r := clipsize r minsize
    if best.dx * best.dy < r.dx * r.dy ∨ r.dx * r.dy = best.dx * best.dy ∧ better r best then r
    else best) (clipsize r minsize)

/-- `Winplace.place`: a free rectangle if one is big enough, or one that covers no title bar, or the
largest that there is. A `minsize` of zero asks for all the room. -/
def place (wins : List Rect) (scr lastrect : Rect) (minsize : Point) : Option Rect := do
  let found ← find wins scr
  -- nothing fits if nothing is found
  match findfit found minsize with
  | some best => return if minsize.x = 0 then best else .ofSize best.min minsize
  | none =>
    let minsize := if found ≠ [] ∧ minsize.x = 0 then scr.size.div 2 else minsize
    let tfound ← find (titlebarrects wins) scr
    match findfit tfound minsize, found with
    | some best, _ => return .ofSize best.min minsize
    | none, [] => return somespace scr lastrect minsize
    | none, r :: found => return checkrect (.ofSize (largest minsize r found).min minsize) scr

end Winplace

end Aimsgui
