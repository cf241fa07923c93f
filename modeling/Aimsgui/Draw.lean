import Mathlib.Order.Basic
import Mathlib.Data.Int.Order.Basic
import Aimsgui.Lib.Words

/-!
# Points, rectangles, images and pointer events

The part of the Draw module that the window managers use. Coordinates are
integers, `x` to the right and `y` downwards; a rectangle holds its upper left
and lower right corner, the lower right one excluded.

In the source coordinates are 32-bit words, and so are the width and the height that
`Rect.dx` and `Rect.dy` compute. A request may name corners that are `2 ^ 31` or more
apart, and two such sizes are the same for the source when they agree modulo `2 ^ 32`:
where sizes are compared, or limits computed from them, the model has `extent` and `word`,
and for the offset that a client names for a drag it has `diff`.
A window that is shown has been created by the display, which has memory for it; adding
its size to a coordinate of the screen stays far within a word.
-/

namespace Aimsgui

/-- What is left of a number in an `int`. -/
def word (n : Int) : Int := Words.wrap 32 n

/-- The range of `int`. -/
def Isint (n : Int) : Prop := -2 ^ 31 ≤ n ∧ n < 2 ^ 31

instance (n : Int) : Decidable (Isint n) := inferInstanceAs (Decidable (_ ∧ _))

theorem isint_word (n : Int) : Isint (word n) := Words.fits_wrap (by decide)

theorem word_of_isint {n : Int} (h : Isint n) : word n = n := Words.wrap_of_fits (by decide) h

/-- The sum or the difference of two `int`s is off by `2 ^ 32` if it does not fit. -/
theorem word_cases {n : Int} (hlo : -2 ^ 32 ≤ n) (hhi : n < 2 ^ 32) :
    (-2 ^ 31 ≤ n ∧ n < 2 ^ 31 ∧ word n = n) ∨ (2 ^ 31 ≤ n ∧ word n = n - 2 ^ 32) ∨
      n < -2 ^ 31 ∧ word n = n + 2 ^ 32 := by
  rcases lt_or_ge n (-2 ^ 31) with hlow | hlow
  · exact Or.inr (Or.inr ⟨hlow, Words.wrap_of_lt (by decide) (by omega) hlow⟩)
  · rcases lt_or_ge n (2 ^ 31) with hhigh | hhigh
    · exact Or.inl ⟨hlow, hhigh, word_of_isint ⟨hlow, hhigh⟩⟩
    · exact Or.inr (Or.inl ⟨hhigh, Words.wrap_of_ge (by decide) hhigh (by omega)⟩)

/-- A point of the plane. -/
structure Point where
  x : Int
  y : Int
  deriving DecidableEq, Repr, Inhabited

namespace Point

/-- `Point.add` -/
def add (p q : Point) : Point := ⟨p.x + q.x, p.y + q.y⟩

/-- `Point.sub` -/
def sub (p q : Point) : Point := ⟨p.x - q.x, p.y - q.y⟩

/-- `Point.sub`, where the difference may not be an `int`. -/
def diff (p q : Point) : Point := ⟨word (p.x - q.x), word (p.y - q.y)⟩

@[simp] theorem add_x (p q : Point) : (p.add q).x = p.x + q.x := rfl
@[simp] theorem add_y (p q : Point) : (p.add q).y = p.y + q.y := rfl
theorem ext_iff' {p q : Point} : p = q ↔ p.x = q.x ∧ p.y = q.y := by
  cases p; cases q
  simp

end Point

/-- A rectangle: upper left corner `min`, lower right corner `max`. -/
structure Rect where
  min : Point
  max : Point
  deriving DecidableEq, Repr, Inhabited

namespace Rect

/-- `Rect.dx` -/
def dx (r : Rect) : Int := r.max.x - r.min.x

/-- `Rect.dy` -/
def dy (r : Rect) : Int := r.max.y - r.min.y

/-- `Rect.size` -/
def size (r : Rect) : Point := ⟨r.dx, r.dy⟩

/-- The size as a pair of words. -/
def extent (r : Rect) : Point := ⟨word r.dx, word r.dy⟩

/-- Make sure that `min ≤ max`. -/
def canon (r : Rect) : Rect :=
  ⟨⟨if r.max.x < r.min.x then r.max.x else r.min.x, if r.max.y < r.min.y then r.max.y else r.min.y⟩,
   ⟨if r.max.x < r.min.x then r.min.x else r.max.x, if r.max.y < r.min.y then r.min.y else r.max.y⟩⟩

/-- Whether the point lies in the rectangle (`Point.in` of the source). -/
def contains (r : Rect) (p : Point) : Bool :=
  decide (r.min.x ≤ p.x ∧ p.x < r.max.x ∧ r.min.y ≤ p.y ∧ p.y < r.max.y)

/-- `Rect.addpt` -/
def addpt (r : Rect) (p : Point) : Rect := ⟨r.min.add p, r.max.add p⟩

/-- `Rect.subpt` -/
def subpt (r : Rect) (p : Point) : Rect := ⟨r.min.sub p, r.max.sub p⟩

/-- The rectangle of a given size at a given origin. -/
def ofSize (o size : Point) : Rect := ⟨o, o.add size⟩

@[simp] theorem ofSize_min (o size : Point) : (ofSize o size).min = o := rfl

@[simp] theorem size_ofSize (o size : Point) : (ofSize o size).size = size := by
  obtain ⟨w, h⟩ := size
  simp only [ofSize, Rect.size, dx, dy, Point.add_x, Point.add_y, Point.mk.injEq]
  omega

theorem extent_congr {r r' : Rect} (h : r.size = r'.size) : r.extent = r'.extent := by
  obtain ⟨hx, hy⟩ := Point.mk.inj h
  rw [extent, hx, hy, extent]

theorem ext_iff' {r r' : Rect} : r = r' ↔
    (r.min.x = r'.min.x ∧ r.min.y = r'.min.y) ∧ r.max.x = r'.max.x ∧ r.max.y = r'.max.y := by
  rw [← Point.ext_iff', ← Point.ext_iff']
  cases r; cases r'
  simp

/-- A rectangle is determined by its origin and its size. -/
theorem eq_of_min_of_size {r r' : Rect} (hmin : r.min = r'.min) (hsize : r.size = r'.size) :
    r = r' := by
  obtain ⟨⟨a, b⟩, ⟨c, d⟩⟩ := r
  obtain ⟨⟨a', b'⟩, ⟨c', d'⟩⟩ := r'
  simp only [Rect.size, dx, dy, Point.mk.injEq] at hmin hsize
  obtain ⟨rfl, rfl⟩ := hmin
  obtain ⟨hx, hy⟩ := hsize
  simp only [Rect.mk.injEq, Point.mk.injEq, true_and]
  omega

/-- The corners are points of the source, whose coordinates are of type `int`. -/
def Int32 (r : Rect) : Prop :=
  (Isint r.min.x ∧ Isint r.min.y) ∧ Isint r.max.x ∧ Isint r.max.y

instance (r : Rect) : Decidable r.Int32 := inferInstanceAs (Decidable (_ ∧ _))

end Rect

/-- A window's image. `id` tells images apart; `r` is the rectangle it was created with. -/
structure Image where
  id : Nat
  r : Rect
  deriving DecidableEq, Repr, Inhabited

/-- A pointer event. -/
structure Pointer where
  buttons : Int
  xy : Point
  msec : Int
  deriving DecidableEq, Repr, Inhabited

end Aimsgui
