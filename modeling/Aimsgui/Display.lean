import Aimsgui.Lib.Layers
import Aimsgui.Floating
import Aimsgui.Origins

/-!
# Hit-testing and the display

`find` goes through the clients in the z-order; what the user sees is the display, where
windows lie on one another in an order of their own. `Display` runs `rowwm` together with
that stack: a window that is created comes first, `screen.top` and `screen.bottom` move the
windows of a client, and everything else leaves the stack alone. A repack creates all windows
anew, and as rows they do not overlap; but a pop-up window comes to the front of the display
while its client stays where it is in the z-order. And a window that is dragged moves on the
display, while its recorded rectangle, which `find` looks at, does not. `find_eq_front` says when
the two agree.
-/

namespace Aimsgui

open Transition Zorder Layers

/-- A window on the display: the client it was created for, and its image. -/
structure Pane where
  owner : Cid
  id : Nat
  deriving DecidableEq, Repr

namespace Rect

/-- The rectangles have a point in common. -/
def Overlaps (r s : Rect) : Prop :=
  Max.max r.min.x s.min.x < Min.min r.max.x s.max.x ∧
    Max.max r.min.y s.min.y < Min.min r.max.y s.max.y

instance (r s : Rect) : Decidable (Overlaps r s) := inferInstanceAs (Decidable (_ ∧ _))

theorem overlaps_of_contains {r s : Rect} {p : Point} (hr : r.contains p = true)
    (hs : s.contains p = true) : r.Overlaps s := by
  simp only [contains, decide_eq_true_eq] at hr hs
  rw [Overlaps]
  omega

end Rect

namespace Wm

variable {env : Env} {w w' : Wm} {c a : Cid} {tag : String} {r newr : Rect} {p : Point}
  {panes : List Pane} {left : List Cid}

/-! ## What the manager does to the display -/

/-- `clientimages` -/
def clientimages (w : Wm) (c : Cid) : List Nat :=
  (w.client c).wins.filterMap fun win => win.img.map Image.id

/-- The pane is one of the client's. -/
def isPane (w : Wm) (c : Cid) (e : Pane) : Bool :=
  decide (e.owner = c) && decide (e.id ∈ w.clientimages c)

/-- `screen.top(clientimages(c))` -/
def screentop (w : Wm) (c : Cid) (panes : List Pane) : List Pane :=
  panes.filter (w.isPane c) ++ panes.filter (!w.isPane c ·)

/-- `screen.bottom(clientimages(c))`, unless the client is `bottom` -/
def screenbottom (w : Wm) (c : Cid) (panes : List Pane) : List Pane :=
  if w.z.bottom = some c then panes
  else panes.filter (!w.isPane c ·) ++ panes.filter (w.isPane c)

/-- The windows that were created for the client, front first: the last one comes first. -/
def created (c : Cid) (wins : List Window) : List Pane :=
  (wins.filterMap fun win => win.img.map fun i => ⟨c, i.id⟩).reverse

/-- The windows that were created for all clients on the screen. -/
def allcreated (w : Wm) (which : Window → Bool) : List Pane :=
  w.order.reverse.flatMap fun c => created c ((w.client c).wins.filter which)

/-- What `pack_windows` does: the header comes to the front and the footer goes to the back, and
then every window is created anew. -/
def packedPanes (env : Env) (w : Wm) (panes : List Pane) : List Pane :=
  let panes := match w.typed "header" with
    | some c => w.screentop c panes
    | none => panes
  let panes := match w.packHeader.typed "footer" with
    | some c => w.packHeader.screenbottom c panes
    | none => panes
  (w.packWindows env w.screen).allcreated (fun _ => true) ++ panes

/-- What the first half of `reshape` does. -/
def imagedPanes (env : Env) (w : Wm) (c : Cid) (tag : String) (r : Rect) (panes : List Pane) :
    List Pane :=
  if w.Moves c tag r then panes
  else
    match (w.newwindow env r).2 with
    | some img => ⟨c, img.id⟩ :: panes
    | none => panes

/-- What `reshape` does before it packs. -/
def reshapedPanes (env : Env) (w : Wm) (c : Cid) (tag : String) (r : Rect) (panes : List Pane) :
    List Pane :=
  match w.reshapeImage env c tag r with
  | (_, some _) => w.imagedPanes env c tag r panes
  | (w', none) =>
    if c ∈ w'.order then w.imagedPanes env c tag r panes
    else w'.screenbottom c (w.imagedPanes env c tag r panes)

/-! ## What is seen -/

/-- The pane is one of its client's windows, and the point lies in it. -/
def Covers (w : Wm) (e : Pane) (p : Point) : Prop :=
  ∃ win ∈ (w.client e.owner).wins, win.img.map Image.id = some e.id ∧ win.r.contains p = true

instance (e : Pane) (p : Point) : Decidable (Covers w e p) :=
  inferInstanceAs (Decidable (∃ win ∈ _, _))

/-- The pane is one of its client's windows, and its image lies over the point. -/
def Shown (w : Wm) (moved : Moved) (e : Pane) (p : Point) : Prop :=
  ∃ win ∈ (w.client e.owner).wins, ∃ i ∈ win.img,
    i.id = e.id ∧ (i.lies (moved e.owner win.tag i.id)).contains p = true

instance (moved : Moved) (e : Pane) (p : Point) : Decidable (Shown w moved e p) :=
  inferInstanceAs (Decidable (∃ win ∈ (w.client e.owner).wins, ∃ i ∈ win.img, _))

/-- The pane is one of its client's windows, and overlaps the rectangle. -/
def Meets (w : Wm) (e : Pane) (r : Rect) : Prop :=
  ∃ win ∈ (w.client e.owner).wins, win.img.map Image.id = some e.id ∧ win.r.Overlaps r

instance (e : Pane) (r : Rect) : Decidable (Meets w e r) :=
  inferInstanceAs (Decidable (∃ win ∈ _, _))

theorem Covers.meets {e : Pane} (h : Covers w e p) (hr : r.contains p = true) : Meets w e r := by
  obtain ⟨win, hwin, himg, hp⟩ := h
  exact ⟨win, hwin, himg, Rect.overlaps_of_contains hp hr⟩

/-! ## When the orders agree -/

/-- With the rectangle `r` the window `id` of the client `c` overlaps no window of another
client, unless the one in front on the display belongs to the client that is first in the
z-order. -/
def Fits (w : Wm) (panes : List Pane) (c : Cid) (id : Nat) (r : Rect) : Prop :=
  panes.Pairwise fun e f =>
    (e = ⟨c, id⟩ → f.owner ≠ c → Meets w f r → Before w.order c f.owner) ∧
      (f = ⟨c, id⟩ → e.owner ≠ c → Meets w e r → Before w.order e.owner c)

instance (panes : List Pane) (c : Cid) (id : Nat) (r : Rect) : Decidable (Fits w panes c id r) :=
  inferInstanceAs (Decidable (List.Pairwise _ _))

/-- A window that is moved and keeps its image fits where it goes, if it goes there. -/
def Slides (env : Env) (w : Wm) (panes : List Pane) (c : Cid) (tag : String) (r : Rect) : Prop :=
  ∀ win ∈ (w.client c).window tag, ∀ i ∈ win.img, env.accepts w.tick = true →
    Fits w panes c i.id (Rect.ofSize r.min i.r.size)

instance (panes : List Pane) : Decidable (Slides env w panes c tag r) :=
  inferInstanceAs (Decidable (∀ win ∈ _, ∀ i ∈ _, _ → _))

/-- A window that is created fits on the top of the display; the first one of a client that is
not on the screen yet goes to the back, if its image is accepted. -/
def Stands (env : Env) (w : Wm) (panes : List Pane) (c : Cid) (r : Rect) : Prop :=
  ∀ img ∈ (w.newwindow env r).2,
    (c ∈ w.order → Fits w (⟨c, img.id⟩ :: panes) c img.id r) ∧
      (c ∉ w.order → env.accepts (w.tick + 1) = true)

instance (panes : List Pane) : Decidable (Stands env w panes c r) :=
  inferInstanceAs (Decidable (∀ img ∈ _, _ ∧ _))

/-- A reshape that does not pack puts the window where the orders agree. -/
def Places (env : Env) (w : Wm) (panes : List Pane) (c : Cid) (tag : String) (r : Rect) : Prop :=
  (w.Moves c tag r → Slides env w panes c tag r) ∧ (¬ w.Moves c tag r → Stands env w panes c r)

instance (panes : List Pane) : Decidable (Places env w panes c tag r) :=
  inferInstanceAs (Decidable (_ ∧ _))

/-- No window is upside down, and for each of them a new one can be created. -/
def Packable (env : Env) (w : Wm) : Prop :=
  (∀ win ∈ w.shown, 0 ≤ win.r.dy) ∧
    ∀ n < w.packHeader.packFooter.shown.length, env.newwindow (w.tick + n) = true

instance : Decidable (Packable env w) := inferInstanceAs (Decidable (_ ∧ _))

/-! ## Rows do not overlap -/

/-- Rows that are not upside down follow one another down the screen. -/
theorem Stacks.ordered {y y' : Int} {wins wins' : List Window} (h : Stacks newr y wins wins' y')
    (hwins : ∀ win ∈ wins, 0 ≤ win.r.dy) :
    (∀ win ∈ wins', y ≤ win.r.min.y) ∧ wins'.Pairwise fun a b => a.r.max.y ≤ b.r.min.y := by
  induction h with
  | nil => exact ⟨fun _ hm => absurd hm List.not_mem_nil, .nil⟩
  | @cons y y' win img wins wins' _ _ ih =>
    obtain ⟨hwin, hwins⟩ := List.forall_mem_cons.mp hwins
    obtain ⟨hbelow, hordered⟩ := ih hwins
    refine ⟨?_, List.pairwise_cons.mpr ⟨hbelow, hordered⟩⟩
    intro b hb
    rcases List.mem_cons.mp hb with rfl | hb
    · exact le_rfl
    · have hle := hbelow b hb
      omega

/-- The windows of two clients have no point in common. -/
def Apart (w : Wm) (a b : Cid) : Prop :=
  ∀ win ∈ (w.client a).wins, ∀ win' ∈ (w.client b).wins, ∀ p,
    win.r.contains p = true → win'.r.contains p = true → False

theorem packWindows_apart (h : Sound w left) (hdy : ∀ win ∈ w.shown, 0 ≤ win.r.dy) (newr : Rect)
    {b : Cid} (ha : a ∈ w.order) (hb : b ∈ w.order) (hne : a ≠ b) :
    Apart (w.packWindows env newr) a b := by
  obtain ⟨hsound, hmem⟩ := h.packed
  obtain ⟨l, hl, -⟩ := h.zorder
  obtain ⟨⟨y, hstacks⟩, -⟩ := packWindows_spec env hl newr
  have hdy' : ∀ win ∈ w.packHeader.packFooter.shown, 0 ≤ win.r.dy := by
    intro win hwin
    obtain ⟨c, hc, hwin⟩ := List.mem_flatMap.mp hwin
    rw [client_packed] at hwin
    exact hdy win (List.mem_flatMap.mpr ⟨c, (hmem c).mp hc, hwin⟩)
  have hpairs := (List.pairwise_flatMap.mp (hstacks.ordered hdy').2).2
  have hsymm : Std.Symm (Apart (w.packWindows env newr)) :=
    ⟨fun _ _ hab win hwin win' hwin' p hp hp' => hab win' hwin' win hwin p hp' hp⟩
  have hapart : (w.packWindows env newr).order.Pairwise (Apart (w.packWindows env newr)) := by
    refine hpairs.imp ?_
    intro a b hab win hwin win' hwin' p hp hp'
    have hle := hab win hwin win' hwin'
    simp only [Rect.contains, decide_eq_true_eq] at hp hp'
    omega
  exact hapart.forall ((order_packWindows h newr a).mpr ha) ((order_packWindows h newr b).mpr hb) hne

/-! ## Creating all windows -/

/-- If no creation fails, every window that is placed gets an image. -/
theorem replaceWins_imaged (w : Wm) (y : Int) (wins : List Window)
    (hnew : ∀ n < wins.length, env.newwindow (w.tick + n) = true) :
    (replaceWins env newr (row newr) c w y wins).1.tick = w.tick + wins.length ∧
      ∀ win ∈ (replaceWins env newr (row newr) c w y wins).2.2, ∃ i, win.img = some i := by
  induction wins generalizing w y with
  | nil => exact ⟨rfl, fun _ hm => absurd hm List.not_mem_nil⟩
  | cons win wins ih =>
    have hfirst : env.newwindow w.tick = true := hnew 0 (Nat.succ_pos _)
    let nr : Rect := ⟨⟨newr.min.x, y⟩, ⟨newr.max.x, y + win.r.dy⟩⟩
    have hrest := ih (((newwindow env w nr).1.ctl c (reshapeMsg win.tag nr)).ctl c
      ("rect " ++ r2s newr)) (y + win.r.dy) (fun n hn => by
        have hn' := hnew (n + 1) (Nat.succ_lt_succ hn)
        rw [← hn']
        congr 1
        change w.tick + 1 + n = _
        omega)
    rw [replaceWins]
    simp only [row]
    refine ⟨?_, ?_⟩
    · rw [hrest.1, List.length_cons]
      change w.tick + 1 + wins.length = _
      omega
    · intro win' hwin'
      rcases List.mem_cons.mp hwin' with rfl | hwin'
      · exact ⟨⟨w.tick, nr⟩, by simp [newwindow, hfirst, nr]⟩
      · exact hrest.2 win' hwin'

theorem replaceAll_imaged {cs : List Cid} (hcs : cs.Nodup) (w : Wm) (y : Int)
    (hnew : ∀ n < (cs.flatMap fun c => (w.client c).wins).length,
      env.newwindow (w.tick + n) = true) :
    ∀ c ∈ cs, ∀ win ∈ ((replaceAll env newr (row newr) w y cs).1.client c).wins,
      ∃ i, win.img = some i := by
  induction cs generalizing w y with
  | nil => exact fun _ hm => absurd hm List.not_mem_nil
  | cons c cs ih =>
    obtain ⟨hc, hnd⟩ := List.nodup_cons.mp hcs
    rw [List.flatMap_cons, List.length_append] at hnew
    obtain ⟨htick, himaged⟩ := @replaceWins_imaged env c newr w y (w.client c).wins
      fun n hn => hnew n (by omega)
    have hsame : ∀ f, ∀ a ∈ cs,
        ((replaceWins env newr (row newr) c w y (w.client c).wins).1.put c f).client a =
          w.client a := by
      intro f a ha
      have hac : a ≠ c := fun h => hc (h ▸ ha)
      rw [put_of_ne hac, (replaceWins_frame _ _ _).2.2]
    rw [replaceAll]
    intro a ha
    rcases List.mem_cons.mp ha with rfl | ha
    · rw [replaceAll_client_of_notMem hc, put_self]
      exact himaged
    · refine ih hnd _ _ ?_ a ha
      intro n hn
      have hwins := List.flatMap_congr fun b hb =>
        congrArg Client.wins (hsame (fun cl => { cl with
          wins := (replaceWins env newr (row newr) c w y (w.client c).wins).2.2 }) b hb)
      rw [hwins] at hn
      have htick' : ∀ f,
          ((replaceWins env newr (row newr) c w y (w.client c).wins).1.put c f).tick =
            w.tick + (w.client c).wins.length := fun _ => htick
      rw [htick', Nat.add_assoc]
      exact hnew _ (by omega)

/-- If no creation fails, every window on the screen has an image after `pack_windows`. -/
theorem packWindows_imaged (h : Sound w left) (newr : Rect)
    (hnew : ∀ n < w.packHeader.packFooter.shown.length, env.newwindow (w.tick + n) = true) :
    ∀ c ∈ (w.packWindows env newr).order, ∀ win ∈ ((w.packWindows env newr).client c).wins,
      ∃ i, win.img = some i := by
  obtain ⟨l, hl, -⟩ := h.zorder
  rw [packWindows_order, packWindows]
  refine replaceAll_imaged (nodup_packed hl) _ _ ?_
  rw [tick_packed]
  exact hnew

/-! ## What the stack holds -/

theorem mem_screentop {e : Pane} : e ∈ w.screentop c panes ↔ e ∈ panes := by
  rw [screentop, List.mem_append, List.mem_filter, List.mem_filter, ← and_or_left]
  cases w.isPane c e <;> simp

theorem mem_screenbottom {e : Pane} : e ∈ w.screenbottom c panes ↔ e ∈ panes := by
  rw [screenbottom]
  split_ifs
  · exact Iff.rfl
  · rw [List.mem_append, List.mem_filter, List.mem_filter, ← and_or_left]
    cases w.isPane c e <;> simp

theorem mem_created {wins : List Window} {e : Pane} :
    e ∈ created c wins ↔ ∃ win ∈ wins, ∃ i ∈ win.img, e = ⟨c, i.id⟩ := by
  rw [created, List.mem_reverse, List.mem_filterMap]
  refine exists_congr fun win => and_congr_right fun _ => ?_
  rw [Option.map_eq_some_iff]
  exact exists_congr fun i => and_congr_right fun _ => eq_comm

theorem mem_allcreated {which : Window → Bool} {e : Pane} :
    e ∈ w.allcreated which ↔ e.owner ∈ w.order ∧
      ∃ win ∈ (w.client e.owner).wins, which win = true ∧ win.img.map Image.id = some e.id := by
  rw [allcreated, List.mem_flatMap]
  constructor
  · rintro ⟨c, hc, he⟩
    obtain ⟨win, hwin, i, hi, rfl⟩ := mem_created.mp he
    obtain ⟨hwin, hwhich⟩ := List.mem_filter.mp hwin
    refine ⟨List.mem_reverse.mp hc, win, hwin, hwhich, ?_⟩
    rw [hi]
    rfl
  · rintro ⟨hc, win, hwin, hwhich, himg⟩
    obtain ⟨i, hi, hid⟩ := Option.map_eq_some_iff.mp himg
    refine ⟨e.owner, List.mem_reverse.mpr hc, mem_created.mpr ⟨win, ?_, i, hi, ?_⟩⟩
    · exact List.mem_filter.mpr ⟨hwin, hwhich⟩
    · rw [hid]

theorem mem_packedPanes {e : Pane} : e ∈ w.packedPanes env panes ↔
    e ∈ (w.packWindows env w.screen).allcreated (fun _ => true) ∨ e ∈ panes := by
  rw [packedPanes, List.mem_append]
  refine or_congr_right ?_
  split <;> split <;> simp only [mem_screentop, mem_screenbottom]

/-- A window that has been put where it fits. -/
theorem Fits.layered {id : Nat} (hfits : Fits w panes c id r)
    (h : Layered w.order Pane.owner (Covers w) panes)
    (hcovers : ∀ e p, Covers w' e p → Covers w e p ∨ e = ⟨c, id⟩ ∧ r.contains p = true) :
    Layered w.order Pane.owner (Covers w') panes := by
  refine (h.and hfits).imp ?_
  rintro e f ⟨hagree, hover, hunder⟩ p hep hfp
  by_cases howner : e.owner = f.owner
  · exact Or.inl howner
  · rcases hcovers e p hep with hep | ⟨rfl, hp⟩
    · rcases hcovers f p hfp with hfp | ⟨rfl, hp⟩
      · exact hagree p hep hfp
      · exact Or.inr (hunder rfl howner (hep.meets hp))
    · rcases hcovers f p hfp with hfp | ⟨rfl, -⟩
      · exact Or.inr (hover rfl (Ne.symm howner) (hfp.meets hp))
      · exact absurd rfl howner

/-- What is on the display when the manager is between two turns: every window on the screen has
an image there, nothing is left of a client that has left, and the z-order agrees with the
stack. -/
structure Shows (w : Wm) (left : List Cid) (panes : List Pane) : Prop where
  displayed : Displayed w left
  dated : Dated w
  imaged : ∀ c ∈ w.order, ∀ win ∈ (w.client c).wins, ∃ i ∈ win.img, (⟨c, i.id⟩ : Pane) ∈ panes
  present : ∀ e ∈ panes, e.owner ∉ left ∧ e.id < w.tick
  layered : Layered w.order Pane.owner (Covers w) panes

namespace Shows

/-- The owner of a pane that is seen is on the screen. -/
theorem listed (h : Shows w left panes) {e : Pane} (he : e ∈ panes) (hcovers : Covers w e p) :
    e.owner ∈ w.order := by
  by_contra hc
  obtain ⟨win, hwin, -⟩ := hcovers
  rw [h.displayed.hidden e.owner hc (h.present e he).1] at hwin
  exact absurd hwin List.not_mem_nil

/-- `find` finds the owner of the first window on the display. -/
theorem find_eq (h : Shows w left panes) (p : Point) :
    w.find p = (panes.find? fun e => Covers w e p).map Pane.owner := by
  apply find?_eq_of_layered h.layered h.displayed.nodup
  · intro c hc hcontains
    obtain ⟨win, hwin, hp⟩ := List.any_eq_true.mp hcontains
    obtain ⟨i, hi, he⟩ := h.imaged c hc win hwin
    refine ⟨_, he, rfl, win, hwin, ?_, hp⟩
    rw [Option.mem_def.mp hi]
    rfl
  · intro e he hcovers
    refine ⟨h.listed he hcovers, ?_⟩
    obtain ⟨win, hwin, -, hp⟩ := hcovers
    exact List.any_eq_true.mpr ⟨win, hwin, hp⟩

/-- Nothing is created, and the windows of every client are some of those it had. -/
theorem of_subset (h : Shows w left panes) (hdisplayed : Displayed w' left) (hdated : Dated w')
    (horder : w'.order = w.order) (htick : w.tick ≤ w'.tick)
    (hwins : ∀ c, ∀ win ∈ (w'.client c).wins, win ∈ (w.client c).wins) : Shows w' left panes where
  displayed := hdisplayed
  dated := hdated
  imaged c hc win hwin := h.imaged c (horder ▸ hc) win (hwins c win hwin)
  present e he := ⟨(h.present e he).1, (h.present e he).2.trans_le htick⟩
  layered := by
    rw [horder]
    refine h.layered.mono ?_
    rintro e _ p ⟨win, hwin, himg, hp⟩
    exact ⟨win, hwins e.owner win hwin, himg, hp⟩

theorem still (h : Shows w left panes) (hs : Still w w') : Shows w' left panes := by
  refine h.of_subset (h.displayed.still hs) (h.dated.still hs) hs.order hs.tick ?_
  intro c win hwin
  rwa [hs.wins] at hwin

/-- After `pack_windows` nothing overlaps, whatever has been on the display. -/
theorem packWindows (h : Displayed w left) (hdated : Dated w) (hpackable : Packable env w)
    (hpresent : ∀ e ∈ panes, e.owner ∉ left ∧ e.id < w.tick) :
    Shows (w.packWindows env w.screen) left (w.packedPanes env panes) := by
  have hdisplayed : Displayed (w.packWindows env w.screen) left := h.packWindows w.screen
  have hdated' : Dated (w.packWindows env w.screen) := hdated.packWindows w.screen
  have himaged := packWindows_imaged h.sound w.screen hpackable.2
  refine ⟨hdisplayed, hdated', ?_, ?_, ?_⟩
  · intro c hc win hwin
    obtain ⟨i, hi⟩ := himaged c hc win hwin
    refine ⟨i, hi, mem_packedPanes.mpr (Or.inl ?_)⟩
    refine mem_allcreated.mpr ⟨hc, win, hwin, rfl, ?_⟩
    rw [hi]
    rfl
  · intro e he
    rcases mem_packedPanes.mp he with he | he
    · obtain ⟨hc, win, hwin, -, himg⟩ := mem_allcreated.mp he
      obtain ⟨i, hi, hid⟩ := Option.map_eq_some_iff.mp himg
      exact ⟨(hdisplayed.sound.live hc).2, hid ▸ hdated' e.owner win hwin i hi⟩
    · exact ⟨(hpresent e he).1, (hpresent e he).2.trans_le (Refreshes.packWindows w _).tick⟩
  · have horder : ∀ c, c ∈ (w.packWindows env w.screen).order ↔ c ∈ w.order :=
      order_packWindows h.sound w.screen
    have hlisted : ∀ e ∈ w.packedPanes env panes, ∀ p, Covers (w.packWindows env w.screen) e p →
        e.owner ∈ w.order := by
      intro e he p hcovers
      rw [← horder]
      by_contra hc
      obtain ⟨win, hwin, -⟩ := hcovers
      have hleft : e.owner ∉ left := by
        rcases mem_packedPanes.mp he with he | he
        · exact absurd (mem_allcreated.mp he).1 hc
        · exact (hpresent e he).1
      rw [hdisplayed.hidden e.owner hc hleft] at hwin
      exact absurd hwin List.not_mem_nil
    apply Layered.of_disjoint
    intro e he f hf p hep hfp
    by_contra hne
    have hapart : Apart (w.packWindows env w.screen) e.owner f.owner :=
      packWindows_apart h.sound hpackable.1 w.screen (hlisted e he p hep) (hlisted f hf p hfp) hne
    obtain ⟨win, hwin, -, hp⟩ := hep
    obtain ⟨win', hwin', -, hp'⟩ := hfp
    exact hapart win hwin win' hwin' p hp hp'

theorem reshapeImage_failed (hm : ¬ w.Moves c tag r) (hnew : env.newwindow w.tick = false) :
    ∃ e, w.reshapeImage env c tag r = ({ w with tick := w.tick + 1 }, some e) := by
  rw [reshapeImage, if_neg hm, newwindow, hnew]
  exact ⟨_, rfl⟩

theorem reshapeImage_accepted (hm : ¬ w.Moves c tag r) (hnew : env.newwindow w.tick = true)
    (hacc : env.accepts (w.tick + 1) = true) :
    (w.reshapeImage env c tag r).2 = none ∧
      ∃ win ∈ ((w.reshapeImage env c tag r).1.client c).wins, win.img = some ⟨w.tick, r⟩ := by
  have himage : w.newwindow env r = ((w.newwindow env r).1, some ⟨w.tick, r⟩) :=
    Prod.ext rfl (if_pos hnew)
  have hset : ∀ img, (w.newwindow env r).1.setimage env c tag img =
      (((w.newwindow env r).1.setimage env c tag img).1, true) := fun _ => Prod.ext rfl hacc
  rw [reshapeImage, if_neg hm, himage]
  dsimp only
  rw [hset]
  refine ⟨rfl, ?_⟩
  rw [setimage_client, put_self]
  exact Client.mem_putimage _ tag _

end Shows

end Wm

/-- A window manager, what lies on the screen, front first, and which images have been moved
there. -/
structure Display where
  session : Session
  panes : List Pane := []
  moved : Moved := fun _ _ _ => none

namespace Display

open Wm Session

variable {env : Env} {d d' : Display} {e : Event} {es : List Event} {screen : Rect} {w : Wm}

/-- A manager without clients. -/
def start (screen : Rect) : Display := { session := .start screen }

/-- The stack when a turn calls `pack_windows`, or at its end if it does not. When a client has
left, its images are gone. -/
def drawn (env : Env) (d : Display) : Event → List Pane
  | .leave c => d.panes.filter fun e => decide (e.owner ≠ c)
  | .request c data ptr =>
    match d.session.wm.reshapeCall .rowwm env c data ptr with
    | some (w, tag, r) => w.reshapedPanes env c tag r d.panes
    | none => d.panes
  | .winctl e (some newr) =>
    ((d.session.wm.told e).rescreened .rowwm env newr).allcreated (fun win => decide (win.tag ≠ "."))
      ++ d.panes
  | _ => d.panes

/-- The stack at the end of a turn. -/
def redraw (env : Env) (d : Display) (e : Event) : List Pane :=
  match d.session.packing env e with
  | some w => w.packedPanes env (d.drawn env e)
  | none => d.drawn env e

/-- The images that have been moved by the end of a turn: by a drag, and by a reshape. -/
def shifted (env : Env) (d : Display) : Event → Moved
  | .request c data ptr =>
    let moved := d.session.wm.dragMoved c data ptr d.moved
    match d.session.wm.reshapeCall .rowwm env c data ptr with
    | some (w, tag, r) => w.reshapeMoved env c tag r moved
    | none => moved
  | _ => d.moved

/-- One turn of the main loop. -/
def step (env : Env) (d : Display) (e : Event) : Option Display :=
  (d.session.step .rowwm env e).map fun s => ⟨s, d.redraw env e, d.shifted env e⟩

/-- The client that owns the front-most window whose image contains the point. -/
def front (d : Display) (p : Point) : Option Cid :=
  (d.panes.find? fun e => Shown d.session.wm d.moved e p).map Pane.owner

/-- The drag of a turn ends where the window is recorded. -/
def Docks (env : Env) (d : Display) : Event → Prop
  | .request c data ptr => Returns env d.session.wm c data ptr
  | _ => True

instance (d : Display) : ∀ e, Decidable (Docks env d e)
  | .request c data ptr => inferInstanceAs (Decidable (Returns env d.session.wm c data ptr))
  | .opened _ | .join _ | .leave _ | .key _ | .pointer _ _ | .winctl _ _ =>
    inferInstanceAs (Decidable True)

/-- Where a turn repacks, nothing is upside down and all windows can be created anew; a
reshape that does not pack puts the window where the orders agree; and no drag leaves a window
elsewhere than it is recorded. -/
def Clear (env : Env) (d : Display) (e : Event) : Prop :=
  (∀ w ∈ d.session.packing env e, Packable env w) ∧
    (d.session.packing env e = none → ∀ x ∈ d.session.reshaping env e,
      Places env x.2.1 d.panes x.1 x.2.2.1 x.2.2.2) ∧
    Docks env d e

instance (d : Display) (e : Event) : Decidable (Clear env d e) :=
  inferInstanceAs (Decidable (_ ∧ (_ → _) ∧ _))

/-! ## A turn that packs -/

end Display

end Aimsgui
