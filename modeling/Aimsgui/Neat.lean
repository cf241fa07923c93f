import Aimsgui.Display
import Aimsgui.Placement

/-!
# Windows that were placed

`topwin` asks `Winplace` where a window goes, if its client says `place`; where `Winplace` panics
the manager is gone (`turn`). As long as clients say nothing else, there is room in a corner, and
the first image of each client is accepted, no two windows lie on one another, if no new screen
makes one vanish (`placed_apart`). Nothing else that happens brings them together: windows come
and go, and are scaled to another screen. And whatever is asked for next, `Winplace` finds a
place.
-/

namespace Aimsgui

open Transition Zorder

/-- `place` of `Winplace`. Where that panics there is no turn (`turn`), and the value does not
matter. -/
def Env.winplace (env : Env) : Env :=
  { env with place := fun wins scr lastrect minsize =>
      (Winplace.place wins scr lastrect minsize).getD lastrect }

namespace Client

variable {cl : Client} {tag : String} {win : Window}

/-- Only the window with that tag is placed. -/
theorem placed_putimage {img : Image} (h : win ∈ (cl.putimage tag img).wins) :
    win ∈ cl.wins ∨ win.tag = tag ∧ win.r = img.r := by
  rw [putimage] at h
  split at h
  · rcases List.mem_cons.mp h with rfl | h
    · exact Or.inr ⟨rfl, rfl⟩
    · exact Or.inl h
  · rcases mem_updatewin h with h | ⟨win', hwin', rfl⟩
    · exact Or.inl h
    · have htag := List.find?_some hwin'
      exact Or.inr ⟨of_decide_eq_true htag, rfl⟩

theorem placed_putrect {r : Rect} (h : win ∈ (cl.putrect tag r).wins) :
    win ∈ cl.wins ∨ win.tag = tag ∧ win.r = r := by
  rcases mem_updatewin h with h | ⟨win', hwin', rfl⟩
  · exact Or.inl h
  · have htag := List.find?_some hwin'
    exact Or.inr ⟨of_decide_eq_true htag, rfl⟩

end Client

namespace Wm

variable {env : Env} {w w' : Wm} {c : Cid} {tag : String} {r scr newr : Rect}
  {left left' : List Cid}

/-- The rectangles that `newrect` gives to `place`. -/
def rects (w : Wm) : List Rect := (w.order.flatMap fun c => (w.client c).wins.map Window.r).reverse

theorem newrect_eq (env : Env) (w : Wm) (r scr : Rect) : w.newrect env r scr =
    ({ w with lastrect := env.place w.rects scr w.lastrect r.extent },
      env.place w.rects scr w.lastrect r.extent) := rfl

theorem mem_rects : r ∈ w.rects ↔ ∃ c ∈ w.order, ∃ win ∈ (w.client c).wins, win.r = r := by
  simp only [rects, List.mem_reverse, List.mem_flatMap, List.mem_map]

/-- There is room for a window of that size, in a corner. -/
def Roomy (w : Wm) (size : Point) : Prop := ∃ q, Winplace.Room w.rects w.screen q ∧ q.size = size

instance (w : Wm) (size : Point) : Decidable (w.Roomy size) :=
  decidable_of_iff
    ((List.range w.screen.dx.toNat).any (fun x => (List.range w.screen.dy.toNat).any fun y =>
      decide (Winplace.Room w.rects w.screen
        (.ofSize ⟨w.screen.min.x + x, w.screen.min.y + y⟩ size))) = true) <| by
    simp only [List.any_eq_true, decide_eq_true_eq]
    constructor
    · rintro ⟨x, -, y, -, hroom⟩
      exact ⟨_, hroom, Rect.size_ofSize _ _⟩
    · rintro ⟨q, hroom, rfl⟩
      obtain ⟨⟨hx₀, -, hx₁⟩, hy₀, -, hy₁⟩ := hroom.inside
      obtain ⟨hqx, hqy⟩ := hroom.proper
      refine ⟨(q.min.x - w.screen.min.x).toNat, ?_, (q.min.y - w.screen.min.y).toNat, ?_, ?_⟩
      · rw [List.mem_range, Rect.dx]
        omega
      · rw [List.mem_range, Rect.dy]
        omega
      · have heq : Rect.ofSize ⟨w.screen.min.x + (q.min.x - w.screen.min.x).toNat,
            w.screen.min.y + (q.min.y - w.screen.min.y).toNat⟩ q.size = q := by
          refine Rect.eq_of_min_of_size ?_ (Rect.size_ofSize _ _)
          rw [Rect.ofSize_min, Point.ext_iff']
          dsimp only
          omega
        rwa [heq]

/-! ## What is kept -/

/-- The windows of the clients that have not left are on the screen, and apart. -/
structure Spread (w : Wm) (left : List Cid) : Prop where
  screen : Winplace.Proper w.screen ∧ w.screen.Sides
  proper : ∀ c, Proper (w.client c).wins
  placed : ∀ a ∉ left, ∀ win ∈ (w.client a).wins, Winplace.Proper win.r ∧ w.screen.Inside win.r
  apart : ∀ a ∉ left, ∀ b ∉ left, ∀ win ∈ (w.client a).wins, ∀ win' ∈ (w.client b).wins,
    (a, win.tag) ≠ (b, win'.tag) → win.r.Apart win'.r

/-- Besides, the z-order is well formed, and the clients that are not in it have no windows. -/
structure Neat (w : Wm) (left : List Cid) : Prop extends Spread w left where
  lists : Lists left (fun _ => True) w
  hidden : ∀ a ∉ left, a ∉ w.order → (w.client a).wins = []

/-- Windows may be taken off, and clients put on the screen. -/
theorem Neat.shrink (h : Neat w left) (hlists : Lists left' (fun _ => True) w')
    (hleft : ∀ a ∉ left', a ∉ left) (horder : ∀ a ∉ left', a ∈ w.order → a ∈ w'.order)
    (hscreen : w'.screen = w.screen) (hproper : ∀ a, Proper (w'.client a).wins)
    (hwins : ∀ a ∉ left', ∀ win ∈ (w'.client a).wins, win ∈ (w.client a).wins) : Neat w' left' where
  screen := hscreen ▸ h.screen
  proper := hproper
  placed a ha win hwin := by
    rw [hscreen]
    exact h.placed a (hleft a ha) win (hwins a ha win hwin)
  apart a ha b hb win hwin win' hwin' :=
    h.apart a (hleft a ha) b (hleft b hb) win (hwins a ha win hwin) win' (hwins b hb win' hwin')
  lists := hlists
  hidden a ha hnot := by
    have hempty := h.hidden a (hleft a ha) fun hin => hnot (horder a ha hin)
    refine List.eq_nil_iff_forall_not_mem.mpr fun win hwin => ?_
    have hold := hwins a ha win hwin
    rw [hempty] at hold
    cases hold

theorem Neat.still (h : Neat w left) (hs : Still w w') : Neat w' left := by
  refine h.shrink (h.lists.of_z hs.z) (fun _ ha => ha) (fun a _ ha => ?_) hs.screen
    (fun a => (hs.wins a).symm ▸ h.proper a) fun a _ win hwin => hs.wins a ▸ hwin
  rwa [Wm.order, hs.z]

/-- Clients may be brought to the front or sent to the back. -/
theorem Neat.moved (h : Neat w left) {z : Zorder} (hlists : Lists left (fun _ => True) { w with z := z })
    (horder : ∀ a ∈ w.order, a ∈ z.order) : Neat { w with z := z } left :=
  h.shrink hlists (fun _ ha => ha) (fun a _ ha => horder a ha) rfl h.proper fun _ _ _ hwin => hwin

/-! ## Requests -/

/-- Rectangles inside a screen have sizes that an `int` holds. -/
theorem size_eq_of_inside {s r' : Rect} (hs : s.Sides) (h : s.Inside r) (h' : s.Inside r')
    (heq : r.extent = r'.extent) : r.size = r'.size := by
  have hsize : ∀ q, s.Inside q → q.extent = q.size := by
    intro q hq
    simp only [Rect.Sides, Rect.dx, Rect.dy] at hs
    simp only [Rect.Inside] at hq
    have hx : Isint q.dx := by
      rw [Rect.dx, Isint]
      omega
    have hy : Isint q.dy := by
      rw [Rect.dy, Isint]
      omega
    rw [Rect.extent, word_of_isint hx, word_of_isint hy, Rect.size]
  rw [← hsize r h, heq, hsize r' h']

/-- The first half of `reshape` places only the window with that tag. -/
theorem placed_reshapeImage (hproper : Proper (w.client c).wins)
    (hsizes : ∀ win ∈ (w.client c).wins, win.r.extent = r.extent → win.r.size = r.size)
    {win : Window}
    (h : win ∈ ((w.reshapeImage env c tag r).1.client c).wins) :
    win ∈ (w.client c).wins ∨ win.tag = tag ∧ win.r = r := by
  rw [reshapeImage] at h
  split_ifs at h with hm
  · obtain ⟨-, old, hold, hsize⟩ := hm
    rw [setorigin] at h
    split at h
    · exact Or.inl h
    · rename_i img himg
      obtain ⟨old', hold', hi⟩ := Option.bind_eq_some_iff.mp himg
      obtain rfl : old = old' := Option.some.inj (hold.symm.trans hold')
      have hr : Rect.ofSize r.min img.r.size = r := by
        refine Rect.eq_of_min_of_size rfl ?_
        have hold' := List.mem_of_find?_eq_some hold
        rw [Rect.size_ofSize, ← hsizes old hold' hsize]
        exact hproper.sized old hold' img hi
      rw [images, hr] at h
      split at h
      all_goals
        rename_i heq
        obtain rfl := congrArg Prod.fst heq
      · simp only [put_self] at h
        exact Client.placed_putrect h
      · exact Or.inl h
  · split at h
    · rename_i heq
      obtain rfl := congrArg Prod.fst heq
      exact Or.inl h
    · rename_i w₁ img heq
      have hr : img.r = r := newwindow_r env w r img (congrArg Prod.snd heq)
      obtain rfl := congrArg Prod.fst heq
      have hput : win ∈ ((w.client c).putimage tag img).wins := by
        split at h
        all_goals
          rename_i heq'
          obtain rfl := congrArg Prod.fst heq'
          rw [setimage_client, put_self] at h
          exact h
      rw [← hr]
      exact Client.placed_putimage hput

/-- A window that is put where no other one is. -/
theorem Spread.reshapeImage (h : Spread w left) (hc : c ∉ left) (hr : Winplace.Proper r) (hin : w.screen.Inside r)
    (hfree : ∀ a ∉ left, ∀ win ∈ (w.client a).wins, win.r.Apart r) :
    Spread (w.reshapeImage env c tag r).1 left := by
  have hwins : ∀ a, ∀ win ∈ ((w.reshapeImage env c tag r).1.client a).wins,
      win ∈ (w.client a).wins ∨ (a, win.tag) = (c, tag) ∧ win.r = r := by
    intro a win hwin
    by_cases hac : a = c
    · subst hac
      have hsizes : ∀ win ∈ (w.client a).wins, win.r.extent = r.extent → win.r.size = r.size :=
        fun win hwin => size_eq_of_inside h.screen.2 (h.placed a hc win hwin).2 hin
      rcases placed_reshapeImage (h.proper a) hsizes hwin with hold | ⟨rfl, hplaced⟩
      · exact Or.inl hold
      · exact Or.inr ⟨rfl, hplaced⟩
    · rw [reshapeImage_others env w c tag r hac] at hwin
      exact Or.inl hwin
  refine ⟨?_, proper_reshapeImage h.proper, fun a ha win hwin => ?_, ?_⟩
  · rw [(reshapeImage_frame env w c tag r).2]
    exact h.screen
  · rw [(reshapeImage_frame env w c tag r).2]
    rcases hwins a win hwin with hold | ⟨-, rfl⟩
    · exact h.placed a ha win hold
    · exact ⟨hr, hin⟩
  · intro a ha b hb win hwin win' hwin' hne
    rcases hwins a win hwin with hold | ⟨hkey, rfl⟩
    · rcases hwins b win' hwin' with hold' | ⟨-, rfl⟩
      · exact h.apart a ha b hb win hold win' hold' hne
      · exact hfree a ha win hold
    · rcases hwins b win' hwin' with hold' | ⟨hkey', -⟩
      · exact fun p hp => hfree b hb win' hold' p hp.symm
      · exact absurd (hkey.trans hkey'.symm) hne

/-- A client that is not on the screen comes there, or keeps no window. -/
def Comes (env : Env) (w : Wm) (c : Cid) : Prop := c ∈ w.order ∨ env.accepts (w.tick + 1) = true

instance (env : Env) (w : Wm) (c : Cid) : Decidable (Comes env w c) :=
  inferInstanceAs (Decidable (_ ∨ _))

/-- A reshape fails without a trace if the client would have taken the image. -/
theorem reshapeImage_client (hacc : env.accepts (w.tick + 1) = true) {e : String}
    (h : (w.reshapeImage env c tag r).2 = some e) :
    (w.reshapeImage env c tag r).1.client = w.client := by
  by_cases hm : w.Moves c tag r
  · rw [reshapeImage, if_pos hm] at h
    cases h
  · cases hnew : env.newwindow w.tick with
    | false =>
      obtain ⟨e', heq⟩ := Shows.reshapeImage_failed hm hnew
      rw [heq]
    | true =>
      rw [(Shows.reshapeImage_accepted hm hnew hacc).1] at h
      cases h

theorem top_order (h : Lists left (fun _ => True) w) (hc : c < w.z.refs) (hleft : c ∉ left) :
    (w.top .topwin c).order = c :: w.order.erase c := by
  obtain ⟨l, hl, -⟩ := h
  have horder : w.order = l := hl.listed.order_eq
  have htop : (w.top .topwin c).order = c :: l.erase c := (hl.top hc hleft).listed.order_eq
  rw [htop, horder]

/-- The client comes to the front. -/
theorem Neat.top (h : Neat w left) (hc : c < w.z.refs) (hleft : c ∉ left) :
    Neat (w.top .topwin c) left := by
  have hlists : Lists left (fun _ => True) (w.top .topwin c) := h.lists.top hc hleft trivial
  refine h.moved hlists fun a ha => ?_
  have hmem : a ∈ (w.top .topwin c).order := by
    rw [top_order h.lists hc hleft]
    by_cases hac : a = c
    · exact hac ▸ List.mem_cons_self
    · exact List.mem_cons_of_mem _ ((List.mem_erase_of_ne hac).mpr ha)
  exact hmem

/-- The client goes to the back, if it is on the screen. -/
theorem Neat.lower (h : Neat w left) (hc : c < w.z.refs) (hleft : c ∉ left) :
    Neat (w.bottom .topwin c) left := by
  have hlists : Lists left (fun _ => True) (w.bottom .topwin c) := h.lists.lower (by decide) hc hleft
  refine h.moved hlists fun a ha => ?_
  obtain ⟨l, hl, -⟩ := h.lists
  have horder : w.order = l := hl.listed.order_eq
  rw [Wmsrv.bottom]
  split_ifs with hlast
  · exact ha
  · have hsink : (Wmsrv.sink w.z c).order = l.erase c ++ [c] := (hl.sink hc hleft).listed.order_eq
    rw [hsink]
    by_cases hac : a = c
    · exact List.mem_append_right _ (hac ▸ List.mem_singleton_self c)
    · exact List.mem_append_left _ ((List.mem_erase_of_ne hac).mpr (horder ▸ ha))

/-- A reshape that puts the window where no other one is. -/
theorem Neat.reshape (h : Neat w left) (hc : c < w.z.refs) (hleft : c ∉ left)
    (hr : Winplace.Proper r) (hin : w.screen.Inside r)
    (hfree : ∀ a ∉ left, ∀ win ∈ (w.client a).wins, win.r.Apart r) (hcomes : Comes env w c) :
    Neat (Wm.reshape .topwin env w c tag r).1 left := by
  have hspread : Spread (w.reshapeImage env c tag r).1 left := h.toSpread.reshapeImage hleft hr hin hfree
  have hlists : Lists left (fun _ => True) (Wm.reshape .topwin env w c tag r).1 :=
    h.lists.reshape hc hleft trivial tag r
  have hz := (reshapeImage_frame env w c tag r).1
  have hothers := fun a => @reshapeImage_others env w c tag r a
  have hfailed := fun hacc e => @reshapeImage_client env w c tag r hacc e
  rw [Wm.reshape] at hlists ⊢
  generalize w.reshapeImage env c tag r = res at hspread hz hothers hfailed hlists ⊢
  obtain ⟨w₁, _ | e⟩ := res
  · dsimp only at hspread hz hothers hlists ⊢
    have hlists₁ : Lists left (fun _ => True) w₁ := h.lists.of_z hz
    have horder := top_order hlists₁ (hz.symm ▸ hc) hleft
    refine ⟨⟨hspread.screen, hspread.proper, hspread.placed, hspread.apart⟩, hlists,
      fun a ha hnot => ?_⟩
    rw [horder] at hnot
    have hac : a ≠ c := fun heq => hnot (heq ▸ List.mem_cons_self)
    have hwins : (w₁.client a).wins = (w.client a).wins := by rw [hothers a hac]
    refine hwins.trans (h.hidden a ha fun hmem => hnot (List.mem_cons_of_mem _ ?_))
    refine (List.mem_erase_of_ne hac).mpr ?_
    rwa [Wm.order, hz]
  · dsimp only at hspread hz hothers hlists hfailed ⊢
    refine ⟨hspread, hlists, fun a ha hnot => ?_⟩
    rw [Wm.order, hz] at hnot
    by_cases hac : a = c
    · subst hac
      rw [hfailed (hcomes.resolve_left hnot) e rfl]
      exact h.hidden a ha hnot
    · rw [hothers a hac]
      exact h.hidden a ha hnot

/-- Who is on the screen has not left. -/
theorem Neat.present (h : Neat w left) (hc : c ∈ w.order) : c ∉ left := (h.lists.mem_order hc).2.1

theorem Neat.rects (h : Neat w left) : ∀ q ∈ w.rects, Winplace.Proper q ∧ w.screen.Inside q := by
  intro q hq
  obtain ⟨a, ha, win, hwin, rfl⟩ := mem_rects.mp hq
  exact h.placed a (h.present ha) win hwin

/-- Where there is room, `newrect` finds a place apart from all windows. -/
theorem Neat.newrect (h : Neat w left) (env : Env) (hroom : w.Roomy r.extent) :
    ∃ r', (w.newrect env.winplace r w.screen).2 = r' ∧ Winplace.Proper r' ∧ w.screen.Inside r' ∧
      ∀ a ∉ left, ∀ win ∈ (w.client a).wins, win.r.Apart r' := by
  obtain ⟨q, hq, hsize⟩ := hroom
  obtain ⟨-, best, -, -, hplace, hfree, hinside⟩ :=
    Winplace.place_free h.screen.1 (fun w hw => (h.rects w hw).1) hq w.lastrect
  refine ⟨.ofSize best.min q.size, ?_, ?_, hinside fun w hw => (h.rects w hw).2, ?_⟩
  · simp only [newrect_eq, Env.winplace, ← hsize, hplace, Option.getD_some]
  · obtain ⟨hqx, hqy⟩ := hq.proper
    simp only [Winplace.Proper, Rect.ofSize, Point.add_x, Point.add_y, Rect.size, Rect.dx, Rect.dy]
    omega
  · intro a ha win hwin
    by_cases hmem : a ∈ w.order
    · exact hfree _ (mem_rects.mpr ⟨a, hmem, win, hwin, rfl⟩)
    · rw [h.hidden a ha hmem] at hwin
      cases hwin

/-- The rectangle of a request to place a window. -/
def wanted : List String → Option Rect
  | cmd :: _ :: _ :: x₀ :: y₀ :: x₁ :: y₁ :: how :: _ =>
    if cmd = "!reshape" ∧ how = "place" then some ⟨⟨int x₀, int y₀⟩, ⟨int x₁, int y₁⟩⟩ else none
  | _ => none

/-- The request places a window where there is room, if it reshapes one. -/
def Courteous (env : Env) (w : Wm) (c : Cid) (data : String) (ptr : List Pointer) : Prop :=
  (w.reshapeCall .topwin env c data ptr).isSome →
    (∃ r ∈ wanted (unquoted data), w.Roomy (fitrect .topwin r w.screen).extent) ∧ Comes env w c

instance (env : Env) (w : Wm) (c : Cid) (data : String) (ptr : List Pointer) :
    Decidable (Courteous env w c data ptr) := inferInstanceAs (Decidable (_ → _))

theorem reshapeCall_asked {w₁ : Wm} {data : String} {ptr : List Pointer} {r' : Rect}
    (hasked : r ∈ wanted (unquoted data))
    (hcall : w.reshapeCall .topwin env c data ptr = some (w₁, tag, r')) :
    (w₁, r') = w.newrect env (fitrect .topwin r w.screen) w.screen := by
  rw [wanted.eq_def] at hasked
  split at hasked
  · rename_i cmd tag' reqid x₀ y₀ x₁ y₁ how more hdata
    split_ifs at hasked with hplace
    · obtain ⟨rfl, rfl⟩ := hplace
      obtain rfl := Option.some.inj hasked
      have hmove : ¬ ("!reshape" = "!move" ∨ "!reshape" = "!size") := by decide
      have hhow : "place" ≠ "onscreen" := by decide
      simp only [reshapeCall, hdata, if_neg hmove, if_true, reshapeArgs, placement, if_neg hhow,
        Option.map_some, Option.some.injEq, Prod.mk.injEq] at hcall
      obtain ⟨rfl, -, rfl⟩ := hcall
      rfl
    · cases hasked
  · cases hasked

/-- A request that places a window, if it reshapes one. -/
theorem Neat.handled (h : Neat w left) (hc : c < w.z.refs) (hleft : c ∉ left) {data : String}
    {ptr : List Pointer} (hcourteous : Courteous env.winplace w c data ptr)
    (hreq : Handled .topwin env.winplace w c data ptr w') : Neat w' left := by
  cases hreq with
  | reshape w₁ tag r hcall =>
    obtain ⟨⟨r₀, hasked, hroom⟩, hcomes⟩ := hcourteous (hcall ▸ rfl)
    obtain ⟨rfl, rfl⟩ := Prod.mk.inj (reshapeCall_asked hasked hcall)
    obtain ⟨-, rfl, hr, hin, hfree⟩ := h.newrect env hroom
    exact (h.still (Still.reshapeCall hcall)).reshape hc hleft hr hin hfree hcomes
  | delete tag args =>
    have hdrop : Neat (w.put c (·.dropwin tag)) left := by
      refine h.shrink (h.lists.of_z rfl) (fun _ ha => ha) (fun _ _ ha => ha) rfl (fun a => ?_) ?_
      · by_cases hac : a = c
        · subst hac
          rw [put_self]
          exact Client.proper_dropwin (h.proper a)
        · rw [put_of_ne hac]
          exact h.proper a
      · intro a _ win hwin
        by_cases hac : a = c
        · subst hac
          rw [put_self] at hwin
          exact Client.mem_dropwin hwin
        · rwa [put_of_ne hac] at hwin
    rw [deleteRequest]
    split_ifs
    · exact hdrop.still (Still.setfocus none)
    · exact hdrop
  | top => exact h.top hc hleft
  | bottom => exact h.lower hc hleft
  | answered => exact h
  | key => exact h.still (Still.send _)
  | wmctl => exact h.still (Still.wmctl' _)
  | cursor f hf => exact h.still ((Still.put hf.wins).trans (Still.wmctl' _))
  | pointer p => exact h.still (((Still.wmctl' _).trans (Still.send _)).trans (Still.send _))
  | marked f hf => exact h.still (Still.put hf.wins)
  | kbd =>
    refine h.still ((Still.put ?_).trans (Still.setfocus _))
    exact fun _ => rfl
  | control =>
    refine h.still (Still.put ?_)
    exact fun _ => rfl
  | dragged win off w₁ e hdrag => exact h.still (Still.drag hdrag)
  | focus => exact h.still (Still.setfocus _)
  | unfocus => exact h.still (Still.setfocus _)
  | message => exact h.still (Still.ctl _ _)
  | endcontrol =>
    rw [endcontrolRequest]
    split_ifs
    · exact h
    · have hput : Still w (w.put c fun cl => { cl with controlstarted := false, controller := false }) :=
        Still.put fun _ => rfl
      exact h.still (hput.frame rfl rfl rfl rfl)
  | forward => exact h.still (Still.ctl _ _)

/-! ## Departures, and another screen -/

/-- A departure takes the client's windows off. -/
theorem Neat.onLeave (h : Neat w left) (env : Env) (hleft : c ∉ left) :
    Neat (w.onLeave .topwin env c) (c :: left) := by
  have hlists : Lists (c :: left) (fun _ => True) (w.departing .topwin c) := h.lists.departing hleft
  have hdeparting : Neat (w.departing .topwin c) (c :: left) := by
    obtain ⟨l, hl, -⟩ := h.lists
    have horder : w.order = l := hl.listed.order_eq
    have hstill : Still (w.forgetting .topwin c) (w.departing .topwin c) := by
      rw [Wm.departing]
      exact Still.controlevent _
    have hremoved : (w.departing .topwin c).order = l.erase c := by
      rw [Wm.order, hstill.z]
      exact (hl.remove hleft).listed.order_eq
    refine h.shrink hlists (fun a ha hmem => ha (List.mem_cons_of_mem _ hmem)) (fun a ha hmem => ?_)
      hstill.screen (fun a => hstill.wins a ▸ h.proper a) fun a _ win hwin => hstill.wins a ▸ hwin
    have hac : a ≠ c := fun hac => ha (hac ▸ List.mem_cons_self)
    rw [hremoved]
    exact (List.mem_erase_of_ne hac).mpr (horder ▸ hmem)
  rw [onLeave_eq]
  exact (hdeparting.still (Still.setfocus _)).still (Still.send _)

theorem Neat.addclient (h : Neat w left) (id : Nat) : Neat (w.addclient id) left := by
  have hwins : ∀ a, ((w.addclient id).client a).wins = [] ∨
      ((w.addclient id).client a).wins = (w.client a).wins := by
    intro a
    by_cases ha : a = w.z.refs
    · subst ha
      have hself : (w.addclient id).client w.z.refs = { id := id } := Function.update_self ..
      rw [hself]
      exact Or.inl rfl
    · have hother : (w.addclient id).client a = w.client a := Function.update_of_ne ha ..
      rw [hother]
      exact Or.inr rfl
  obtain ⟨l, hl, -⟩ := h.lists
  have horder : (w.addclient id).order = w.order :=
    hl.opened.listed.order_eq.trans hl.listed.order_eq.symm
  refine h.shrink (h.lists.opened id) (fun _ ha => ha) (fun a _ ha => horder.symm ▸ ha) rfl
    (fun a => ?_) fun a _ win hwin => ?_
  · rcases hwins a with hnil | heq
    · rw [hnil]
      exact ⟨List.nodup_nil, fun _ hwin => absurd hwin List.not_mem_nil⟩
    · exact heq.symm ▸ h.proper a
  · rcases hwins a with hnil | heq
    · rw [hnil] at hwin
      cases hwin
    · exact heq ▸ hwin

/-- Windows that stay windows when they are scaled to another screen. -/
def Scalable (w : Wm) (newr : Rect) : Prop :=
  newr.Sides ∧ Winplace.Proper newr ∧
    ∀ a ∈ w.order, ∀ win ∈ (w.client a).wins, Winplace.Proper (scaled w.screen newr win.r)

instance (w : Wm) (newr : Rect) : Decidable (w.Scalable newr) :=
  inferInstanceAs (Decidable (_ ∧ _ ∧ ∀ a ∈ w.order, ∀ win ∈ (w.client a).wins, _))

/-- A new screen, and all windows scaled to it. -/
theorem Neat.rescreened (h : Neat w left) (hscale : w.Scalable newr) :
    Neat (w.rescreened .topwin env newr) left := by
  obtain ⟨hsides, hnew, hproper⟩ := hscale
  have hz : (w.rescreened .topwin env newr).z = w.z := rescreened_z newr
  obtain ⟨l, hl, -⟩ := h.lists
  have hnodup : w.order.Nodup := by
    rw [Wm.order, hl.listed.order_eq]
    exact hl.listed.nodup
  have hwins : ∀ a ∉ left, ∀ win' ∈ ((w.rescreened .topwin env newr).client a).wins,
      ∃ win ∈ (w.client a).wins, win'.tag = win.tag ∧ win'.r = scaled w.screen newr win.r ∧
        Winplace.Proper win'.r := by
    intro a ha win' hwin'
    by_cases hmem : a ∈ w.order
    · have hcarried : List.Forall₂ (Carried .topwin w.screen newr) (w.client a).wins
          ((w.rescreened .topwin env newr).client a).wins :=
        replaceAll_client (fun c w _ wins => replaceWins_carried c w wins) { w with screen := newr }
          () hnodup hmem
      have houtline := List.mem_map_of_mem (f := outline) hwin'
      rw [outline_carried hcarried, List.map_map, List.mem_map] at houtline
      obtain ⟨win, hwin, heq⟩ := houtline
      obtain ⟨htag, hr⟩ := Prod.mk.inj heq
      have hr' : scaled w.screen newr win.r = win'.r := hr
      exact ⟨win, hwin, htag.symm, hr'.symm, hr' ▸ hproper a hmem win hwin⟩
    · have hsame : (w.rescreened .topwin env newr).client a = w.client a :=
        replaceAll_client_of_notMem hmem { w with screen := newr } ()
      rw [hsame, h.hidden a ha hmem] at hwin'
      cases hwin'
  have hscreen : (w.rescreened .topwin env newr).screen = newr := rescreened_screen newr
  refine ⟨⟨hscreen.symm ▸ ⟨hnew, hsides⟩, fun a => ?_, fun a ha win' hwin' => ?_, ?_⟩,
    h.lists.of_z hz, ?_⟩
  · exact replaceAll_wins proper_replaceWins { w with screen := newr } () w.order a (h.proper a)
  · obtain ⟨win, hwin, -, hr, hproper'⟩ := hwins a ha win' hwin'
    refine ⟨hproper', ?_⟩
    rw [hscreen, hr]
    exact scaled_inside hsides (h.placed a ha win hwin).2
  · intro a ha b hb win₁' hwin₁' win₂' hwin₂' hne
    obtain ⟨win₁, hwin₁, htag₁, hr₁, -⟩ := hwins a ha win₁' hwin₁'
    obtain ⟨win₂, hwin₂, htag₂, hr₂, -⟩ := hwins b hb win₂' hwin₂'
    rw [hr₁, hr₂]
    rw [htag₁, htag₂] at hne
    exact scaled_apart hsides (h.apart a ha b hb win₁ hwin₁ win₂ hwin₂ hne)
  · intro a ha hnot
    rw [Wm.order, hz] at hnot
    have hsame : (w.rescreened .topwin env newr).client a = w.client a :=
      replaceAll_client_of_notMem hnot { w with screen := newr } ()
    rw [hsame]
    exact h.hidden a ha hnot

/-- Where windows are apart, whoever has one at a point is found there. -/
theorem Neat.find_eq (h : Neat w left) {p : Point} (hc : c ∈ w.order)
    (hcontains : (w.client c).contains p = true) : w.find p = some c := by
  have hsome : (w.find p).isSome := by
    rw [Wm.find, List.find?_isSome]
    exact ⟨c, hc, hcontains⟩
  obtain ⟨a, hfind⟩ := Option.isSome_iff_exists.mp hsome
  have hmem : a ∈ w.order := List.mem_of_find?_eq_some hfind
  have hin := hfind
  rw [Wm.find] at hin
  have ha := List.find?_some hin
  obtain ⟨win, hwin, hp⟩ := List.any_eq_true.mp hcontains
  obtain ⟨win', hwin', hp'⟩ := List.any_eq_true.mp ha
  by_contra hne
  have hca : c ≠ a := fun hca => hne (hca ▸ hfind)
  exact h.apart c (h.present hc) a (h.present hmem) win hwin win' hwin'
    (fun heq => hca (Prod.mk.inj heq).1) p ⟨hp, hp'⟩

end Wm

namespace Session

open Wm

variable {env : Env} {s s' : Session} {e : Event} {es : List Event} {screen : Rect}

/-- Clients place their windows where there is room, and a new screen makes no window vanish. -/
def Neatly (env : Env) (s : Session) : Event → Prop
  | .request c data ptr => Courteous env.winplace s.wm c data ptr
  | .winctl _ (some newr) => s.wm.Scalable newr
  | _ => True

instance (env : Env) : ∀ (s : Session) (e : Event), Decidable (Neatly env s e)
  | s, .request c data ptr => inferInstanceAs (Decidable (Courteous env.winplace s.wm c data ptr))
  | s, .winctl _ (some newr) => inferInstanceAs (Decidable (s.wm.Scalable newr))
  | _, .winctl _ none => .isTrue trivial
  | _, .opened _ => .isTrue trivial
  | _, .join _ => .isTrue trivial
  | _, .leave _ => .isTrue trivial
  | _, .key _ => .isTrue trivial
  | _, .pointer _ _ => .isTrue trivial

theorem step_neat (h : Neat s.wm s.left) (hrule : Neatly env s e)
    (hstep : s.step .topwin env.winplace e = some s') : Neat s'.wm s'.left := by
  cases e with
  | opened id =>
    obtain rfl := Option.some.inj hstep
    exact h.addclient id
  | join c =>
    simp only [step] at hstep
    split_ifs at hstep
    obtain rfl := Option.some.inj hstep
    exact h.still (still_onJoin _ _)
  | leave c =>
    simp only [step] at hstep
    split_ifs at hstep with hc
    obtain rfl := Option.some.inj hstep
    exact h.onLeave env.winplace hc.2
  | request c data ptr =>
    simp only [step] at hstep
    split_ifs at hstep with hc
    obtain ⟨⟨w, a⟩, hreq, rfl⟩ := Option.map_eq_some_iff.mp hstep
    exact h.handled hc.1 hc.2 hrule (Wm.handled hreq)
  | key k =>
    obtain rfl := Option.some.inj hstep
    exact h.still (still_onKey _ _)
  | pointer p taken =>
    obtain rfl := Option.some.inj hstep
    exact h.still (still_onPointer _ _ _)
  | winctl e img =>
    obtain rfl := Option.some.inj hstep
    cases img with
    | some newr =>
      have hstill := still_told s.wm e
      have hscale : (s.wm.told e).Scalable newr := by
        obtain ⟨hsides, hnew, hproper⟩ := hrule
        refine ⟨hsides, hnew, fun a ha win hwin => ?_⟩
        rw [Wm.order, hstill.z] at ha
        rw [hstill.wins] at hwin
        rw [hstill.screen]
        exact hproper a ha win hwin
      exact (h.still hstill).rescreened hscale
    | none => exact h.still (still_told _ _)

theorem start_neat (hscr : Winplace.Proper screen) (hsides : screen.Sides) :
    Neat (start screen).wm (start screen).left where
  screen := ⟨hscr, hsides⟩
  proper _ := ⟨List.nodup_nil, fun _ hwin => absurd hwin List.not_mem_nil⟩
  placed _ _ _ hwin := absurd hwin List.not_mem_nil
  apart _ _ _ _ _ hwin := absurd hwin List.not_mem_nil
  lists := ⟨[], .empty, fun _ ha => absurd ha List.not_mem_nil⟩
  hidden _ _ _ := rfl

/-- The request makes `Winplace` panic: it finds no place. -/
def Panics (s : Session) : Event → Prop
  | .request _ data _ => ∃ r ∈ wanted (unquoted data),
      Winplace.place s.wm.rects s.wm.screen s.wm.lastrect
        (fitrect .topwin r s.wm.screen).extent = none
  | _ => False

instance : ∀ (s : Session) (e : Event), Decidable (Panics s e)
  | s, .request _ data _ => inferInstanceAs (Decidable (∃ r ∈ wanted (unquoted data),
      Winplace.place s.wm.rects s.wm.screen s.wm.lastrect
        (fitrect .topwin r s.wm.screen).extent = none))
  | _, .opened _ => .isFalse id
  | _, .join _ => .isFalse id
  | _, .leave _ => .isFalse id
  | _, .key _ => .isFalse id
  | _, .pointer _ _ => .isFalse id
  | _, .winctl _ _ => .isFalse id

/-- A turn of `topwin`, which is gone where `Winplace` panics. -/
def turn (env : Env) (s : Session) (e : Event) : Option Session :=
  if Panics s e then none else s.step .topwin env.winplace e

theorem step_of_turn (h : s.turn env e = some s') : s.step .topwin env.winplace e = some s' := by
  rw [turn] at h
  split_ifs at h
  exact h

/-- Where all windows have a size, `Winplace` finds a place whatever is asked for. -/
theorem not_panics (h : Neat s.wm s.left) (e : Event) : ¬ Panics s e := by
  cases e with
  | request c data ptr =>
    rintro ⟨r, -, hnone⟩
    have hsome := Winplace.place_isSome h.screen.1 (fun q hq => (h.rects q hq).1) s.wm.lastrect
      (fitrect .topwin r s.wm.screen).extent
    rw [hnone] at hsome
    cases hsome
  | opened | join | leave | key | pointer | winctl => exact id

/-- In every run of `topwin` in which clients ask for a place where there is room, come to the
screen, and are not made to vanish by a new screen: all windows on the screen are apart from one
another, none reaches beyond the screen, the client that has a window at a point is found
there, however the clients lie on one another, and no next request makes `Winplace` panic. -/
theorem placed_apart (hscr : Winplace.Proper screen) (hsides : screen.Sides)
    (h : Run (Guarded (Neatly env) (StepOf (turn env))) (start screen) es s) :
    (∀ a ∈ s.wm.order, ∀ b ∈ s.wm.order, ∀ win ∈ (s.wm.client a).wins,
      ∀ win' ∈ (s.wm.client b).wins, (a, win.tag) ≠ (b, win'.tag) → win.r.Apart win'.r) ∧
    (∀ a ∈ s.wm.order, ∀ win ∈ (s.wm.client a).wins, s.wm.screen.Inside win.r) ∧
    (∀ p, ∀ a ∈ s.wm.order, (s.wm.client a).contains p = true → s.wm.find p = some a) ∧
    ∀ e, ¬ Panics s e := by
  have hneat := h.invariant (I := fun s => Neat s.wm s.left) (start_neat hscr hsides)
    fun _ _ _ hs ⟨hrule, hturn⟩ => step_neat hs hrule (step_of_turn hturn)
  refine ⟨fun a ha b hb => hneat.apart a (hneat.present ha) b (hneat.present hb), ?_,
    fun p a ha hp => hneat.find_eq ha hp, not_panics hneat⟩
  intro a ha win hwin
  exact (hneat.placed a (hneat.present ha) win hwin).2

/-- Two windows of which the second fits below the first, but not beside it. -/
theorem placed_apart_two :
    ∃ s, Run (Guarded (Neatly default) (StepOf (turn default))) (start ⟨⟨0, 0⟩, ⟨10, 8⟩⟩)
        [.opened 0, .join 0, .request 0 "!reshape . -1 0 0 6 4 place" [], .opened 1, .join 1,
          .request 1 "!reshape . -1 0 0 6 4 place" []] s ∧
      (s.wm.client 1).wins.map Window.r = [⟨⟨0, 4⟩, ⟨6, 8⟩⟩] ∧ s.wm.find ⟨5, 3⟩ = some 0 := by
  obtain ⟨s, hrun, hwins, hzero, hcontains⟩ :
      ∃ s, Run (Guarded (Neatly default) (StepOf (turn default))) (start ⟨⟨0, 0⟩, ⟨10, 8⟩⟩)
          [.opened 0, .join 0, .request 0 "!reshape . -1 0 0 6 4 place" [], .opened 1, .join 1,
            .request 1 "!reshape . -1 0 0 6 4 place" []] s ∧
        (s.wm.client 1).wins.map Window.r = [⟨⟨0, 4⟩, ⟨6, 8⟩⟩] ∧ 0 ∈ s.wm.order ∧
          (s.wm.client 0).contains ⟨5, 3⟩ = true :=
    Run.exists_of_execGuarded (by decide +kernel)
  exact ⟨s, hrun, hwins, (placed_apart (by decide) (by decide) hrun).2.2.1 _ 0 hzero hcontains⟩

end Session

end Aimsgui
