import Aimsgui.Packing
import Aimsgui.Lib.Run
import Aimsgui.Lib.Tiling
import Mathlib.Algebra.Group.Int.Defs

/-!
# The rows of the alerts window

The windows with the tag "." are the rows. `pack_windows` stacks every window it finds, so
the rows tile the screen after it exactly if the other windows that lie between them have
no height (`packWindows_tiled_iff`). `Displayed` collects what else is true of all windows
at all times, with one lemma for each operation that changes the z-order or a window.
-/

namespace Aimsgui

open Tiling Transition Zorder

/-- The heights that a rectangle covers. -/
def Rect.span (r : Rect) : Int × Int := (r.min.y, r.max.y)

/-- The height of a window. -/
def Window.height (win : Window) : Int := win.r.dy

/-- The rectangles of the rows among some windows. -/
def rowsOf (wins : List Window) : List Rect := (wins.filter (·.tag = ".")).map Window.r

/-- The rectangles tile a screen from the top, each across its whole width. -/
structure Tiled (scr : Rect) (rows : List Rect) : Prop where
  tiles : ∃ hi, Tiles scr.min.y (rows.map Rect.span) hi
  wide : ∀ r ∈ rows, r.min.x = scr.min.x ∧ r.max.x = scr.max.x

@[simp] theorem rowsOf_nil : rowsOf [] = [] := rfl

theorem rowsOf_append (wins wins' : List Window) :
    rowsOf (wins ++ wins') = rowsOf wins ++ rowsOf wins' := by
  rw [rowsOf, List.filter_append, List.map_append, rowsOf, rowsOf]

theorem rowsOf_cons (win : Window) (wins : List Window) :
    rowsOf (win :: wins) = (if win.tag = "." then [win.r] else []) ++ rowsOf wins := by
  rw [rowsOf, List.filter_cons]
  by_cases h : win.tag = "."
  · simp [h, rowsOf]
  · simp [h, rowsOf]

theorem rowsOf_flatMap (f : Cid → List Window) (cs : List Cid) :
    rowsOf (cs.flatMap f) = cs.flatMap fun c => rowsOf (f c) := by
  induction cs with
  | nil => rfl
  | cons c cs ih => rw [List.flatMap_cons, rowsOf_append, ih, List.flatMap_cons]

/-! ## The windows of one client -/

/-- A client's windows have different tags, and each image has the size of its window. -/
structure Proper (wins : List Window) : Prop where
  tags : (wins.map Window.tag).Nodup
  sized : ∀ win ∈ wins, ∀ i ∈ win.img, i.r.size = win.r.size

namespace Client

variable {cl : Client} {tag : String} {f : Window → Window} {wins : List Window}

theorem map_tag_updatewin (hf : ∀ win, (f win).tag = win.tag) (wins : List Window) :
    (updatewin tag f wins).map Window.tag = wins.map Window.tag := by
  induction wins with
  | nil => rfl
  | cons win wins ih =>
    rw [updatewin]
    split_ifs
    · rw [List.map_cons, List.map_cons, hf]
    · rw [List.map_cons, List.map_cons, ih]

theorem mem_updatewin {win : Window} (h : win ∈ updatewin tag f wins) :
    win ∈ wins ∨ ∃ win' ∈ wins.find? (·.tag = tag), win = f win' := by
  induction wins with
  | nil => exact Or.inl h
  | cons win' wins ih =>
    rw [updatewin] at h
    split_ifs at h with htag
    · rcases List.mem_cons.mp h with rfl | h
      · exact Or.inr ⟨win', by simp [htag], rfl⟩
      · exact Or.inl (List.mem_cons_of_mem _ h)
    · rcases List.mem_cons.mp h with rfl | h
      · exact Or.inl List.mem_cons_self
      · rw [List.find?_cons_of_neg (by simpa using htag)]
        exact (ih h).imp_left (List.mem_cons_of_mem _)

/-- A changed window is the same row as before, if it is one at all. -/
theorem rowsOf_updatewin (hf : ∀ win, (f win).tag = win.tag)
    (hr : tag = "." → ∀ win ∈ wins.find? (·.tag = tag), (f win).r = win.r) :
    rowsOf (updatewin tag f wins) = rowsOf wins := by
  induction wins with
  | nil => rfl
  | cons win wins ih =>
    rw [updatewin]
    split_ifs with htag
    · rw [rowsOf_cons, rowsOf_cons, hf]
      split_ifs with hdot
      · have hfirst := hr (htag ▸ hdot) win (by simp [htag])
        rw [hfirst]
      · rfl
    · rw [rowsOf_cons, rowsOf_cons, ih]
      intro hdot win' hwin'
      exact hr hdot win' (by rwa [List.find?_cons_of_neg (by simpa using htag)])

theorem proper_updatewin (h : Proper wins) (hf : ∀ win, (f win).tag = win.tag)
    (hsized : ∀ win ∈ wins.find? (·.tag = tag), ∀ i ∈ (f win).img, i.r.size = (f win).r.size) :
    Proper (updatewin tag f wins) := by
  refine ⟨(map_tag_updatewin hf wins).symm ▸ h.tags, ?_⟩
  intro win hwin
  rcases mem_updatewin hwin with hm | ⟨win', hm, rfl⟩
  · exact h.sized win hm
  · exact hsized win' hm

theorem proper_putimage (h : Proper cl.wins) (img : Image) :
    Proper (cl.putimage tag img).wins := by
  rw [putimage]
  cases hwin : cl.window tag with
  | none =>
    refine ⟨List.nodup_cons.mpr ⟨?_, h.tags⟩, ?_⟩
    · rw [List.mem_map]
      rintro ⟨win, hm, htag⟩
      exact absurd htag (by simpa using List.find?_eq_none.mp hwin win hm)
    · intro win hm i hi
      rcases List.mem_cons.mp hm with rfl | hm
      · rw [← Option.some.inj hi]
      · exact h.sized win hm i hi
  | some win₀ =>
    refine proper_updatewin h (fun _ => rfl) ?_
    intro win _ i hi
    rw [← Option.some.inj hi]

theorem proper_putrect (h : Proper cl.wins) {r : Rect}
    (hsized : ∀ win ∈ cl.window tag, ∀ i ∈ win.img, i.r.size = r.size) :
    Proper (cl.putrect tag r).wins :=
  proper_updatewin h (fun _ => rfl) hsized

theorem rowsOf_putrect {r : Rect} (h : tag = "." → ∀ win ∈ cl.window tag, r = win.r) :
    rowsOf (cl.putrect tag r).wins = rowsOf cl.wins :=
  rowsOf_updatewin (fun _ => rfl) h

theorem rowsOf_putimage {img : Image}
    (h : tag = "." → ∃ win ∈ cl.window tag, img.r = win.r) :
    rowsOf (cl.putimage tag img).wins = rowsOf cl.wins := by
  rw [putimage]
  cases hwin : cl.window tag with
  | none =>
    have htag : tag ≠ "." := by
      intro hdot
      obtain ⟨win, hm, -⟩ := h hdot
      rw [hwin] at hm
      cases hm
    rw [rowsOf_cons, if_neg htag, List.nil_append]
  | some win₀ =>
    refine rowsOf_updatewin (fun _ => rfl) ?_
    intro hdot win hm
    obtain ⟨win', hm', hr⟩ := h hdot
    rw [show win = win' from Option.some.inj (hm.symm.trans hm')]
    exact hr

/-- Windows that are taken off the list leave the others as they are. -/
theorem dropwin_wins (h : Proper cl.wins) :
    (cl.dropwin tag).wins = cl.wins.filter (·.tag ≠ tag) := by
  rw [dropwin]
  cases hwins : cl.wins with
  | nil => simp [hwins]
  | cons win wins =>
    simp only
    split_ifs with htag
    · have htags := h.tags
      rw [hwins, List.map_cons, List.nodup_cons] at htags
      rw [List.filter_cons_of_neg (by simpa using htag)]
      refine (List.filter_eq_self.mpr ?_).symm
      intro win' hm
      have hne : win'.tag ≠ tag := by
        rintro rfl
        exact htags.1 (htag ▸ List.mem_map_of_mem hm)
      simpa using hne
    · rfl

/-- A deleted window leaves the others as they were. -/
theorem proper_dropwin (h : Proper cl.wins) : Proper (cl.dropwin tag).wins := by
  rw [dropwin_wins h]
  refine ⟨h.tags.sublist (List.filter_sublist.map _), ?_⟩
  intro win hm
  exact h.sized win (List.mem_of_mem_filter hm)

/-- The row goes just if it is the window that is deleted. -/
theorem rowsOf_dropwin (h : Proper cl.wins) :
    rowsOf (cl.dropwin tag).wins = if tag = "." then [] else rowsOf cl.wins := by
  rw [dropwin_wins h, rowsOf, List.filter_filter]
  split_ifs with htag
  · subst htag
    rw [List.filter_eq_nil_iff.mpr, List.map_nil]
    intro win _
    simp
  · rw [rowsOf]
    congr 1
    refine List.filter_congr ?_
    intro win _
    by_cases hdot : win.tag = "."
    · simp [hdot, Ne.symm htag]
    · simp [hdot]

end Client

/-- Every window can be created, and every image request is accepted. -/
structure Env.Willing (env : Env) : Prop where
  newwindow : ∀ n, env.newwindow n = true
  accepts : ∀ n, env.accepts n = true

namespace Wm

variable {env : Env} {w w' : Wm} {c : Cid} {tag : String} {left l : List Cid}

/-- The windows on the screen, in z-order. -/
def shown (w : Wm) : List Window := w.order.flatMap fun c => (w.client c).wins

/-- The rows on the screen, in z-order. -/
def rows (w : Wm) : List Rect := rowsOf w.shown

/-- The rows, client by client. -/
theorem rows_eq (w : Wm) : w.rows = w.order.flatMap fun c => rowsOf (w.client c).wins :=
  rowsOf_flatMap _ _

/-- The rows are what the clients on the screen have as rows. -/
theorem rows_congr (horder : w'.order = w.order)
    (h : ∀ c ∈ w.order, rowsOf (w'.client c).wins = rowsOf (w.client c).wins) :
    w'.rows = w.rows := by
  rw [rows_eq, rows_eq, horder]
  exact List.flatMap_congr h

/-! ## Packing -/

/-- The tag and the place of a window. -/
def outline (win : Window) : String × Rect := (win.tag, win.r)

/-- The place of a window that `pack_windows` has stacked. -/
def packed (newr : Rect) (x : Window × Int × Int) : String × Rect :=
  (x.1.tag, ⟨⟨newr.min.x, x.2.1⟩, ⟨newr.max.x, x.2.2⟩⟩)

/-- The inner loop of `pack_windows` stacks the windows of one client. -/
theorem replaceWins_row (env : Env) (c : Cid) (newr : Rect) (w : Wm) (y : Int)
    (wins : List Window) :
    (replaceWins env newr (row newr) c w y wins).2.1 = pile Window.height y wins ∧
      (replaceWins env newr (row newr) c w y wins).2.2.map outline =
        (stack Window.height y wins).map (packed newr) := by
  induction wins generalizing w y with
  | nil => exact ⟨rfl, rfl⟩
  | cons win wins ih =>
    have hih := ih (((newwindow env w ⟨⟨newr.min.x, y⟩, ⟨newr.max.x, y + win.r.dy⟩⟩).1.ctl c
      (reshapeMsg win.tag ⟨⟨newr.min.x, y⟩, ⟨newr.max.x, y + win.r.dy⟩⟩)).ctl c
        ("rect " ++ r2s newr)) (y + win.r.dy)
    refine ⟨hih.1, ?_⟩
    exact congrArg (List.cons _) hih.2

/-- A client whose turn has not come has the windows it had. -/
theorem replaceAll_client_of_notMem {σ : Type} {newr : Rect}
    {place : σ → Window → σ × Option Rect} {cs : List Cid} (hc : c ∉ cs) (w : Wm) (s : σ) :
    (replaceAll env newr place w s cs).1.client c = w.client c := by
  induction cs generalizing w s with
  | nil => rfl
  | cons a cs ih =>
    obtain ⟨hca, hcs⟩ := not_or.mp fun hm => hc (List.mem_cons.mpr hm)
    refine (ih hcs _ _).trans ?_
    rw [put_of_ne hca, (replaceWins_frame _ _ _).2.2]

/-- What the inner loop does to the windows of a client, the outer loop does to the windows of
each client, if none comes up twice. -/
theorem replaceAll_client {σ : Type} {newr : Rect} {place : σ → Window → σ × Option Rect}
    {R : List Window → List Window → Prop}
    (hR : ∀ c w s wins, R wins (replaceWins env newr place c w s wins).2.2) (w : Wm) (s : σ)
    {cs : List Cid} (hcs : cs.Nodup) {c : Cid} (hc : c ∈ cs) :
    R (w.client c).wins ((replaceAll env newr place w s cs).1.client c).wins := by
  induction cs generalizing w s with
  | nil => cases hc
  | cons a cs ih =>
    obtain ⟨ha, hcs⟩ := List.nodup_cons.mp hcs
    rw [replaceAll]
    rcases List.mem_cons.mp hc with rfl | hc
    · rw [replaceAll_client_of_notMem ha, put_self]
      exact hR c w s _
    · have hca : c ≠ a := fun h => ha (h ▸ hc)
      have hrest := ih (w := (replaceWins env newr place a w s (w.client a).wins).1.put a fun cl =>
        { cl with wins := (replaceWins env newr place a w s (w.client a).wins).2.2 })
        (s := (replaceWins env newr place a w s (w.client a).wins).2.1) hcs hc
      rw [put_of_ne hca, (replaceWins_frame _ _ _).2.2] at hrest
      exact hrest

/-- `pack_windows` stacks the windows of all clients. -/
theorem replaceAll_row (env : Env) (newr : Rect) (w : Wm) (y : Int) {cs : List Cid}
    (hcs : cs.Nodup) :
    (cs.flatMap fun c => ((replaceAll env newr (row newr) w y cs).1.client c).wins).map outline =
      (stack Window.height y (cs.flatMap fun c => (w.client c).wins)).map (packed newr) := by
  induction cs generalizing w y with
  | nil => rfl
  | cons c cs ih =>
    obtain ⟨hc, hcs⟩ := List.nodup_cons.mp hcs
    obtain ⟨hpile, hwins⟩ := replaceWins_row env c newr w y (w.client c).wins
    let w₁ := (replaceWins env newr (row newr) c w y (w.client c).wins).1.put c fun cl =>
      { cl with wins := (replaceWins env newr (row newr) c w y (w.client c).wins).2.2 }
    have hself : ((replaceAll env newr (row newr) w y (c :: cs)).1.client c).wins =
        (replaceWins env newr (row newr) c w y (w.client c).wins).2.2 := by
      have hclient : (replaceAll env newr (row newr) w₁
          (replaceWins env newr (row newr) c w y (w.client c).wins).2.1 cs).1.client c =
            w₁.client c := replaceAll_client_of_notMem hc w₁ _
      refine (congrArg Client.wins hclient).trans ?_
      rw [put_self]
    have hothers : (cs.flatMap fun a => (w₁.client a).wins) =
        cs.flatMap fun a => (w.client a).wins := by
      refine List.flatMap_congr ?_
      intro a ha
      have hac : a ≠ c := fun h => hc (h ▸ ha)
      rw [put_of_ne hac, (replaceWins_frame _ _ _).2.2]
    rw [List.flatMap_cons, List.flatMap_cons, List.map_append, hself, hwins, stack_append,
      List.map_append, ← hothers, ← hpile]
    exact congrArg _ (ih w₁ _ hcs)

/-- The rows of windows that have been stacked. -/
theorem rowsOf_of_outline {newr : Rect} {y : Int} {wins wins' : List Window}
    (h : wins'.map outline = (stack Window.height y wins).map (packed newr)) :
    rowsOf wins' = ((stack Window.height y wins).filter (·.1.tag = ".")).map
      fun x => (packed newr x).2 := by
  have hrows : rowsOf wins' = ((wins'.map outline).filter (·.1 = ".")).map Prod.snd := by
    rw [rowsOf, List.filter_map, List.map_map]
    rfl
  rw [hrows, h, List.filter_map, List.map_map]
  rfl

/-- After `pack_windows` the rows tile exactly if the windows between them have no height. -/
theorem packWindows_tiled_iff (newr : Rect) (hnd : w.packHeader.packFooter.order.Nodup) :
    Tiled newr (w.packWindows env newr).rows ↔
      Level Window.height (·.tag = ".") 0 w.packHeader.packFooter.shown := by
  have horder : (w.packWindows env newr).order = w.packHeader.packFooter.order := by
    rw [Wm.order, packWindows, replaceAll_z, Wm.order]
  have hrows := rowsOf_of_outline (replaceAll_row env newr w.packHeader.packFooter
    newr.min.y hnd)
  have hshown : (w.packWindows env newr).rows =
      ((stack Window.height newr.min.y w.packHeader.packFooter.shown).filter (·.1.tag = ".")).map
        fun x => (packed newr x).2 := by
    rw [rows, shown, horder]
    exact hrows
  have hiff := tiles_stack_iff Window.height (fun win => win.tag = ".") newr.min.y 0
    w.packHeader.packFooter.shown
  rw [add_zero] at hiff
  rw [← hiff, hshown]
  constructor
  · rintro ⟨⟨hi, h⟩, -⟩
    rw [List.map_map] at h
    exact ⟨hi, h⟩
  · rintro ⟨hi, h⟩
    refine ⟨⟨hi, ?_⟩, ?_⟩
    · rw [List.map_map]
      exact h
    · intro r hr
      obtain ⟨x, -, rfl⟩ := List.mem_map.mp hr
      exact ⟨rfl, rfl⟩

/-! ## What is true of all clients -/

/-- The z-order is well formed, every client's windows are, and a client that is not on the
screen has none. -/
structure Displayed (w : Wm) (left : List Cid) : Prop where
  zorder : ∃ l, Standing w.z left l ∧ Anchored w.z l
  proper : ∀ c, Proper (w.client c).wins
  hidden : ∀ c, c ∉ w.order → c ∉ left → (w.client c).wins = []

theorem Displayed.nodup (h : Displayed w left) : w.order.Nodup := by
  obtain ⟨l, hl, -⟩ := h.zorder
  rw [Wm.order, hl.listed.order_eq]
  exact hl.listed.nodup

/-- It does not depend on the other variables. -/
theorem Displayed.frame (h : Displayed w left) (hz : w'.z = w.z)
    (hwins : ∀ c, (w'.client c).wins = (w.client c).wins) : Displayed w' left where
  zorder := hz.symm ▸ h.zorder
  proper c := (hwins c).symm ▸ h.proper c
  hidden c := by
    rw [Wm.order, hz, hwins]
    exact h.hidden c

/-- What leaves the windows alone leaves the rows alone. -/
theorem Displayed.still (h : Displayed w left) (hs : Still w w') : Displayed w' left :=
  h.frame hs.z hs.wins

/-- What the inner loop of a repack keeps of each client's windows, the repack keeps. -/
theorem replaceAll_wins {σ : Type} {newr : Rect} {place : σ → Window → σ × Option Rect}
    {P : List Window → Prop}
    (hP : ∀ c w s wins, P wins → P (replaceWins env newr place c w s wins).2.2)
    (w : Wm) (s : σ) (cs : List Cid) (a : Cid) (h : P (w.client a).wins) :
    P ((replaceAll env newr place w s cs).1.client a).wins := by
  induction cs generalizing w s with
  | nil => exact h
  | cons c cs ih =>
    refine ih _ _ ?_
    by_cases hac : a = c
    · subst hac
      rw [put_self]
      exact hP a w s _ h
    · rw [put_of_ne hac, (replaceWins_frame _ _ _).2.2]
      exact h

/-- The tags of the windows stay. -/
theorem map_tag_replaceWins {σ : Type} {newr : Rect} {place : σ → Window → σ × Option Rect}
    (w : Wm) (s : σ) (wins : List Window) :
    (replaceWins env newr place c w s wins).2.2.map Window.tag = wins.map Window.tag := by
  induction wins generalizing w s with
  | nil => rfl
  | cons win wins ih =>
    rw [replaceWins]
    split
    · exact congrArg (List.cons _) (ih _ _)
    · exact congrArg (List.cons _) (ih _ _)

/-- A window that is placed anew gets an image of its new size. -/
theorem proper_replaceWins {σ : Type} {newr : Rect} {place : σ → Window → σ × Option Rect}
    (c : Cid) (w : Wm) (s : σ) (wins : List Window) (h : Proper wins) :
    Proper (replaceWins env newr place c w s wins).2.2 := by
  refine ⟨(map_tag_replaceWins w s wins).symm ▸ h.tags, ?_⟩
  have hsized := h.sized
  clear h
  induction wins generalizing w s with
  | nil => exact fun _ hm => absurd hm List.not_mem_nil
  | cons win wins ih =>
    have ih' := fun w s => ih w s fun win' hm => hsized win' (List.mem_cons_of_mem _ hm)
    rw [replaceWins]
    split
    · intro win' hm
      rcases List.mem_cons.mp hm with rfl | hm
      · exact hsized win' List.mem_cons_self
      · exact ih' _ _ win' hm
    · rename_i nr _
      intro win' hm i hi
      rcases List.mem_cons.mp hm with rfl | hm
      · simp only [newwindow, Option.mem_def] at hi
        split_ifs at hi
        rw [← Option.some.inj hi]
      · exact ih' _ _ win' hm i hi

/-- A repack keeps all of it. -/
theorem Displayed.replaceAll {σ : Type} {newr : Rect} {place : σ → Window → σ × Option Rect}
    (h : Displayed w left) (s : σ) (cs : List Cid) :
    Displayed (replaceAll env newr place w s cs).1 left where
  zorder := (replaceAll_z w s cs).symm ▸ h.zorder
  proper c := replaceAll_wins proper_replaceWins w s cs c (h.proper c)
  hidden c hc hleft := by
    rw [Wm.order, replaceAll_z] at hc
    refine replaceAll_wins (P := fun wins => wins = []) ?_ w s cs c (h.hidden c hc hleft)
    rintro c w s wins rfl
    rfl

/-- A client that is put first was on the screen already. -/
theorem Displayed.top (h : Displayed w left) (hc : c ∈ w.order) :
    Displayed (w.top .rowwm c) left := by
  obtain ⟨l, hl, hanch⟩ := h.zorder
  have horder : w.order = l := hl.listed.order_eq
  have htop := hl.xtop (hl.listed.bound c (horder ▸ hc)) (hl.present c (horder ▸ hc))
  have horder' : (w.top .rowwm c).order = c :: l.erase c := htop.listed.order_eq
  refine ⟨⟨_, htop, hanch.top hl.listed⟩, h.proper, ?_⟩
  intro a ha hleft
  refine h.hidden a ?_ hleft
  rw [horder'] at ha
  rw [horder]
  exact fun hm => ha ((List.perm_cons_erase (horder ▸ hc)).mem_iff.mp hm)

theorem Displayed.bottom (h : Displayed w left) (hc : c ∈ w.order) :
    Displayed (w.bottom .rowwm c) left := by
  obtain ⟨l, hl, hanch⟩ := h.zorder
  have horder : w.order = l := hl.listed.order_eq
  have hsink := hl.xsink (hl.listed.bound c (horder ▸ hc)) (hl.present c (horder ▸ hc))
  have horder' := hsink.listed.order_eq
  refine ⟨⟨_, hsink, hanch.sink⟩, h.proper, ?_⟩
  intro a ha hleft
  refine h.hidden a ?_ hleft
  rw [horder]
  intro hm
  refine ha ?_
  rw [Wm.order]
  refine horder'.symm ▸ ?_
  split_ifs
  · exact hm
  · by_cases hac : a = c
    · exact hac ▸ List.mem_append_right _ (List.mem_singleton_self a)
    · exact List.mem_append_left _ ((List.mem_erase_of_ne hac).mpr hm)

theorem Displayed.packed (h : Displayed w left) : Displayed w.packHeader.packFooter left := by
  have hheader : Displayed w.packHeader left := by
    rw [packHeader]
    split
    · rename_i hc
      exact h.top (List.mem_of_find?_eq_some hc)
    · exact h
  rw [packFooter]
  split
  · rename_i hc
    exact hheader.bottom (List.mem_of_find?_eq_some hc)
  · exact hheader

/-- `pack_windows` shows the clients that were shown before. -/
theorem Displayed.packWindows (h : Displayed w left) (newr : Rect) :
    Displayed (w.packWindows env newr) left := h.packed.replaceAll _ _

/-! ## Reshapes that do not pack -/

theorem images_client (o : Option Point) (i : Image) :
    (images env w c o i).1.client = w.client := rfl

theorem setimage_client (img : Image) :
    (w.setimage env c tag img).1.client = (w.put c (·.putimage tag img)).client := rfl

/-- What the first half of `reshape` does to the client's windows. -/
theorem reshapeImage_wins (env : Env) (w : Wm) (c : Cid) (tag : String) (r : Rect) :
    ((w.reshapeImage env c tag r).1.client c).wins = (w.client c).wins ∨
      (∃ win ∈ (w.client c).window tag, ∃ i ∈ win.img,
        ((w.reshapeImage env c tag r).1.client c).wins =
          ((w.client c).putrect tag (Rect.ofSize r.min i.r.size)).wins) ∨
      ∃ id, ((w.reshapeImage env c tag r).1.client c).wins =
        ((w.client c).putimage tag ⟨id, r⟩).wins := by
  rw [reshapeImage]
  split_ifs
  · rw [setorigin]
    split
    · exact Or.inl rfl
    · rename_i img himg
      obtain ⟨win, hwin, hi⟩ := Option.bind_eq_some_iff.mp himg
      split
      all_goals
        rename_i heq
        obtain rfl := congrArg Prod.fst heq
      · refine Or.inr (Or.inl ⟨win, hwin, img, hi, ?_⟩)
        simp only [put_self, images_client]
      · exact Or.inl rfl
  · rw [newwindow]
    split
    · rename_i heq
      obtain rfl := congrArg Prod.fst heq
      exact Or.inl rfl
    · rename_i w₁ img heq
      have himg := congrArg Prod.snd heq
      obtain rfl := congrArg Prod.fst heq
      simp only at himg
      split_ifs at himg
      obtain rfl := Option.some.inj himg
      refine Or.inr (Or.inr ⟨w.tick, ?_⟩)
      split
      all_goals
        rename_i heq'
        obtain rfl := congrArg Prod.fst heq'
        simp only [setimage_client, put_self]

/-- The first half of `reshape` is about one client. -/
theorem reshapeImage_others (env : Env) (w : Wm) (c : Cid) (tag : String) (r : Rect) {a : Cid}
    (ha : a ≠ c) : (w.reshapeImage env c tag r).1.client a = w.client a := by
  rw [reshapeImage]
  split_ifs
  · rw [setorigin]
    split
    · rfl
    · split
      all_goals
        rename_i heq
        obtain rfl := congrArg Prod.fst heq
      · simp only [put_of_ne ha, images_client]
      · rfl
  · rw [newwindow]
    split
    · rename_i heq
      obtain rfl := congrArg Prod.fst heq
      rfl
    · rename_i heq
      obtain rfl := congrArg Prod.fst heq
      split
      all_goals
        rename_i heq'
        obtain rfl := congrArg Prod.fst heq'
        simp only [setimage_client, put_of_ne ha]

/-- It leaves no two windows with one tag. -/
theorem proper_reshapeImage {r : Rect} (h : ∀ a, Proper (w.client a).wins) (a : Cid) :
    Proper ((w.reshapeImage env c tag r).1.client a).wins := by
  by_cases ha : a = c
  · subst ha
    rcases reshapeImage_wins env w a tag r with hw | ⟨win, hwin, i, hi, hw⟩ | ⟨id, hw⟩
    · exact hw ▸ h a
    · rw [hw]
      refine Client.proper_putrect (h a) ?_
      intro win' hwin' i' hi'
      obtain rfl : win = win' := Option.some.inj (hwin.symm.trans hwin')
      obtain rfl : i = i' := Option.some.inj (hi.symm.trans hi')
      rw [Rect.size_ofSize]
    · exact hw ▸ Client.proper_putimage (h a) _
  · rw [reshapeImage_others env w c tag r ha]
    exact h a

/-- A reshape that puts a row where it is, or is not about a row. -/
theorem rowsOf_reshapeImage {r : Rect} (h : Proper (w.client c).wins)
    (hrow : tag = "." → ∃ win ∈ (w.client c).window tag, win.r = r) :
    rowsOf ((w.reshapeImage env c tag r).1.client c).wins = rowsOf (w.client c).wins := by
  rcases reshapeImage_wins env w c tag r with hw | ⟨win, hwin, i, hi, hw⟩ | ⟨id, hw⟩
  · rw [hw]
  · rw [hw]
    refine Client.rowsOf_putrect ?_
    intro hdot win' hwin'
    obtain rfl : win = win' := Option.some.inj (hwin.symm.trans hwin')
    obtain ⟨win', hwin', rfl⟩ := hrow hdot
    obtain rfl : win = win' := Option.some.inj (hwin.symm.trans hwin')
    refine Rect.eq_of_min_of_size rfl ?_
    rw [Rect.size_ofSize]
    exact h.sized win (List.mem_of_find?_eq_some hwin) i hi
  · rw [hw]
    refine Client.rowsOf_putimage ?_
    intro hdot
    obtain ⟨win, hwin, hr⟩ := hrow hdot
    exact ⟨win, hwin, hr.symm⟩

/-- A client that is not on the screen comes last. -/
theorem enlist_order (h : ∃ l, Standing w.z left l ∧ Anchored w.z l) (hc : c < w.z.refs)
    (hleft : c ∉ left) :
    (w.enlist c).order = if c ∈ w.order then w.order else w.order ++ [c] := by
  rw [enlist]
  split_ifs with hm
  · rfl
  · obtain ⟨l, hl, hanch⟩ := h
    have horder : w.order = l := hl.listed.order_eq
    rw [horder] at hm ⊢
    have hsink := hl.xsink hc hleft
    have hb : w.z.bottom ≠ some c := fun hb => hm (hanch c hb)
    rw [if_neg hb, List.erase_of_not_mem hm] at hsink
    exact hsink.listed.order_eq

theorem enlist_client (w : Wm) (c : Cid) : (w.enlist c).client = w.client := by
  rw [enlist]
  split_ifs <;> rfl

theorem enlist_screen (w : Wm) (c : Cid) : (w.enlist c).screen = w.screen := by
  rw [enlist]
  split_ifs <;> rfl

/-- After a reshape the client is on the screen. -/
theorem Displayed.enlist (hz : ∃ l, Standing w.z left l ∧ Anchored w.z l)
    (hproper : ∀ a, Proper (w.client a).wins)
    (hhidden : ∀ a, a ≠ c → a ∉ w.order → a ∉ left → (w.client a).wins = [])
    (hc : c < w.z.refs) (hleft : c ∉ left) : Displayed (w.enlist c) left := by
  have horder := enlist_order hz hc hleft
  refine ⟨?_, fun a => (enlist_client w c).symm ▸ hproper a, ?_⟩
  · obtain ⟨l, hl, hanch⟩ := hz
    rcases Session.enlist_z w c with hsame | ⟨-, hbottom⟩
    · exact ⟨l, hsame.symm ▸ ⟨hl, hanch⟩⟩
    · rw [hbottom]
      exact ⟨_, hl.xsink hc hleft, hanch.sink⟩
  · intro a ha hal
    rw [horder] at ha
    rw [enlist_client]
    split_ifs at ha with hm
    · exact hhidden a (fun h => ha (h ▸ hm)) ha hal
    · have ha' := not_or.mp fun h => ha (List.mem_append.mpr h)
      exact hhidden a (fun h => ha'.2 (List.mem_singleton.mpr h)) ha'.1 hal

/-- Where all images are accepted, a reshape fails only before it changes anything. -/
theorem reshapeImage_refused {r : Rect} (hacc : ∀ n, env.accepts n = true) {e : String}
    (h : w.reshapeImage env c tag r = (w', some e)) : w'.client = w.client := by
  rw [reshapeImage] at h
  split_ifs at h
  · cases h
  · rw [newwindow] at h
    split at h
    · rename_i heq
      obtain rfl := congrArg Prod.fst heq
      obtain rfl := congrArg Prod.fst h
      rfl
    · split at h
      · rename_i heq
        have hrefused := (hacc _).symm.trans (congrArg Prod.snd heq)
        exact Bool.noConfusion hrefused
      · cases h

/-- It succeeds where images can be had and are accepted. -/
theorem reshapeImage_willing (h : env.Willing) (w : Wm) (c : Cid) (tag : String) (r : Rect) :
    (w.reshapeImage env c tag r).2 = none := by
  rw [reshapeImage]
  split_ifs
  · rfl
  · rw [newwindow, h.newwindow]
    simp only [if_true]
    split
    · rename_i heq
      have himage := (h.accepts _).symm.trans (congrArg Prod.snd heq)
      exact Bool.noConfusion himage
    · rfl

end Wm

end Aimsgui
