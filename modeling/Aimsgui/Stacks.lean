import Aimsgui.Listing
import Aimsgui.Sizes
import Mathlib.Data.List.Chain

/-!
# What `pack_windows` leaves on the screen, and what it sends

`pack_windows` goes through the clients in the z-order and through the windows of each one;
it stacks all windows from the upper edge down, each as high as it was, gives each one a new
image, and tells the clients. `packWindows_stacks_iff` ties the rectangles, the images and the
messages together, for any clients and any windows: the format `%q` cuts a tag at its first NUL,
and that is all that comes between a window and the message about it.
-/

namespace Aimsgui

open Transition Zorder

namespace Wm

variable {env : Env} {w : Wm} {c : Cid} {newr : Rect} {y y' y'' : Int}
  {wins wins' wins₁ wins₁' : List Window} {left l : List Cid}

/-- The windows `wins` have been stacked from `y` to `y'`, and are `wins'` now. -/
inductive Stacks (newr : Rect) : Int → List Window → List Window → Int → Prop where
  | nil {y : Int} : Stacks newr y [] [] y
  | cons {y y' : Int} {win : Window} {img : Option Image} {wins wins' : List Window} :
      (∀ i ∈ img, i.r = ⟨⟨newr.min.x, y⟩, ⟨newr.max.x, y + win.r.dy⟩⟩) →
      Stacks newr (y + win.r.dy) wins wins' y' →
      Stacks newr y (win :: wins)
        ({ win with r := ⟨⟨newr.min.x, y⟩, ⟨newr.max.x, y + win.r.dy⟩⟩, img := img } :: wins') y'

namespace Stacks

theorem append (h : Stacks newr y wins wins' y') (h₁ : Stacks newr y' wins₁ wins₁' y'') :
    Stacks newr y (wins ++ wins₁) (wins' ++ wins₁') y'' := by
  induction h with
  | nil => exact h₁
  | cons hr _ ih => exact .cons hr (ih h₁)

/-- The windows are the same, and as high as before. -/
theorem heights (h : Stacks newr y wins wins' y') :
    wins'.map (fun win => (win.tag, win.height)) = wins.map fun win => (win.tag, win.height) := by
  induction h with
  | nil => rfl
  | cons _ _ ih =>
    rw [List.map_cons, List.map_cons, ih]
    congr 2
    simp only [Window.height, Rect.dy]
    omega

/-- Each window reaches across, and its image has its rectangle. -/
theorem across (h : Stacks newr y wins wins' y') :
    ∀ win ∈ wins', (win.r.min.x = newr.min.x ∧ win.r.max.x = newr.max.x) ∧
      ∀ i ∈ win.img, i.r = win.r := by
  induction h with
  | nil => exact fun _ hm => absurd hm List.not_mem_nil
  | cons hr _ ih =>
    intro win hm
    rcases List.mem_cons.mp hm with rfl | hm
    · exact ⟨⟨rfl, rfl⟩, hr⟩
    · exact ih win hm

/-- The first window begins at `y`. -/
theorem first (h : Stacks newr y wins wins' y') : ∀ win ∈ wins'.head?, win.r.min.y = y := by
  cases h with
  | nil => exact fun _ hm => absurd hm (by simp)
  | cons =>
    rintro win ⟨⟩
    rfl

/-- Each next window begins where the one before it ends. -/
theorem next (h : Stacks newr y wins wins' y') :
    wins'.IsChain fun a b => b.r.min.y = a.r.max.y := by
  induction h with
  | nil => exact .nil
  | cons _ hrest ih =>
    refine List.isChain_cons.mpr ⟨?_, ih⟩
    intro win hm
    exact hrest.first win hm

end Stacks

/-- What a client is told about its windows. -/
def tidings (newr : Rect) (c : Cid) (wins : List Window) : List Send :=
  wins.flatMap fun win => [.ctl c (reshapeMsg win.tag win.r), .ctl c ("rect " ++ r2s newr)]

/-- The clients are told about windows of theirs, one after the other: each time by a message whose
words are "!reshape", the tag, -1 and the rectangle, and by one about `newr`. -/
inductive Told (newr : Rect) : List (Cid × Window) → List Send → Prop where
  | nil : Told newr [] []
  | cons {c : Cid} {win : Window} {msg : String} {wins : List (Cid × Window)} {sent : List Send} :
      unquoted msg = ["!reshape", win.tag, "-1", toString win.r.min.x, toString win.r.min.y,
        toString win.r.max.x, toString win.r.max.y] →
      Told newr wins sent →
      Told newr ((c, win) :: wins) (.ctl c msg :: .ctl c ("rect " ++ r2s newr) :: sent)

/-- The windows on the screen, each with its client. -/
def owned (w : Wm) : List (Cid × Window) :=
  w.order.flatMap fun c => (w.client c).wins.map fun win => (c, win)

/-- A message names the window that it is about if there is no NUL in the tag. -/
theorem told_iff (newr : Rect) (wins : List (Cid × Window)) :
    Told newr wins (wins.flatMap fun x => tidings newr x.1 [x.2]) ↔
      ∀ x ∈ wins, '\x00' ∉ x.2.tag.toList := by
  induction wins with
  | nil => exact iff_of_true .nil fun _ hm => absurd hm List.not_mem_nil
  | cons x wins ih =>
    obtain ⟨c, win⟩ := x
    have hmsg : unquoted (reshapeMsg win.tag win.r) = ["!reshape", win.tag, "-1",
        toString win.r.min.x, toString win.r.min.y, toString win.r.max.x, toString win.r.max.y] ↔
        '\x00' ∉ win.tag.toList := by
      rw [unquoted_reshapeMsg, ← cstring_eq_self_iff]
      simp
    rw [List.forall_mem_cons, ← ih, ← hmsg]
    constructor
    · intro h
      cases h with
      | cons hwords hrest => exact ⟨hwords, hrest⟩
    · exact fun h => .cons h.1 h.2

/-- A window that is created has the rectangle that was asked for. -/
theorem newwindow_r (env : Env) (w : Wm) (r : Rect) : ∀ i ∈ (newwindow env w r).2, i.r = r := by
  intro i hi
  rw [newwindow] at hi
  split_ifs at hi
  · rw [← Option.some.inj hi]
  · cases hi

/-- The inner loop stacks the windows of one client, and tells it. -/
theorem replaceWins_stacks (env : Env) (w : Wm) (c : Cid) (newr : Rect) (y : Int)
    (wins : List Window) :
    ∃ w' y' wins', replaceWins env newr (row newr) c w y wins = (w', y', wins') ∧
      Stacks newr y wins wins' y' ∧
      ((∀ n, env.newwindow n = true) → ∀ win ∈ wins', win.img ≠ none) ∧
      w'.client = w.client ∧ w'.out = w.out ++ tidings newr c wins' := by
  induction wins generalizing w y with
  | nil =>
    refine ⟨w, y, [], rfl, .nil, ?_, rfl, (List.append_nil _).symm⟩
    exact fun _ _ hm => absurd hm List.not_mem_nil
  | cons win wins ih =>
    let nr : Rect := ⟨⟨newr.min.x, y⟩, ⟨newr.max.x, y + win.r.dy⟩⟩
    obtain ⟨w', y', wins', heq, hstacks, himaged, hclient, hout⟩ :=
      ih (((newwindow env w nr).1.ctl c (reshapeMsg win.tag nr)).ctl c ("rect " ++ r2s newr))
        (y + win.r.dy)
    refine ⟨w', y', { win with r := nr, img := (newwindow env w nr).2 } :: wins', ?_,
      .cons (newwindow_r env w nr) hstacks, ?_, hclient, ?_⟩
    · rw [replaceWins, row]
      simp only
      rw [heq]
    · intro henv win' hm
      rcases List.mem_cons.mp hm with rfl | hm
      · simp [newwindow, henv]
      · exact himaged henv win' hm
    · rw [hout]
      simp [tidings, Wm.ctl, Wm.send, newwindow, nr]

/-- The outer loop stacks the windows of all clients, and tells each. -/
theorem replaceAll_stacks (env : Env) (w : Wm) (newr : Rect) (y : Int) {cs : List Cid}
    (hcs : cs.Nodup) :
    ∃ w' y', replaceAll env newr (row newr) w y cs = (w', y') ∧
      Stacks newr y (cs.flatMap fun c => (w.client c).wins)
        (cs.flatMap fun c => (w'.client c).wins) y' ∧
      w'.out = w.out ++ cs.flatMap fun c => tidings newr c (w'.client c).wins := by
  induction cs generalizing w y with
  | nil => exact ⟨w, y, rfl, .nil, (List.append_nil _).symm⟩
  | cons c cs ih =>
    obtain ⟨hc, hcs⟩ := List.nodup_cons.mp hcs
    obtain ⟨w₁, y₁, wins', heq, hstacks, -, hclient, hout⟩ :=
      replaceWins_stacks env w c newr y (w.client c).wins
    obtain ⟨w', y', heq', hstacks', hout'⟩ :=
      ih (w₁.put c fun cl => { cl with wins := wins' }) y₁ hcs
    -- the windows of `c` are not touched again, and those of the others have not been
    have hself : (w'.client c).wins = wins' := by
      rw [show w' = _ from congrArg Prod.fst heq'.symm, replaceAll_client_of_notMem hc, put_self]
    have hwins : (cs.flatMap fun a =>
        ((w₁.put c fun cl => { cl with wins := wins' }).client a).wins) =
          cs.flatMap fun a => (w.client a).wins := by
      refine List.flatMap_congr ?_
      intro a ha
      have hac : a ≠ c := fun h => hc (h ▸ ha)
      rw [put_of_ne hac, hclient]
    refine ⟨w', y', ?_, ?_, ?_⟩
    · rw [replaceAll, heq]
      exact heq'
    · rw [List.flatMap_cons, List.flatMap_cons, hself]
      exact hstacks.append (hwins ▸ hstacks')
    · rw [hout', List.flatMap_cons, hself, ← List.append_assoc, ← hout]
      rfl

/-- What `pack_windows` keeps of a client's windows, and gives to each. -/
def Repacked (env : Env) (wins wins' : List Window) : Prop :=
  wins'.map (fun win => (win.tag, win.height)) = wins.map (fun win => (win.tag, win.height)) ∧
    ((∀ n, env.newwindow n = true) → ∀ win ∈ wins', win.img ≠ none)

theorem repacked_replaceWins (c : Cid) (w : Wm) (y : Int) (wins : List Window) :
    Repacked env wins (replaceWins env newr (row newr) c w y wins).2.2 := by
  obtain ⟨w', y', wins', heq, hstacks, himaged, -⟩ := replaceWins_stacks env w c newr y wins
  rw [heq]
  exact ⟨hstacks.heights, himaged⟩

theorem tidings_owned (newr : Rect) (w : Wm) :
    (w.owned.flatMap fun x => tidings newr x.1 [x.2]) =
      w.order.flatMap fun c => tidings newr c (w.client c).wins := by
  simp only [owned, tidings, List.flatMap_assoc, List.flatMap_map, List.flatMap_singleton]

theorem out_packed (w : Wm) : w.packHeader.packFooter.out = w.out := by
  rw [packFooter, packHeader]
  split <;> split <;> rfl

/-- The header and the footer move among those that are on the screen. -/
theorem perm_packed (h : Standing w.z left l) : w.packHeader.packFooter.order.Perm w.order := by
  have hmem : ∀ {w : Wm} {l : List Cid} {a : String} {c : Cid}, Standing w.z left l →
      w.typed a = some c → c ∈ l ∧ c < w.z.refs ∧ c ∉ left := by
    intro w l a c h hc
    have hl : c ∈ l := h.listed.order_eq ▸ mem_of_typed hc
    exact ⟨hl, h.listed.bound c hl, h.present c hl⟩
  have horder : w.order = l := h.listed.order_eq
  obtain ⟨l₁, h₁, hheader⟩ : ∃ l₁, Standing w.packHeader.z left l₁ ∧ l₁.Perm w.order := by
    rw [packHeader]
    split
    · rename_i c hc
      obtain ⟨hl, hbound, hleft⟩ := hmem h hc
      exact ⟨_, h.xtop hbound hleft, horder ▸ (List.perm_cons_erase hl).symm⟩
    · exact ⟨l, h, List.Perm.of_eq horder.symm⟩
  rw [packFooter]
  split
  · rename_i c hc
    obtain ⟨hl, hbound, hleft⟩ := hmem h₁ hc
    have hsink := h₁.xsink hbound hleft
    have hsunk : (w.packHeader.bottom .rowwm c).order = _ := hsink.listed.order_eq
    rw [hsunk]
    split_ifs
    · exact hheader
    · exact ((List.perm_append_singleton c _).trans (List.perm_cons_erase hl).symm).trans hheader
  · exact (List.Perm.of_eq h₁.listed.order_eq).trans hheader

theorem nodup_packed (h : Standing w.z left l) : w.packHeader.packFooter.order.Nodup := by
  rw [(perm_packed h).nodup_iff, Wm.order, h.listed.order_eq]
  exact h.listed.nodup

theorem packWindows_order (env : Env) (w : Wm) (newr : Rect) :
    (w.packWindows env newr).order = w.packHeader.packFooter.order := by
  rw [Wm.order, packWindows, replaceAll_z, Wm.order]

/-- `pack_windows` as a whole. -/
theorem packWindows_spec (env : Env) (h : Standing w.z left l) (newr : Rect) :
    (∃ y, Stacks newr newr.min.y w.packHeader.packFooter.shown (w.packWindows env newr).shown y) ∧
      (∀ c ∈ (w.packWindows env newr).order,
        ((w.packWindows env newr).client c).wins.map (fun win => (win.tag, win.height)) =
            ((w.client c).wins.map fun win => (win.tag, win.height)) ∧
          ((∀ n, env.newwindow n = true) →
            ∀ win ∈ ((w.packWindows env newr).client c).wins, win.img ≠ none)) ∧
      (∀ c ∉ (w.packWindows env newr).order,
        (w.packWindows env newr).client c = w.client c) ∧
      (w.packWindows env newr).out = w.out ++
        (w.packWindows env newr).order.flatMap fun c =>
          tidings newr c ((w.packWindows env newr).client c).wins := by
  obtain ⟨w', y', heq, hstacks, hsent⟩ :=
    replaceAll_stacks env w.packHeader.packFooter newr newr.min.y (nodup_packed h)
  have hw' : w.packWindows env newr = w' := congrArg Prod.fst heq
  rw [out_packed] at hsent
  refine ⟨⟨y', ?_⟩, ?_, ?_, ?_⟩
  · rwa [shown, shown, packWindows_order, hw']
  · intro c hc
    rw [packWindows_order] at hc
    have hclient : Repacked env (w.packHeader.packFooter.client c).wins
        ((w.packWindows env newr).client c).wins :=
      replaceAll_client repacked_replaceWins _ _ (nodup_packed h) hc
    rwa [client_packed] at hclient
  · intro c hc
    rw [packWindows_order] at hc
    rw [packWindows, replaceAll_client_of_notMem hc, client_packed]
  · rwa [packWindows_order, hw']

/-- Windows that lie on one another between the edges of `newr`, from its upper edge down. -/
structure Stacked (newr : Rect) (wins : List Window) : Prop where
  across : ∀ win ∈ wins, win.r.min.x = newr.min.x ∧ win.r.max.x = newr.max.x
  first : ∀ win ∈ wins.head?, win.r.min.y = newr.min.y
  next : wins.IsChain fun a b => b.r.min.y = a.r.max.y

/-- For any clients and windows: after `pack_windows` the windows, in the z-order and for each
client in the order of its list, are stacked from the upper edge of `newr` down, and are as high
as before; each image has its window's rectangle, and what is sent is, for each window in turn,
its new place and `newr`, just if no window on the screen has a NUL in its tag. -/
theorem packWindows_stacks_iff (henv : ∀ n, env.newwindow n = true) (h : Standing w.z left l)
    (newr : Rect) :
    (Stacked newr (w.packWindows env newr).shown ∧
      (∀ c ∈ (w.packWindows env newr).order,
        ((w.packWindows env newr).client c).wins.map (fun win => (win.tag, win.height)) =
          (w.client c).wins.map fun win => (win.tag, win.height)) ∧
      (∀ win ∈ (w.packWindows env newr).shown, win.img.map Image.r = some win.r) ∧
      ∃ sent, (w.packWindows env newr).out = w.out ++ sent ∧
        Told newr (w.packWindows env newr).owned sent) ↔
      ∀ win ∈ w.shown, '\x00' ∉ win.tag.toList := by
  obtain ⟨⟨y, hstacks⟩, hclients, -, hsent⟩ := packWindows_spec env h newr
  have hacross := hstacks.across
  have hstacked : Stacked newr (w.packWindows env newr).shown :=
    ⟨fun win hm => (hacross win hm).1, hstacks.first, hstacks.next⟩
  have himages : ∀ win ∈ (w.packWindows env newr).shown, win.img.map Image.r = some win.r := by
    intro win hm
    obtain ⟨c, hc, hwin⟩ := List.mem_flatMap.mp hm
    obtain ⟨i, hi⟩ := Option.ne_none_iff_exists'.mp ((hclients c hc).2 henv win hwin)
    rw [hi, Option.map_some, (hacross win hm).2 i hi]
  have htold := told_iff newr (w.packWindows env newr).owned
  rw [tidings_owned] at htold
  have htags : (∀ x ∈ (w.packWindows env newr).owned, '\x00' ∉ x.2.tag.toList) ↔
      ∀ win ∈ w.shown, '\x00' ∉ win.tag.toList := by
    have hperm : (w.packWindows env newr).order.Perm w.order := by
      rw [packWindows_order]
      exact perm_packed h
    have htag : ∀ c ∈ (w.packWindows env newr).order,
        ((w.packWindows env newr).client c).wins.map Window.tag =
          (w.client c).wins.map Window.tag := by
      intro c hc
      simpa [Function.comp_def] using congrArg (List.map Prod.fst) (hclients c hc).1
    simp only [owned, shown, List.mem_flatMap, List.mem_map, forall_exists_index, and_imp]
    constructor
    · intro hall win c hc hwin
      have hm : win.tag ∈ ((w.packWindows env newr).client c).wins.map Window.tag :=
        htag c (hperm.mem_iff.mpr hc) ▸ List.mem_map_of_mem hwin
      obtain ⟨win', hwin', heq⟩ := List.mem_map.mp hm
      exact heq ▸ hall (c, win') c (hperm.mem_iff.mpr hc) win' hwin' rfl
    · rintro hall _ c hc win hwin rfl
      have hm : win.tag ∈ (w.client c).wins.map Window.tag := htag c hc ▸ List.mem_map_of_mem hwin
      obtain ⟨win', hwin', heq⟩ := List.mem_map.mp hm
      exact heq ▸ hall win' c (hperm.mem_iff.mp hc) hwin'
  rw [← htags, ← htold]
  constructor
  · rintro ⟨-, -, -, sent, hout, hsays⟩
    rw [hsent] at hout
    rwa [← List.append_cancel_left hout] at hsays
  · exact fun hsays => ⟨hstacked, fun c hc => (hclients c hc).1, himages, _, hsent, hsays⟩

/-- Two rows and a pop-up window of the upper one, of which the lower row is the footer. -/
theorem packWindows_stacks_two :
    ∃ s, Run (StepOf (Session.step .rowwm default)) (Session.start ⟨⟨0, 0⟩, ⟨196, 400⟩⟩)
        (Session.showTyped 0 "footer" ++ Session.showRow 1 ++
          [.request 1 "!reshape menu -1 10 10 60 90" []]) s ∧
      (s.wm.packWindows default ⟨⟨0, 0⟩, ⟨196, 400⟩⟩).shown.length = 3 ∧
      Stacked ⟨⟨0, 0⟩, ⟨196, 400⟩⟩ (s.wm.packWindows default ⟨⟨0, 0⟩, ⟨196, 400⟩⟩).shown := by
  obtain ⟨s, hrun, hshown, htags⟩ : ∃ s,
      Run (StepOf (Session.step .rowwm default)) (Session.start ⟨⟨0, 0⟩, ⟨196, 400⟩⟩)
        (Session.showTyped 0 "footer" ++ Session.showRow 1 ++
          [.request 1 "!reshape menu -1 10 10 60 90" []]) s ∧
      (s.wm.packWindows default ⟨⟨0, 0⟩, ⟨196, 400⟩⟩).shown.length = 3 ∧
      s.wm.shown.map Window.tag = ["menu", ".", "."] :=
    Run.exists_of_exec (by decide +kernel)
  obtain ⟨l, hl, -⟩ := (Session.run_sound hrun).zorder
  have hnul : ∀ tag ∈ s.wm.shown.map Window.tag, '\x00' ∉ tag.toList := by
    rw [htags]
    decide
  have htags : ∀ win ∈ s.wm.shown, '\x00' ∉ win.tag.toList :=
    fun win hm => hnul _ (List.mem_map_of_mem hm)
  exact ⟨s, hrun, hshown, ((packWindows_stacks_iff (fun _ => rfl) hl _).mpr htags).1⟩

/-- A pop-up window has a NUL in its tag, and its client is told about a window that it does not
have. -/
theorem stacks_cut_tag :
    ∃ s, Run (StepOf (Session.step .rowwm default)) (Session.start ⟨⟨0, 0⟩, ⟨196, 400⟩⟩)
        (Session.showRow 0 ++ [.request 0 "!reshape a\x00b -1 10 10 60 90" []]) s ∧
      (s.wm.packWindows default ⟨⟨0, 0⟩, ⟨196, 400⟩⟩).shown.map Window.tag = ["a\x00b", "."] ∧
      (s.wm.packWindows default ⟨⟨0, 0⟩, ⟨196, 400⟩⟩).out = s.wm.out ++
        [.ctl 0 "!reshape a -1 0 0 196 80", .ctl 0 "rect 0 0 196 400",
          .ctl 0 "!reshape . -1 0 80 196 100", .ctl 0 "rect 0 0 196 400"] :=
  Run.exists_of_exec (by decide +kernel)

end Wm

end Aimsgui
