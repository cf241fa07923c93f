import Aimsgui.RowLayout

/-!
# The sizes of the rows

Windows that were not created and images that were not accepted leave traces in the clients'
records. `Sound` is what is true of these whatever the environment answers, and the lemmas
after it say what `reshape` and `pack_windows` do to the size of each row: `pack_windows`
keeps the height of every row that is on the screen and gives it the screen's width.

Coordinates are integers here and `int`s in the source. Where `reshape` compares sizes they wrap
(`Rect.extent`). The places that `pack_windows` computes could wrap only where the windows are
higher than 2^31 together, which are more pixels than can be created.
-/

namespace Aimsgui

open Transition Zorder

/-! ## The records of one client -/

namespace Client

variable {cl : Client} {tag t : String} {wins : List Window} {f : Window → Window}

/-- A window that is changed is the same for who looks for another tag. -/
theorem find_updatewin_of_ne (hf : ∀ win, (f win).tag = win.tag) (h : t ≠ tag) :
    (updatewin tag f wins).find? (·.tag = t) = wins.find? (·.tag = t) := by
  induction wins with
  | nil => rfl
  | cons win wins ih =>
    rw [updatewin]
    split_ifs with htag
    · have hne : win.tag ≠ t := fun heq => h (heq.symm.trans htag)
      rw [List.find?_cons_of_neg (by simpa [hf] using hne), List.find?_cons_of_neg (by simpa using hne)]
    · rw [List.find?_cons, List.find?_cons, ih]

/-- The window is found as it has been changed. -/
theorem find_updatewin (hf : ∀ win, (f win).tag = win.tag) (tag : String) (wins : List Window) :
    (updatewin tag f wins).find? (·.tag = tag) = (wins.find? (·.tag = tag)).map f := by
  induction wins with
  | nil => rfl
  | cons win wins ih =>
    rw [updatewin]
    split_ifs with htag
    · rw [List.find?_cons_of_pos (by simpa [hf] using htag), List.find?_cons_of_pos (by simpa using htag)]
      rfl
    · rw [List.find?_cons_of_neg (by simpa using htag), List.find?_cons_of_neg (by simpa using htag), ih]

/-- The other windows stay as they are. -/
theorem window_putimage_of_ne (img : Image) (h : t ≠ tag) :
    (cl.putimage tag img).window t = cl.window t := by
  rw [putimage]
  split
  · exact List.find?_cons_of_neg (by simpa using h.symm)
  · exact find_updatewin_of_ne (fun _ => rfl) h

/-- The window has the new image, and its rectangle. -/
theorem window_putimage (cl : Client) (tag : String) (img : Image) :
    ∃ win ∈ (cl.putimage tag img).window tag, win.img = some img ∧ win.r = img.r := by
  rw [putimage]
  split
  · exact ⟨_, List.find?_cons_of_pos (by simp), rfl, rfl⟩
  · rename_i win hwin
    refine ⟨{ win with img := some img, r := img.r }, ?_, rfl, rfl⟩
    have hfind := @find_updatewin (fun w => { w with img := some img, r := img.r })
      (fun _ => rfl) tag cl.wins
    rw [show cl.wins.find? (·.tag = tag) = some win from hwin] at hfind
    exact hfind

theorem window_putrect_of_ne (r : Rect) (h : t ≠ tag) :
    (cl.putrect tag r).window t = cl.window t :=
  find_updatewin_of_ne (fun _ => rfl) h

/-- The window has the new rectangle. -/
theorem window_putrect (cl : Client) (tag : String) (r : Rect) :
    (cl.putrect tag r).window tag = (cl.window tag).map fun win => { win with r := r } :=
  @find_updatewin (fun win => { win with r := r }) (fun _ => rfl) tag cl.wins

end Client

namespace Wm

variable {env : Env} {w w' : Wm} {c : Cid} {tag : String} {left : List Cid} {r newr : Rect}

/-- The size of a client's row. -/
def rowsize (w : Wm) (c : Cid) : Option Point := ((w.client c).window ".").map (·.r.extent)

/-! ## What is true of all records -/

/-- The z-order and every client's windows are well formed. -/
structure Sound (w : Wm) (left : List Cid) : Prop where
  zorder : ∃ l, Standing w.z left l ∧ Anchored w.z l
  proper : ∀ c, Proper (w.client c).wins

theorem Displayed.sound (h : Displayed w left) : Sound w left := ⟨h.zorder, h.proper⟩

namespace Sound

theorem frame (h : Sound w left) (hz : w'.z = w.z)
    (hwins : ∀ c, (w'.client c).wins = (w.client c).wins) : Sound w' left :=
  ⟨hz.symm ▸ h.zorder, fun c => (hwins c).symm ▸ h.proper c⟩

theorem still (h : Sound w left) (hs : Still w w') : Sound w' left := h.frame hs.z hs.wins

/-- Who is on the screen is alive. -/
theorem live (h : Sound w left) (hc : c ∈ w.order) : c < w.z.refs ∧ c ∉ left := by
  obtain ⟨l, hl, -⟩ := h.zorder
  have hm : c ∈ l := hl.listed.order_eq ▸ hc
  exact ⟨hl.listed.bound c hm, hl.present c hm⟩

/-- Nobody comes or goes when a client is brought forward. -/
theorem top (h : Sound w left) (hc : c ∈ w.order) :
    Sound (w.top .rowwm c) left ∧ ∀ a, a ∈ (w.top .rowwm c).order ↔ a ∈ w.order := by
  obtain ⟨hbound, hleft⟩ := h.live hc
  obtain ⟨l, hl, hanch⟩ := h.zorder
  have horder : w.order = l := hl.listed.order_eq
  have htop := hl.xtop hbound hleft
  have horder' : (w.top .rowwm c).order = c :: l.erase c := htop.listed.order_eq
  refine ⟨⟨⟨_, htop, hanch.top hl.listed⟩, h.proper⟩, ?_⟩
  intro a
  rw [horder', horder]
  exact (List.perm_cons_erase (horder ▸ hc)).mem_iff.symm

theorem bottom (h : Sound w left) (hc : c < w.z.refs) (hleft : c ∉ left) :
    Sound (w.bottom .rowwm c) left ∧ ∀ a, a ∈ (w.bottom .rowwm c).order ↔ a ∈ w.order ∨ a = c := by
  obtain ⟨l, hl, hanch⟩ := h.zorder
  have horder : w.order = l := hl.listed.order_eq
  have hsink := hl.xsink hc hleft
  have horder' : (w.bottom .rowwm c).order = _ := hsink.listed.order_eq
  refine ⟨⟨⟨_, hsink, hanch.sink⟩, h.proper⟩, ?_⟩
  intro a
  rw [horder', horder]
  split_ifs with hb
  · -- the tail pointer names only clients that are listed
    refine ⟨Or.inl, ?_⟩
    rintro (ha | rfl)
    · exact ha
    · exact hanch a hb
  · rw [List.mem_append, List.mem_singleton]
    by_cases hac : a = c
    · simp [hac]
    · rw [List.mem_erase_of_ne hac]

/-- A client that is enlisted is on the screen, with all that were. -/
theorem enlist (h : Sound w left) (hc : c < w.z.refs) (hleft : c ∉ left) :
    Sound (w.enlist c) left ∧ ∀ a, a ∈ (w.enlist c).order ↔ a ∈ w.order ∨ a = c := by
  rw [Wm.enlist]
  split_ifs with hm
  · refine ⟨h, ?_⟩
    intro a
    refine ⟨Or.inl, ?_⟩
    rintro (ha | rfl)
    · exact ha
    · exact hm
  · exact h.bottom hc hleft

/-- The header and the footer move among those that are on the screen. -/
theorem packed (h : Sound w left) :
    Sound w.packHeader.packFooter left ∧
      ∀ a, a ∈ w.packHeader.packFooter.order ↔ a ∈ w.order := by
  have hheader : Sound w.packHeader left ∧ ∀ a, a ∈ w.packHeader.order ↔ a ∈ w.order := by
    rw [packHeader]
    split
    · rename_i hc
      exact h.top (mem_of_typed hc)
    · exact ⟨h, fun _ => Iff.rfl⟩
  obtain ⟨hsound, hmem⟩ := hheader
  rw [packFooter]
  split
  · rename_i c hc
    have hc := mem_of_typed hc
    obtain ⟨hbound, hleft⟩ := hsound.live hc
    obtain ⟨hbottom, hmem'⟩ := hsound.bottom hbound hleft
    refine ⟨hbottom, ?_⟩
    intro a
    rw [hmem', hmem]
    refine ⟨?_, Or.inl⟩
    rintro (ha | rfl)
    · exact ha
    · exact (hmem a).mp hc
  · exact ⟨hsound, hmem⟩

/-- The tags stay, and so does the z-order. -/
theorem replaceAll {σ : Type} {place : σ → Window → σ × Option Rect} (h : Sound w left) (s : σ)
    (cs : List Cid) : Sound (replaceAll env newr place w s cs).1 left where
  zorder := (replaceAll_z w s cs).symm ▸ h.zorder
  proper c := replaceAll_wins proper_replaceWins w s cs c (h.proper c)

theorem packWindows (h : Sound w left) (newr : Rect) : Sound (w.packWindows env newr) left :=
  h.packed.1.replaceAll _ _

theorem reshapeImage (h : Sound w left) (env : Env) (c : Cid) (tag : String) (r : Rect) :
    Sound (w.reshapeImage env c tag r).1 left where
  zorder := (reshapeImage_frame env w c tag r).1.symm ▸ h.zorder
  proper a := proper_reshapeImage h.proper a

end Sound

/-! ## What packing does to the sizes -/

theorem client_packHeader (w : Wm) : w.packHeader.client = w.client := by
  rw [packHeader]
  split <;> rfl

theorem client_packFooter (w : Wm) : w.packFooter.client = w.client := by
  rw [packFooter]
  split <;> rfl

/-- The z-order changes before `pack_windows` goes over the windows, and no client does. -/
theorem client_packed (w : Wm) : w.packHeader.packFooter.client = w.client :=
  (client_packFooter _).trans (client_packHeader w)

/-- The tag and the size of a window. -/
def tagsize (win : Window) : String × Point := (win.tag, win.r.extent)

/-- Every window keeps its height and gets the width of the screen. -/
theorem replaceWins_size (w : Wm) (y : Int) (wins : List Window) :
    (replaceWins env newr (row newr) c w y wins).2.2.map tagsize =
      wins.map fun win => (win.tag, ⟨newr.extent.x, win.r.extent.y⟩) := by
  induction wins generalizing w y with
  | nil => rfl
  | cons win wins ih =>
    rw [replaceWins]
    simp only [row, List.map_cons, ih]
    congr 1
    simp only [tagsize, Rect.extent, Rect.dx, Rect.dy, add_sub_cancel_left]

/-- The size of a row, from the sizes of all windows. -/
theorem rowsize_eq (w : Wm) (c : Cid) :
    w.rowsize c = (((w.client c).wins.map tagsize).find? (·.1 = ".")).map Prod.snd := by
  rw [List.find?_map, rowsize, Client.window, Option.map_map]
  rfl

/-- The rows of the clients on the list get the width of the screen. -/
theorem replaceAll_size {cs : List Cid} (hcs : cs.Nodup) (w : Wm) (y : Int) (a : Cid) :
    (replaceAll env newr (row newr) w y cs).1.rowsize a =
      if a ∈ cs then (w.rowsize a).map fun s => ⟨newr.extent.x, s.y⟩ else w.rowsize a := by
  split_ifs with ha
  · have hsizes : ((replaceAll env newr (row newr) w y cs).1.client a).wins.map tagsize =
        (w.client a).wins.map fun win => (win.tag, ⟨newr.extent.x, win.r.extent.y⟩) :=
      replaceAll_client (R := fun wins wins' => wins'.map tagsize =
          wins.map fun win => (win.tag, ⟨newr.extent.x, win.r.extent.y⟩))
        (fun _ => replaceWins_size) w y hcs ha
    rw [rowsize_eq, hsizes, rowsize, Client.window, Option.map_map, List.find?_map, Option.map_map]
    rfl
  · rw [rowsize, replaceAll_client_of_notMem ha, rowsize]

/-- `pack_windows` gives each row on the screen the screen's width. -/
theorem rowsize_packWindows (h : Sound w left) (newr : Rect) (a : Cid) :
    (w.packWindows env newr).rowsize a =
      if a ∈ w.order then (w.rowsize a).map fun s => ⟨newr.extent.x, s.y⟩ else w.rowsize a := by
  obtain ⟨hsound, hmem⟩ := h.packed
  obtain ⟨l, hl, -⟩ := hsound.zorder
  have hnd : w.packHeader.packFooter.order.Nodup := by
    rw [Wm.order, hl.listed.order_eq]
    exact hl.listed.nodup
  have hsame : w.packHeader.packFooter.rowsize a = w.rowsize a := by
    rw [rowsize, client_packed, rowsize]
  rw [packWindows, replaceAll_size hnd, hsame]
  simp only [hmem]

/-- Who is on the screen stays there. -/
theorem order_packWindows (h : Sound w left) (newr : Rect) (a : Cid) :
    a ∈ (w.packWindows env newr).order ↔ a ∈ w.order := by
  have hz : (w.packWindows env newr).order = w.packHeader.packFooter.order := by
    rw [Wm.order, packWindows, replaceAll_z, Wm.order]
  rw [hz]
  exact h.packed.2 a

/-! ## What a reshape does to the sizes -/

theorem rowsize_congr {a : Cid} (h : w'.client a = w.client a) : w'.rowsize a = w.rowsize a := by
  rw [rowsize, h, rowsize]

/-- A reshape is about one window of one client. -/
theorem rowsize_reshapeImage_of_ne {a : Cid} (h : a ≠ c ∨ tag ≠ ".") :
    (w.reshapeImage env c tag r).1.rowsize a = w.rowsize a := by
  by_cases ha : a = c
  · subst ha
    have htag : "." ≠ tag := fun heq => (h.resolve_left fun hne => hne rfl) heq.symm
    have hwindow : ((w.reshapeImage env a tag r).1.client a).window "." = (w.client a).window "." := by
      rcases reshapeImage_wins env w a tag r with hw | ⟨win, -, i, -, hw⟩ | ⟨id, hw⟩
      · rw [Client.window, hw, Client.window]
      · rw [Client.window, hw]
        exact Client.window_putrect_of_ne _ htag
      · rw [Client.window, hw]
        exact Client.window_putimage_of_ne _ htag
    rw [rowsize, hwindow, rowsize]
  · exact rowsize_congr (reshapeImage_others env w c tag r ha)

/-- The row of a client has its own size after a reshape, or the new one. -/
theorem rowsize_reshapeImage (h : Sound w left) (env : Env) (c : Cid) (r : Rect) :
    (w.reshapeImage env c "." r).1.rowsize c = w.rowsize c ∨
      (w.reshapeImage env c "." r).1.rowsize c = some r.extent := by
  rcases reshapeImage_wins env w c "." r with hw | ⟨win, hwin, i, hi, hw⟩ | ⟨id, hw⟩
  · left
    rw [rowsize, Client.window, hw, rowsize, Client.window]
  · -- the window moves together with an image that has its size
    left
    have hsize := (h.proper c).sized win (List.mem_of_find?_eq_some hwin) i hi
    have hwindow := Client.window_putrect (w.client c) "." (Rect.ofSize r.min i.r.size)
    rw [show (w.client c).window "." = some win from hwin] at hwindow
    rw [rowsize, Client.window, hw]
    rw [Client.window] at hwindow
    rw [hwindow, rowsize, show (w.client c).window "." = some win from hwin]
    simp only [Option.map_some]
    exact congrArg some (Rect.extent_congr ((Rect.size_ofSize _ _).trans hsize))
  · right
    obtain ⟨win, hwin, -, hr⟩ := Client.window_putimage (w.client c) "." ⟨id, r⟩
    rw [rowsize, Client.window, hw]
    rw [Client.window, Option.mem_def] at hwin
    rw [hwin, Option.map_some, hr]

/-- A row of another size gets a new image, if it gets one at all. -/
theorem rowsize_reshapeImage_of_not_samesize (hsize : ¬ w.Samesize c "." r)
    (hok : (w.reshapeImage env c "." r).2 = none) :
    (w.reshapeImage env c "." r).1.rowsize c = some r.extent := by
  obtain ⟨win, hwin, -, hr⟩ := Client.window_putimage (w.client c) "." ⟨w.tick, r⟩
  have hput : ∀ w₁ : Wm, w₁.client = w.client →
      (w₁.setimage env c "." ⟨w.tick, r⟩).1.rowsize c = some r.extent := fun w₁ hclient => by
    rw [rowsize, setimage_client, put_self, hclient, show Client.window _ _ = some win from hwin,
      Option.map_some, hr]
  have hmoves : ¬ w.Moves c "." r := fun h => hsize h.2
  rw [reshapeImage, if_neg hmoves, newwindow] at hok ⊢
  split at hok
  · cases hok
  · rename_i w₁ img heq
    have himg := congrArg Prod.snd heq
    obtain rfl := congrArg Prod.fst heq
    simp only at himg
    split_ifs at himg with hnew
    obtain rfl := Option.some.inj himg
    simp only
    split
    all_goals
      rename_i heq'
      obtain rfl := congrArg Prod.fst heq'
      exact hput _ rfl

/-- A request about the row is for the size that the row has. -/
theorem samesize_iff : w.Samesize c "." r ↔ w.rowsize c = some r.extent := by
  rw [Samesize, rowsize]
  cases (w.client c).window "." with
  | none => simp
  | some win => simp

end Wm

/-! ## Over whole runs -/

namespace Session

open Wm

variable {env : Env} {s s' : Session} {e : Event} {w : Wm} {screen : Rect} {es : List Event}

theorem packing_sound (h : Sound s.wm s.left) (hstep : s.step .rowwm env e = some s')
    (hp : s.packing env e = some w) : Sound w s'.left := by
  cases e with
  | leave c =>
    simp only [step] at hstep
    split_ifs at hstep with hc
    obtain rfl := Option.some.inj hstep
    obtain rfl := Option.some.inj hp
    obtain ⟨l, hl, hanch⟩ := h.zorder
    have hremove : Sound (s.wm.remove .rowwm c) (c :: s.left) :=
      ⟨⟨_, hl.xremove hc.2, hanch.remove hl.listed⟩, h.proper⟩
    refine hremove.still ?_
    simp only [departing]
    refine Still.trans ?_ (Still.controlevent _)
    exact Still.rfl'.frame rfl rfl rfl rfl
  | request c data ptr =>
    simp only [step] at hstep
    split_ifs at hstep with hc
    obtain ⟨⟨w', a⟩, -, rfl⟩ := Option.map_eq_some_iff.mp hstep
    obtain ⟨⟨w₁, tag, r⟩, hcall, hpack⟩ := Option.bind_eq_some_iff.mp hp
    have hstill := Still.reshapeCall hcall
    have h₁ := (h.still hstill).reshapeImage env c tag r
    have hz := (reshapeImage_frame env w₁ c tag r).1
    simp only [reshapePacking] at hpack
    split at hpack
    · cases hpack
    · rename_i w₂ heq
      split_ifs at hpack
      obtain rfl := Option.some.inj hpack
      obtain rfl := congrArg Prod.fst heq
      exact (h₁.enlist (hz.symm ▸ hstill.z.symm ▸ hc.1) hc.2).1
  | winctl e img =>
    obtain rfl := Option.some.inj hstep
    cases img with
    | none => cases hp
    | some newr =>
      obtain rfl := Option.some.inj hp
      refine Sound.replaceAll ?_ _ _
      exact h.frame (still_told _ _).z (still_told _ _).wins
  | opened | join | key | pointer => cases hp

theorem unpacked_sound (h : Sound s.wm s.left) (hw : Unpacked env s e w) : Sound w s.left := by
  cases hw with
  | still hstill => exact h.still hstill
  | opened =>
    obtain ⟨l, hl, hanch⟩ := h.zorder
    refine ⟨⟨l, hl.opened, hanch⟩, ?_⟩
    intro a
    simp only [addclient, Function.update_apply]
    split_ifs
    · exact ⟨List.nodup_nil, fun _ hm => absurd hm List.not_mem_nil⟩
    · exact h.proper a
  | @reshape c data ptr w₁ tag r hc hcall hpack =>
    have hstill := Still.reshapeCall hcall
    have h₁ := (h.still hstill).reshapeImage env c tag r
    have hz := (reshapeImage_frame env w₁ c tag r).1
    rcases reshape_unpacked hpack with ⟨err, herr⟩ | ⟨-, -, heq⟩
    · rw [herr] at h₁
      exact h₁
    · rw [heq]
      exact (h₁.enlist (hz.symm ▸ hstill.z.symm ▸ hc.1) hc.2).1
  | @delete c data ptr tag args w hdata hstill =>
    refine Sound.still (w := s.wm.put c (·.dropwin tag)) ⟨h.zorder, ?_⟩ hstill
    intro a
    by_cases hac : a = c
    · subst hac
      rw [put_self]
      exact Client.proper_dropwin (h.proper a)
    · rw [put_of_ne hac]
      exact h.proper a

/-- Every step keeps the screen sound. -/
theorem step_sound (h : Sound s.wm s.left) (hstep : s.step .rowwm env e = some s') :
    Sound s'.wm s'.left := by
  cases hp : s.packing env e with
  | none =>
    rw [step_left hstep hp]
    exact unpacked_sound h (step_unpacked hstep hp)
  | some w => exact ((packing_sound h hstep hp).packWindows w.screen).still (step_packed hstep hp)

/-- Whatever the environment answers, the records are well formed. -/
theorem run_sound (h : Run (StepOf (step .rowwm env)) (start screen) es s) : Sound s.wm s.left :=
  h.invariant (I := fun s => Sound s.wm s.left) start_displayed.sound
    fun _ _ _ hs hstep => step_sound hs hstep

/-- Where all images are accepted, a client that is not on the screen has no windows. -/
theorem run_displayed (hacc : ∀ n, env.accepts n = true)
    (h : Run (StepOf (step .rowwm env)) (start screen) es s) : Displayed s.wm s.left :=
  h.invariant (I := fun s => Displayed s.wm s.left) start_displayed
    fun _ _ _ hs hstep => step_displayed hacc hs hstep

end Session

end Aimsgui
