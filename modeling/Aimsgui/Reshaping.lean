import Aimsgui.Repacking

/-!
# A reshape that fails

`reshape` answers with an error when the window cannot be created and when the client does
not accept the image. In the second case `Client.setimage` has recorded the image and the
rectangle before it asks the client. So a failed reshape changes nothing just if it was the
window that could not be created (`reshape_unchanged_iff`). That the recorded image is another
one than before follows from the order in which images are made (`Dated`).
-/

namespace Aimsgui

open Transition Zorder

/-- `Client.setimage` records the image. -/
theorem Client.mem_putimage (cl : Client) (tag : String) (img : Image) :
    ∃ win ∈ (cl.putimage tag img).wins, win.img = some img := by
  rw [putimage]
  split
  · exact ⟨_, List.mem_cons_self, rfl⟩
  · rename_i win₀ hwin
    rw [window] at hwin
    dsimp only
    generalize cl.wins = wins at hwin ⊢
    induction wins with
    | nil => cases hwin
    | cons win wins ih =>
      rw [updatewin]
      split_ifs with htag
      · exact ⟨_, List.mem_cons_self, rfl⟩
      · rw [List.find?_cons_of_neg (by simpa using htag)] at hwin
        obtain ⟨win', hm, himg⟩ := ih hwin
        exact ⟨win', List.mem_cons_of_mem _ hm, himg⟩

/-- `delete` takes windows away. -/
theorem Client.mem_dropwin {cl : Client} {tag : String} {win : Window}
    (h : win ∈ (cl.dropwin tag).wins) : win ∈ cl.wins := by
  rw [dropwin.eq_def] at h
  split at h
  · split_ifs at h
    · rename_i heq _
      exact heq ▸ List.mem_cons_of_mem _ h
    · exact List.mem_of_mem_filter h
  · exact h

namespace Wm

variable {env : Env} {w w' : Wm} {c : Cid} {tag : String} {r newr : Rect}

/-- A new client has no windows. -/
theorem mem_addclient {id : Nat} {win : Window} (h : win ∈ ((w.addclient id).client c).wins) :
    win ∈ (w.client c).wins := by
  simp only [addclient, Function.update_apply] at h
  split_ifs at h
  · exact absurd h List.not_mem_nil
  · exact h

/-- All images that are recorded have been made before now. -/
def Dated (w : Wm) : Prop := ∀ c, ∀ win ∈ (w.client c).wins, ∀ i ∈ win.img, i.id < w.tick

/-- A window that is created is the newest one. -/
theorem newwindow_id (env : Env) (w : Wm) (r : Rect) :
    ∀ i ∈ (newwindow env w r).2, i.id = w.tick := by
  intro i hi
  rw [newwindow] at hi
  split_ifs at hi
  · rw [← Option.some.inj hi]
  · cases hi

theorem tick_packed (w : Wm) : w.packHeader.packFooter.tick = w.tick := by
  rw [packFooter, packHeader]
  split <;> split <;> rfl

namespace Dated

/-- No window is added, and no image but older ones. -/
theorem of_subset (h : Dated w) (htick : w.tick ≤ w'.tick)
    (hwins : ∀ a, ∀ win ∈ (w'.client a).wins, win ∈ (w.client a).wins) : Dated w' :=
  fun a win hwin i hi => (h a win (hwins a win hwin) i hi).trans_le htick

/-- Only the clients and the clock count, which never goes back. -/
theorem frame (h : Dated w) (hclient : w'.client = w.client) (htick : w.tick ≤ w'.tick) :
    Dated w' := by
  apply h.of_subset htick
  intro a win hwin
  rwa [hclient] at hwin

theorem still (h : Dated w) (hs : Still w w') : Dated w' := by
  apply h.of_subset hs.tick
  intro a win hwin
  rwa [hs.wins a] at hwin

theorem put {f : Client → Client} (h : Dated w)
    (hf : ∀ win ∈ (f (w.client c)).wins, ∀ i ∈ win.img, i.id < w.tick) : Dated (w.put c f) := by
  intro a win hwin
  by_cases ha : a = c
  · subst ha
    rw [put_self] at hwin
    exact hf win hwin
  · rw [put_of_ne ha] at hwin
    exact h a win hwin

theorem opened (h : Dated w) (id : Nat) : Dated (w.addclient id) :=
  h.of_subset le_rfl fun _ _ hwin => mem_addclient hwin

/-! ## Placing windows anew -/

/-- New images are of the time when they are made. -/
theorem replaceWins {σ : Type} {place : σ → Window → σ × Option Rect} (w : Wm) (s : σ)
    {wins : List Window} (h : ∀ win ∈ wins, ∀ i ∈ win.img, i.id < w.tick) :
    w.tick ≤ (Wm.replaceWins env newr place c w s wins).1.tick ∧
      ∀ win ∈ (Wm.replaceWins env newr place c w s wins).2.2, ∀ i ∈ win.img,
        i.id < (Wm.replaceWins env newr place c w s wins).1.tick := by
  induction wins generalizing w s with
  | nil => exact ⟨le_rfl, h⟩
  | cons win wins ih =>
    rw [Wm.replaceWins]
    split
    · rename_i s' heq
      obtain ⟨htick, hdated⟩ := ih w s' fun win' hm => h win' (List.mem_cons_of_mem _ hm)
      refine ⟨htick, ?_⟩
      intro win' hm i hi
      rcases List.mem_cons.mp hm with rfl | hm
      · exact (h win' List.mem_cons_self i hi).trans_le htick
      · exact hdated win' hm i hi
    · rename_i s' nr heq
      let w₁ := ((newwindow env w nr).1.ctl c (reshapeMsg win.tag nr)).ctl c ("rect " ++ r2s newr)
      have hw₁ : w₁.tick = w.tick + 1 := rfl
      obtain ⟨htick, hdated⟩ := ih w₁ s' fun win' hm i hi =>
        (h win' (List.mem_cons_of_mem _ hm) i hi).trans_le (Nat.le_succ _)
      rw [hw₁] at htick
      refine ⟨(Nat.le_succ _).trans htick, ?_⟩
      intro win' hm i hi
      rcases List.mem_cons.mp hm with rfl | hm
      · have hid : i.id = w.tick := newwindow_id env w nr i hi
        rw [hid]
        exact htick
      · exact hdated win' hm i hi

/-- So they are for all clients. -/
theorem replaceAll {σ : Type} {place : σ → Window → σ × Option Rect} (h : Dated w) (s : σ)
    (cs : List Cid) : Dated (Wm.replaceAll env newr place w s cs).1 := by
  induction cs generalizing w s with
  | nil => exact h
  | cons c cs ih =>
    obtain ⟨htick, hdated⟩ := @replaceWins env c newr σ place w s _ (h c)
    have hsame := (@replaceWins_frame env c σ newr place w s (w.client c).wins).2.2
    exact ih ((h.frame hsame htick).put hdated) _

theorem packWindows (h : Dated w) (newr : Rect) : Dated (w.packWindows env newr) :=
  (h.frame (client_packed w) (tick_packed w).ge).replaceAll _ _

theorem rescreened (h : Dated w) (newr : Rect) : Dated (w.rescreened .rowwm env newr) := by
  rw [Wm.rescreened, reshapeFloating]
  refine Dated.replaceAll ?_ _ _
  exact h.frame rfl le_rfl

/-! ## Reshaping -/

/-- A change of one window in the list. -/
theorem updatewin {tag : String} {f : Window → Window} {wins : List Window} {n : Nat}
    (h : ∀ win ∈ wins, ∀ i ∈ win.img, i.id < n)
    (hf : ∀ win ∈ wins, ∀ i ∈ (f win).img, i.id < n) :
    ∀ win ∈ Client.updatewin tag f wins, ∀ i ∈ win.img, i.id < n := by
  intro win hwin
  rcases Client.mem_updatewin hwin with hm | ⟨win', hm, rfl⟩
  · exact h win hm
  · exact hf win' (List.mem_of_find?_eq_some hm)

/-- A window that is moved keeps its image. -/
theorem setorigin (h : Dated w) (tag : String) (o : Point) :
    Dated (w.setorigin env c tag o).1 := by
  rw [Wm.setorigin]
  split
  · exact h
  · rename_i img _
    have himages : Dated (Wm.images env w c (some o) img).1 := h.frame rfl (Nat.le_succ _)
    split
    · rename_i w₁ heq
      rw [heq] at himages
      dsimp only at himages ⊢
      apply himages.put
      apply updatewin (himages c)
      exact fun win hm => himages c win hm
    · rename_i heq
      rwa [heq] at himages

/-- The image that is recorded was made before. -/
theorem setimage (h : Dated w) (tag : String) {img : Image} (himg : img.id < w.tick) :
    Dated (w.setimage env c tag img).1 := by
  rw [Wm.setimage]
  suffices hput : Dated (w.put c (·.putimage tag img)) from hput.frame rfl (Nat.le_succ _)
  apply h.put
  have hnew : ∀ i ∈ some img, i.id < w.tick := by
    rintro i ⟨⟩
    exact himg
  rw [Client.putimage]
  split
  · intro win hm
    rcases List.mem_cons.mp hm with rfl | hm
    · exact hnew
    · exact h c win hm
  · apply updatewin (h c)
    exact fun _ _ => hnew

/-- The first half of `reshape`, in both of its ways. -/
theorem reshapeImage (h : Dated w) (tag : String) (r : Rect) :
    Dated (w.reshapeImage env c tag r).1 := by
  rw [Wm.reshapeImage]
  split_ifs
  · exact h.setorigin tag r.min
  · have htick : Dated (Wm.newwindow env w r).1 := h.frame rfl (Nat.le_succ _)
    have hid := newwindow_id env w r
    have hsucc : (Wm.newwindow env w r).1.tick = w.tick + 1 := rfl
    split
    · rename_i heq
      rwa [heq] at htick
    · rename_i w₁ img heq
      rw [heq] at htick hid hsucc
      have hset : Dated (w₁.setimage env c tag img).1 := by
        apply htick.setimage tag
        rw [hid img rfl]
        exact hsucc ▸ Nat.lt_succ_self _
      split
      all_goals
        rename_i heq'
        rwa [heq'] at hset

theorem enlist (h : Dated w) (c : Cid) : Dated (w.enlist c) := by
  apply h.frame (enlist_client w c)
  rw [Wm.enlist]
  split_ifs <;> exact le_rfl

theorem dropwin (h : Dated w) (tag : String) : Dated (w.put c (·.dropwin tag)) := by
  apply h.put
  intro win hwin
  exact h c win (Client.mem_dropwin hwin)

end Dated

/-! ## Errors -/

/-- `reshape` reports an error if the window cannot be created, or if its image is recorded and
then not accepted. -/
theorem reshapeImage_error {e : String} (h : w.reshapeImage env c tag r = (w', some e)) :
    (env.newwindow w.tick = false ∧ w' = { w with tick := w.tick + 1 }) ∨
      (env.newwindow w.tick = true ∧
        (w'.client c).wins = ((w.client c).putimage tag ⟨w.tick, r⟩).wins) := by
  rw [Wm.reshapeImage] at h
  split_ifs at h
  · cases h
  · cases hnew : env.newwindow w.tick with
    | false =>
      simp only [newwindow, hnew, Bool.false_eq_true, if_false] at h
      exact Or.inl ⟨rfl, (congrArg Prod.fst h).symm⟩
    | true =>
      simp only [newwindow, hnew, if_true] at h
      split at h
      · rename_i w₁ heq
        obtain rfl := congrArg Prod.fst heq
        obtain rfl := congrArg Prod.fst h
        refine Or.inr ⟨rfl, ?_⟩
        simp only [setimage_client, put_self]
      · cases h

/-- Only the first half of `reshape` can fail. -/
theorem reshape_error {e : String} (h : (reshape .rowwm env w c tag r).2 = some e) :
    w.reshapeImage env c tag r = ((reshape .rowwm env w c tag r).1, some e) := by
  rw [reshape] at h ⊢
  split at h
  · rename_i heq
    simp only [heq] at h ⊢
    rw [h]
  · rename_i heq
    simp only at h
    split_ifs at h

/-- The window lists of all clients, with rectangles and images, and the z-order are the same. -/
structure Unchanged (w w' : Wm) : Prop where
  wins : ∀ a, (w'.client a).wins = (w.client a).wins
  order : w'.order = w.order

/-- A failed reshape changes nothing just if the window could not be created. -/
theorem reshape_unchanged_iff {e : String} (h : Dated w)
    (herr : (reshape .rowwm env w c tag r).2 = some e) :
    Unchanged w (reshape .rowwm env w c tag r).1 ↔ env.newwindow w.tick = false := by
  rcases reshapeImage_error (reshape_error herr) with ⟨hnew, heq⟩ | ⟨hnew, hput⟩
  · rw [hnew, heq]
    exact iff_of_true ⟨fun _ => rfl, rfl⟩ rfl
  · rw [hnew]
    refine iff_of_false ?_ (by decide)
    intro hsame
    -- the image that was refused is recorded, and no image was that new before
    have hwins := hput.symm.trans (hsame.wins c)
    obtain ⟨win, hwin, himg⟩ := (w.client c).mem_putimage tag ⟨w.tick, r⟩
    rw [hwins] at hwin
    exact absurd (h c win hwin _ himg) (Nat.lt_irrefl _)

end Wm

namespace Session

open Wm

variable {env : Env} {s s' : Session} {e : Event} {es : List Event} {screen : Rect} {w : Wm}
  {c : Cid} {tag : String} {r : Rect}

theorem packing_dated (h : Dated s.wm) (hp : s.packing env e = some w) : Dated w := by
  cases e with
  | leave c =>
    obtain rfl := Option.some.inj hp
    have hforget : Dated (s.wm.forgetting .rowwm c) := h.frame rfl le_rfl
    exact hforget.still (Still.controlevent _)
  | request c data ptr =>
    obtain ⟨⟨w₁, tag, r⟩, hcall, hpack⟩ := Option.bind_eq_some_iff.mp hp
    obtain ⟨-, -, -, rfl⟩ := reshapePacking_cases hpack
    exact ((h.still (Still.reshapeCall hcall)).reshapeImage tag r).enlist c
  | winctl txt img =>
    cases img with
    | none => cases hp
    | some newr =>
      obtain rfl := Option.some.inj hp
      exact (h.still (still_told _ _)).rescreened newr
  | opened | join | key | pointer => cases hp

theorem unpacked_dated (h : Dated s.wm) (hw : Unpacked env s e w) : Dated w := by
  cases hw with
  | still hstill => exact h.still hstill
  | opened => exact h.opened _
  | @reshape c data ptr w₁ tag r hc hcall hpack =>
    have himage : Dated (w₁.reshapeImage env c tag r).1 :=
      (h.still (Still.reshapeCall hcall)).reshapeImage tag r
    rcases reshape_unpacked hpack with ⟨err, herr⟩ | ⟨-, -, heq⟩
    · rwa [herr] at himage
    · rw [heq]
      exact himage.enlist c
  | delete _ hstill => exact (h.dropwin _).still hstill

/-- No step records an image from the future. -/
theorem step_dated (h : Dated s.wm) (hstep : s.step .rowwm env e = some s') : Dated s'.wm := by
  cases hp : s.packing env e with
  | none => exact unpacked_dated h (step_unpacked hstep hp)
  | some w => exact ((packing_dated h hp).packWindows w.screen).still (step_packed hstep hp)

/-- Nor does a run. -/
theorem run_dated (h : Run (StepOf (step .rowwm env)) (start screen) es s) : Dated s.wm := by
  apply h.invariant (I := fun s => Dated s.wm)
  · exact fun _ _ hwin => absurd hwin List.not_mem_nil
  · exact fun _ _ _ hs hstep => step_dated hs hstep

/-- In every reachable state, and also in the middle of a turn before `reshape` is called
(`Still s.wm w`), for every client, tag and rectangle: a reshape that reports an error leaves
all windows and the z-order as they were just if the window could not be created. -/
theorem failed_reshape_unchanged_iff {e : String}
    (hrun : Run (StepOf (step .rowwm env)) (start screen) es s) (hstill : Still s.wm w)
    (herr : (reshape .rowwm env w c tag r).2 = some e) :
    Unchanged w (reshape .rowwm env w c tag r).1 ↔ env.newwindow w.tick = false :=
  reshape_unchanged_iff ((run_dated hrun).still hstill) herr

/-- The client's `childminder` does not accept its second image. -/
def refusing : Env := { (default : Env) with accepts := fun n => n ≠ 4 }

/-- A client asks for another size while its image is still being delivered: it is told that it
can't do two at once, and the new size is recorded. -/
theorem refused_size_recorded :
    ∃ s, Run (StepOf (step .rowwm refusing)) (start ⟨⟨0, 0⟩, ⟨196, 400⟩⟩) (showRow 0) s ∧
      (reshape .rowwm refusing s.wm 0 "." ⟨⟨0, 0⟩, ⟨196, 50⟩⟩).2 = some "can't do two at once" ∧
      (s.wm.client 0).wins = [⟨".", ⟨⟨0, 0⟩, ⟨196, 20⟩⟩, some ⟨2, ⟨⟨0, 0⟩, ⟨196, 20⟩⟩⟩⟩] ∧
      ((reshape .rowwm refusing s.wm 0 "." ⟨⟨0, 0⟩, ⟨196, 50⟩⟩).1.client 0).wins =
        [⟨".", ⟨⟨0, 0⟩, ⟨196, 50⟩⟩, some ⟨3, ⟨⟨0, 0⟩, ⟨196, 50⟩⟩⟩⟩] :=
  Run.exists_of_exec (by decide +kernel)

/-- No window can be created but the first two. -/
def exhausted : Env := { (default : Env) with newwindow := fun n => n < 3 }

/-- A larger window cannot be created. -/
theorem failed_reshape_unchanged_one :
    ∃ s, Run (StepOf (step .rowwm exhausted)) (start ⟨⟨0, 0⟩, ⟨196, 400⟩⟩) (showRow 0) s ∧
      Unchanged s.wm (reshape .rowwm exhausted s.wm 0 "." ⟨⟨0, 0⟩, ⟨196, 50⟩⟩).1 := by
  obtain ⟨s, hrun, htick, herr⟩ :
      ∃ s, Run (StepOf (step .rowwm exhausted)) (start ⟨⟨0, 0⟩, ⟨196, 400⟩⟩) (showRow 0) s ∧
        s.wm.tick = 3 ∧
        (reshape .rowwm exhausted s.wm 0 "." ⟨⟨0, 0⟩, ⟨196, 50⟩⟩).2 =
          some "window creation failed: " :=
    Run.exists_of_exec (by decide +kernel)
  refine ⟨s, hrun, (failed_reshape_unchanged_iff hrun Still.rfl' herr).mpr ?_⟩
  rw [htick]
  rfl

end Session

end Aimsgui
