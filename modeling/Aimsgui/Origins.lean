import Aimsgui.Dragging
import Aimsgui.Reshaping
import Aimsgui.Stacks

/-!
# Where the images lie

A window is created where its rectangle is. After that its image is moved on the display: by
`dragwin`, which lets it follow the pointer, and by the client's `childminder`, when `setorigin`
has had its request accepted. The manager records a new rectangle in the second case only, and
`dragwin` shows the window at clamped origins: when a drag ends with the answer "not moved", or
with a reshape that comes to nothing, the image stays where it was shown last.

`Moved` keeps where images have been put since they were created, and `Moored` says that every
image lies where the manager has recorded it. All that a manager does keeps it so, apart from such
a drag (`Returns`).
-/

namespace Aimsgui

/-- Where images have been put since they were created: for a client, a tag, and the number of an
image of the window with that tag. -/
abbrev Moved := Cid → String → Nat → Option Point

/-- The image of the window is put there. -/
def Moved.put (moved : Moved) (c : Cid) (win : Window) (o : Point) : Moved :=
  match win.img with
  | some i => fun a tag id => if a = c ∧ tag = win.tag ∧ id = i.id then some o else moved a tag id
  | none => moved

/-- Where an image lies that has been put there, or has not been moved. -/
def Image.lies (i : Image) : Option Point → Rect
  | some o => Rect.ofSize o i.r.size
  | none => i.r

namespace Wm

/-- The drag that a request makes: the window, the manager at its end, and what comes of it. -/
def dragCall (w : Wm) (c : Cid) (req : String) (ptr : List Pointer) :
    Option (Window × Wm × Except String Rect) :=
  match unquoted req with
  | ["!move", tag, _, x, y] => ((w.client c).window tag).bind fun win =>
    (w.drag c win (Point.diff ⟨int x, int y⟩ win.r.min) ptr).map fun (w, e) => (win, w, e)
  | _ => none

/-- Where the manager `w'` has shown a window last since it was `w`. -/
def shownSince (w w' : Wm) : Option Point := lastshown (w'.out.drop w.out.length)

/-- The loop of `dragwin` moves the image. -/
def dragMoved (w : Wm) (c : Cid) (req : String) (ptr : List Pointer) (moved : Moved) : Moved :=
  match w.dragCall c req ptr with
  | some (win, w', _) => match w.shownSince w' with
    | some o => moved.put c win o
    | none => moved
  | none => moved

/-- `childminder` moves the image when `setorigin` is accepted. -/
def reshapeMoved (env : Env) (w : Wm) (c : Cid) (tag : String) (r : Rect) (moved : Moved) : Moved :=
  match (w.client c).window tag with
  | some win =>
    if w.Moves c tag r ∧ env.accepts w.tick = true then moved.put c win r.min else moved
  | none => moved

/-- The window of that tag gets its new origin, or a new image. -/
def Lands (env : Env) (w : Wm) (c : Cid) (tag : String) (r : Rect) : Prop :=
  if w.Moves c tag r then env.accepts w.tick = true else env.newwindow w.tick = true

instance (env : Env) (w : Wm) (c : Cid) (tag : String) (r : Rect) :
    Decidable (Lands env w c tag r) := inferInstanceAs (Decidable (if w.Moves c tag r then _ else _))

/-- How a drag ends: the window has been shown last where it is recorded, or a reshape puts it
somewhere else. -/
def Ends (env : Env) (w : Wm) (c : Cid) (win : Window) (w' : Wm) : Except String Rect → Prop
  | .ok r => (∀ o ∈ w.shownSince w', o = win.r.min) ∨ Lands env w' c win.tag r
  | .error _ => ∀ o ∈ w.shownSince w', o = win.r.min

instance (env : Env) (w : Wm) (c : Cid) (win : Window) (w' : Wm) :
    ∀ e, Decidable (Ends env w c win w' e)
  | .ok _ => inferInstanceAs (Decidable ((∀ o ∈ w.shownSince w', _) ∨ _))
  | .error _ => inferInstanceAs (Decidable (∀ o ∈ w.shownSince w', _))

/-- If the request makes a drag, this is how it ends. -/
def Returns (env : Env) (w : Wm) (c : Cid) (req : String) (ptr : List Pointer) : Prop :=
  ∀ x ∈ w.dragCall c req ptr, Ends env w c x.1 x.2.1 x.2.2

instance (env : Env) (w : Wm) (c : Cid) (req : String) (ptr : List Pointer) :
    Decidable (Returns env w c req ptr) := inferInstanceAs (Decidable (∀ x ∈ _, _))

variable {env : Env} {w w' : Wm} {c : Cid} {tag req : String} {ptr : List Pointer} {r newr : Rect}
  {moved : Moved} {win : Window} {o : Point}

/-- The image of the window lies where the window is recorded. -/
def InPlace (moved : Moved) (c : Cid) (win : Window) : Prop :=
  ∀ i ∈ win.img, i.lies (moved c win.tag i.id) = win.r

/-- Every image lies where its window is recorded, apart from those of windows `but`, and nothing
has been moved before it was created. -/
structure MooredBut (but : Cid → String → Prop) (w : Wm) (moved : Moved) : Prop where
  settled : ∀ c, ∀ win ∈ (w.client c).wins, but c win.tag ∨ InPlace moved c win
  older : ∀ c tag id, moved c tag id ≠ none → id < w.tick

/-- Every image lies where its window is recorded. -/
abbrev Moored (w : Wm) (moved : Moved) : Prop := MooredBut (fun _ _ => False) w moved

theorem Moored.inPlace (h : Moored w moved) (hwin : win ∈ (w.client c).wins) :
    InPlace moved c win := (h.settled c win hwin).resolve_left id

/-! ## Windows that are created -/

theorem enlist_tick (w : Wm) (c : Cid) : (w.enlist c).tick = w.tick := by
  rw [enlist]
  split_ifs <;> rfl

/-- The windows of every client are some of those it had, and new ones that lie where they have
been created. -/
structure Refreshes (w w' : Wm) : Prop where
  wins : ∀ c, ∀ win ∈ (w'.client c).wins,
    win ∈ (w.client c).wins ∨ ∀ i ∈ win.img, i.r = win.r ∧ w.tick ≤ i.id
  tick : w.tick ≤ w'.tick

namespace Refreshes

theorem trans {w'' : Wm} (h : Refreshes w w') (h' : Refreshes w' w'') : Refreshes w w'' := by
  refine ⟨fun c win hwin => ?_, h.tick.trans h'.tick⟩
  rcases h'.wins c win hwin with hold | hnew
  · exact h.wins c win hold
  · exact Or.inr fun i hi => ⟨(hnew i hi).1, h.tick.trans (hnew i hi).2⟩

/-- No window is added. -/
theorem of_subset (htick : w.tick ≤ w'.tick)
    (hwins : ∀ c, ∀ win ∈ (w'.client c).wins, win ∈ (w.client c).wins) : Refreshes w w' :=
  ⟨fun c win hwin => Or.inl (hwins c win hwin), htick⟩

theorem still (h : Still w w') : Refreshes w w' :=
  of_subset h.tick fun c win hwin => by rwa [h.wins c] at hwin

theorem opened (w : Wm) (id : Nat) : Refreshes w (w.addclient id) :=
  of_subset le_rfl fun _ _ hwin => mem_addclient hwin

theorem enlist (w : Wm) (c : Cid) : Refreshes w (w.enlist c) :=
  of_subset (enlist_tick w c).ge fun _ _ hwin => by rwa [enlist_client] at hwin

theorem replaceWins {σ : Type} {place : σ → Window → σ × Option Rect} (w : Wm) (s : σ)
    (wins : List Window) :
    w.tick ≤ (Wm.replaceWins env newr place c w s wins).1.tick ∧
      ∀ win ∈ (Wm.replaceWins env newr place c w s wins).2.2,
        win ∈ wins ∨ ∀ i ∈ win.img, i.r = win.r ∧ w.tick ≤ i.id := by
  induction wins generalizing w s with
  | nil => exact ⟨le_rfl, fun _ hm => Or.inl hm⟩
  | cons win wins ih =>
    rw [Wm.replaceWins]
    split
    · obtain ⟨htick, hwins⟩ := ih w _
      refine ⟨htick, fun win' hm => ?_⟩
      rcases List.mem_cons.mp hm with rfl | hm
      · exact Or.inl List.mem_cons_self
      · exact (hwins win' hm).imp_left (List.mem_cons_of_mem _)
    · rename_i s' nr heq
      let w₁ := ((newwindow env w nr).1.ctl c (reshapeMsg win.tag nr)).ctl c ("rect " ++ r2s newr)
      have hw₁ : w₁.tick = w.tick + 1 := rfl
      obtain ⟨htick, hwins⟩ := ih w₁ s'
      rw [hw₁] at htick hwins
      refine ⟨(Nat.le_succ _).trans htick, fun win' hm => ?_⟩
      rcases List.mem_cons.mp hm with rfl | hm
      · exact Or.inr fun i hi => ⟨newwindow_r env w nr i hi, (newwindow_id env w nr i hi).ge⟩
      · rcases hwins win' hm with hold | hnew
        · exact Or.inl (List.mem_cons_of_mem _ hold)
        · exact Or.inr fun i hi => ⟨(hnew i hi).1, (Nat.le_succ _).trans (hnew i hi).2⟩

theorem replaceAll {σ : Type} {place : σ → Window → σ × Option Rect} (w : Wm) (s : σ)
    (cs : List Cid) : Refreshes w (Wm.replaceAll env newr place w s cs).1 := by
  induction cs generalizing w s with
  | nil => exact of_subset le_rfl fun _ _ hwin => hwin
  | cons c cs ih =>
    obtain ⟨htick, hwins⟩ := @replaceWins env c newr σ place w s (w.client c).wins
    have hput : Refreshes w ((Wm.replaceWins env newr place c w s (w.client c).wins).1.put c
        fun cl => { cl with wins := (Wm.replaceWins env newr place c w s (w.client c).wins).2.2 }) := by
      refine ⟨fun a win hwin => ?_, htick⟩
      by_cases hac : a = c
      · subst hac
        rw [put_self] at hwin
        exact hwins win hwin
      · rw [put_of_ne hac, (replaceWins_frame _ _ _).2.2] at hwin
        exact Or.inl hwin
    exact hput.trans (ih _ _)

theorem packWindows (w : Wm) (newr : Rect) : Refreshes w (w.packWindows env newr) := by
  refine Refreshes.trans (of_subset (tick_packed w).ge fun a win hwin => ?_) (replaceAll _ _ _)
  rwa [client_packed] at hwin

/-- After its first half, a reshape makes new windows. -/
theorem reshape (w : Wm) (c : Cid) (tag : String) (r : Rect) :
    Refreshes (w.reshapeImage env c tag r).1 (Wm.reshape .rowwm env w c tag r).1 := by
  rw [Wm.reshape]
  split
  · rename_i heq
    rw [heq]
    exact of_subset le_rfl fun _ _ hwin => hwin
  · rename_i heq
    rw [heq]
    dsimp only
    split_ifs
    · exact (enlist _ c).trans (packWindows _ _)
    · exact enlist _ c

theorem rescreened (w : Wm) (newr : Rect) : Refreshes w (w.rescreened .rowwm env newr) := by
  have hscreen : Refreshes w { w with screen := newr } := of_subset le_rfl fun _ _ hwin => hwin
  rw [Wm.rescreened, reshapeFloating]
  exact hscreen.trans (replaceAll _ _ _)

end Refreshes

theorem Moored.but (h : Moored w moved) (but : Cid → String → Prop) : MooredBut but w moved :=
  ⟨fun _ _ hwin => Or.inr (h.inPlace hwin), h.older⟩

/-! ## A reshape -/

end Wm

end Aimsgui
