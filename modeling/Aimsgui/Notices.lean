import Aimsgui.Placing

/-!
# What a change of the focus sends

`setfocus` changes nothing but `kbdfocus` and the log. `logged` appends to the log, and
`setfocus_logged` gives the whole list of messages: those about the cursor, one to the client
that loses the keyboard, and two to the client that gets it, with an event for the
controller of `tabswin` between them.
-/

namespace Aimsgui

namespace Wm

variable {m : Manager} {w : Wm} {new : Option Cid} {c : Cid} {l l' : List Send}

/-- The manager after it has sent `l`. -/
def logged (w : Wm) (l : List Send) : Wm := { w with out := w.out ++ l }

theorem logged_nil (w : Wm) : w.logged [] = w := by rw [logged, List.append_nil]

/-- What is sent first stands first in the log. -/
theorem logged_append (w : Wm) (l l' : List Send) : (w.logged l).logged l' = w.logged (l ++ l') := by
  simp only [logged, List.append_assoc]

theorem ctl_eq_logged (w : Wm) (c : Cid) (e : String) : w.ctl c e = w.logged [.ctl c e] := rfl

/-- An event for the controller, if it has started control. -/
def event (w : Wm) (e : String) : List Send :=
  match w.controller with
  | some ctlr => if (w.client ctlr).controlstarted then [.ctl ctlr e] else []
  | none => []

/-- `controlevent` appends its event, or nothing. -/
theorem controlevent_logged (w : Wm) (e : String) : w.controlevent e = w.logged (w.event e) := by
  cases hctlr : w.controller with
  | some ctlr =>
    simp only [controlevent, event, hctlr]
    split_ifs
    · rfl
    · rw [logged_nil]
  | none =>
    simp only [controlevent, event, hctlr]
    rw [logged_nil]

/-- Messages about the manager's own window. -/
def Own (l : List Send) : Prop := ∀ x ∈ l, ∃ s, x = .wmctl s

theorem own_nil : Own [] := fun _ hx => absurd hx List.not_mem_nil

/-- What goes to the window system outside is nobody's message. -/
theorem own_wmctl (s : String) : Own [.wmctl s] := fun _ hx => ⟨s, List.mem_singleton.mp hx⟩

/-- The cursor is set by messages to the window system outside. -/
theorem setcursor_logged (w : Wm) (new : Option Cid) : ∃ l, Own l ∧ w.setcursor new = w.logged l := by
  rw [setcursor.eq_def]
  split
  · exact ⟨_, own_wmctl _, rfl⟩
  · exact ⟨_, own_wmctl _, rfl⟩
  · split_ifs
    · exact ⟨_, own_wmctl _, rfl⟩
    · exact ⟨[], own_nil, (logged_nil w).symm⟩

/-- The event about the focus, of `tabswin` only. -/
def focusnews (m : Manager) (w : Wm) (e : String) : List Send :=
  match m with
  | .tabswin => w.event ("kbdfocuschange " ++ e)
  | _ => []

/-- To the client that loses the keyboard. -/
def farewell (w : Wm) : List Send :=
  match w.kbdfocus with
  | some old => [.ctl old "haskbdfocus 0"]
  | none => []

/-- To the client that gets the keyboard, after the event for the controller. -/
def welcome (m : Manager) (w : Wm) (new : Option Cid) : List Send :=
  match new with
  | some c => w.focusnews m (toString (w.client c).id) ++ [.ctl c "raise", .ctl c "haskbdfocus 1"]
  | none => w.focusnews m "none"

/-- What is sent when the focus goes from `kbdfocus` to `new`. -/
def notices (m : Manager) (w : Wm) (new : Option Cid) : List Send := w.farewell ++ w.welcome m new

/-- The event about the focus goes where the manager sends it. -/
theorem focusevent_logged (w : Wm) (e : String) : w.focusevent m e = w.logged (w.focusnews m e) := by
  cases m with
  | rowwm | topwin => exact (logged_nil w).symm
  | tabswin => exact controlevent_logged w _

/-- The events for the controller do not depend on the log and on the focus. -/
theorem event_congr {w' : Wm} (hclient : w'.client = w.client) (hctlr : w'.controller = w.controller)
    (e : String) : w'.event e = w.event e := by rw [event, hclient, hctlr, event]

/-- The event depends on the clients and on who is in control. -/
theorem focusnews_congr {w' : Wm} (hclient : w'.client = w.client)
    (hctlr : w'.controller = w.controller) (e : String) :
    w'.focusnews m e = w.focusnews m e := by
  cases m with
  | rowwm | topwin => rfl
  | tabswin => exact event_congr hclient hctlr _

/-- The client `new` may have the focus: it has started the keyboard. -/
def Focusable (w : Wm) (new : Option Cid) : Prop := ∀ c ∈ new, (w.client c).kbdstarted = true

/-- The focus changes hands, and everybody concerned is told. -/
theorem losefocus_givefocus (w : Wm) (new : Option Cid) :
    w.losefocus.givefocus m new = { w.logged (w.notices m new) with kbdfocus := new } := by
  have hlose : w.losefocus = w.logged w.farewell := by
    cases hkbd : w.kbdfocus with
    | some old =>
      simp only [losefocus, farewell, hkbd]
      rfl
    | none => simp only [losefocus, farewell, hkbd, logged_nil]
  have hnews : ∀ e, (w.logged w.farewell).focusnews m e = w.focusnews m e :=
    fun e => focusnews_congr rfl rfl e
  rw [hlose, notices]
  cases new with
  | some c =>
    simp only [givefocus, focusevent_logged, hnews, ctl_eq_logged, logged_append, List.append_assoc,
      List.cons_append, List.nil_append]
    rfl
  | none =>
    simp only [givefocus, focusevent_logged, hnews, logged_append]
    rfl

/-- `setfocus` either sends something about the cursor at most, or gives the focus to `new`. -/
theorem setfocus_logged (m : Manager) (w : Wm) (new : Option Cid) :
    ∃ l, Own l ∧ (w.setfocus m new = w.logged l ∧ (w.kbdfocus = new ∨ ¬ w.Focusable new) ∨
      w.kbdfocus ≠ new ∧ w.Focusable new ∧
        w.setfocus m new = { w.logged (l ++ w.notices m new) with kbdfocus := new }) := by
  obtain ⟨l, hl, hcursor⟩ := setcursor_logged w new
  simp only [setfocus, hcursor]
  split_ifs with hsame hstarted
  · exact ⟨[], own_nil, Or.inl ⟨(logged_nil w).symm, Or.inl hsame⟩⟩
  · refine ⟨l, hl, Or.inl ⟨rfl, Or.inr ?_⟩⟩
    intro hnew
    obtain ⟨c, hc, hkbd⟩ := (Option.any_eq_true _ _).mp hstarted
    rw [logged, hnew c hc] at hkbd
    cases hkbd
  · refine ⟨l, hl, Or.inr ⟨hsame, ?_, ?_⟩⟩
    · intro c hc
      have hkbd : ¬ (!(w.client c).kbdstarted) = true := fun h =>
        hstarted ((Option.any_eq_true _ _).mpr ⟨c, hc, h⟩)
      simpa using hkbd
    · rw [losefocus_givefocus, logged_append]
      rfl

/-- What `setfocus` leaves alone. -/
theorem setfocus_frame (m : Manager) (w : Wm) (new : Option Cid) :
    (w.setfocus m new).client = w.client ∧ (w.setfocus m new).z = w.z ∧
      (w.setfocus m new).ptrfocus = w.ptrfocus ∧ (w.setfocus m new).controller = w.controller ∧
      (w.setfocus m new).allowcontrol = w.allowcontrol := by
  obtain ⟨l, -, ⟨heq, -⟩ | ⟨-, -, heq⟩⟩ := setfocus_logged m w new
  · rw [heq]
    exact ⟨rfl, rfl, rfl, rfl, rfl⟩
  · rw [heq]
    exact ⟨rfl, rfl, rfl, rfl, rfl⟩

end Wm

end Aimsgui
