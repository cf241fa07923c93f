import Aimsgui.Requests

/-!
# What a request can do

`Handled` lists, once for all, what becomes of a window manager that handles a request:
one constructor for each kind of effect, with what the source has checked before.
`handled` says that the list is complete. The modules about the rows, the z-order, the
joining of clients and the tab bar argue over its cases.
-/

namespace Aimsgui

/-- A change of a client's record that no window and no focus depends on. -/
structure Marks (f : Client → Client) : Prop where
  wins : ∀ cl, (f cl).wins = cl.wins
  id : ∀ cl, (f cl).id = cl.id
  kbdstarted : ∀ cl, (f cl).kbdstarted = cl.kbdstarted
  controlstarted : ∀ cl, (f cl).controlstarted = cl.controlstarted
  controller : ∀ cl, (f cl).controller = cl.controller

namespace Wm

/-- `Handled m env w c req ptr w'`: the manager `w` has handled the request `req` of the
client `c` and is `w'` now. -/
inductive Handled (m : Manager) (env : Env) (w : Wm) (c : Cid) (req : String)
    (ptr : List Pointer) : Wm → Prop where
  /-- nothing but an answer -/
  | answered : Handled m env w c req ptr w
  | key (s) : Handled m env w c req ptr (w.send (.fakekbd s))
  /-- the request is passed on to the manager's own window -/
  | wmctl : Handled m env w c req ptr (w.wmctl' env req).1
  | cursor (f) : Marks f → Handled m env w c req ptr ((w.put c f).wmctl' env req).1
  | pointer (p) : w.ptrfocus = some c →
      Handled m env w c req ptr
        (((w.wmctl' env req).1.send (.ptr c none)).send (.ptr c (some p)))
  | marked (f) : Marks f → Handled m env w c req ptr (w.put c f)
  | kbd : unquoted req = ["start", "kbd"] → Handled m env w c req ptr
      ((w.put c fun cl => { cl with kbdstarted := true }).setfocus m (some c))
  | control : (w.client c).controller = true → unquoted req = ["start", "control"] →
      Handled m env w c req ptr (w.put c fun cl => { cl with controlstarted := true })
  | reshape (w₁) (tag) (r) : w.reshapeCall m env c req ptr = some (w₁, tag, r) →
      Handled m env w c req ptr (Wm.reshape m env w₁ c tag r).1
  /-- a window that was dragged, and not moved -/
  | dragged (win) (off) (w₁) (e) : w.drag c win off ptr = some (w₁, .error e) →
      Handled m env w c req ptr w₁
  | delete (tag) (args) : unquoted req = "delete" :: tag :: args →
      Handled m env w c req ptr (w.deleteRequest m c (tag :: args)).1
  | top : m ≠ .rowwm → (unquoted req).head? = some "raise" →
      Handled m env w c req ptr (w.top m c)
  | bottom : m ≠ .rowwm → (unquoted req).head? = some "lower" →
      Handled m env w c req ptr (w.bottom m c)
  | focus : Handled m env w c req ptr (w.setfocus m (some c))
  | unfocus : w.kbdfocus = some c → Handled m env w c req ptr (w.setfocus m none)
  | message (id) (msg) (msgs) (z) : unquoted req = "ctl" :: id :: msg :: msgs →
      (w.client c).controlstarted = true →
      w.order.find? (fun z => ((w.client z).id : Int) = int id) = some z →
      Handled m env w c req ptr (w.ctl z (quoted (msg :: msgs)))
  | endcontrol (args) : unquoted req = "endcontrol" :: args →
      Handled m env w c req ptr (w.endcontrolRequest c).1
  | forward (ctlr) : w.controller = some ctlr → ctlr ≠ c →
      (w.client ctlr).controlstarted = true →
      Handled m env w c req ptr
        (w.ctl ctlr ("request " ++ toString (w.client c).id ++ " " ++ req))

variable {m : Manager} {env : Env} {w w' : Wm} {c : Cid} {req cmd : String}
  {ptr : List Pointer} {args : List String} {e : Answer}

namespace Handled

theorem keyRequest : Handled m env w c req ptr (w.keyRequest args).1 := by
  rw [Wm.keyRequest.eq_def]
  split
  · exact key _
  · exact answered

theorem ptrRequest : Handled m env w c req ptr (w.ptrRequest env c req args).1 := by
  rw [Wm.ptrRequest.eq_def]
  split
  · rename_i x y
    split_ifs with hfocus
    · exact answered
    · split
      · rename_i heq
        have h : Handled m env w c req ptr (w.wmctl' env req).1 := wmctl
        rwa [heq] at h
      · rename_i w₁ heq
        have h := @pointer m env w c req ptr
          ⟨w₁.buttons, ⟨int x, int y⟩, env.millisec w₁.tick⟩ (not_not.mp hfocus)
        rwa [heq] at h
  · exact answered

theorem cursorRequest : Handled m env w c req ptr (w.cursorRequest env c req args).1 := by
  have hmarks : Marks fun cl => { cl with cursor := req } :=
    ⟨fun _ => rfl, fun _ => rfl, fun _ => rfl, fun _ => rfl, fun _ => rfl⟩
  simp only [Wm.cursorRequest]
  split_ifs
  · exact answered
  · exact cursor _ hmarks
  · exact marked _ hmarks

theorem startRequest (h : unquoted req = "start" :: args) :
    Handled m env w c req ptr (w.startRequest m c args).1 := by
  rw [Wm.startRequest.eq_def]
  split
  · split_ifs with hptr hkbd hcontrol hcontroller
    · exact marked (fun cl => { cl with ptrstarted := true })
        ⟨fun _ => rfl, fun _ => rfl, fun _ => rfl, fun _ => rfl, fun _ => rfl⟩
    · exact kbd (hkbd ▸ h)
    · exact control hcontroller (hcontrol ▸ h)
    · exact answered
    · exact answered
  · exact answered

theorem reshapeRequest (h : unquoted req = "!reshape" :: args) :
    Handled m env w c req ptr (w.reshapeRequest m env c args).1 := by
  rw [Wm.reshapeRequest.eq_def]
  split
  · split
    · rename_i w₁ r heq
      refine reshape w₁ _ r ?_
      rw [reshapeCall, h]
      simp [reshapeArgs, heq]
    · exact answered
  · exact answered

theorem deleteRequest (h : unquoted req = "delete" :: args) :
    Handled m env w c req ptr (w.deleteRequest m c args).1 := by
  cases args with
  | nil => exact answered
  | cons tag args => exact delete tag args h

theorem kbdfocusRequest : Handled m env w c req ptr (w.kbdfocusRequest m c args).1 := by
  rw [Wm.kbdfocusRequest.eq_def]
  split
  · split_ifs with hon hfocus
    · exact focus
    · exact unfocus hfocus
    · exact answered
  · exact answered

theorem ctlRequest (h : unquoted req = "ctl" :: args) :
    Handled m env w c req ptr (w.ctlRequest c args).1 := by
  rw [Wm.ctlRequest.eq_def]
  split_ifs with hstarted
  · exact answered
  · split
    · split
      · rename_i z hz
        exact message _ _ _ z h (by simpa using hstarted) hz
      · exact answered
    · exact answered

theorem wintypeRequest : Handled m env w c req ptr (w.wintypeRequest c args).1 := by
  rw [Wm.wintypeRequest.eq_def]
  split
  · rename_i wtype
    exact marked (fun cl => { cl with attrs := some wtype })
      ⟨fun _ => rfl, fun _ => rfl, fun _ => rfl, fun _ => rfl, fun _ => rfl⟩
  · exact answered

theorem otherRequest : Handled m env w c req ptr (w.otherRequest c req).1 := by
  rw [Wm.otherRequest.eq_def]
  split
  · exact answered
  · rename_i ctlr hctlr
    split_ifs with hc
    · exact answered
    · obtain ⟨hne, hstarted⟩ := not_or.mp hc
      exact forward ctlr hctlr hne (by simpa using hstarted)

theorem plainRequest (h : unquoted req = cmd :: args) :
    Handled m env w c req ptr (w.plainRequest m env c req cmd args).1 := by
  rw [Wm.plainRequest.eq_def]
  split
  · exact keyRequest
  · exact ptrRequest
  · exact cursorRequest
  · exact startRequest h
  · exact reshapeRequest h
  · exact deleteRequest h
  · split
    · exact answered
    · exact top ‹_› (congrArg List.head? h)
  · split
    · exact answered
    · exact bottom ‹_› (congrArg List.head? h)
  · exact marked (fun cl => { cl with fixedorigin := true })
      ⟨fun _ => rfl, fun _ => rfl, fun _ => rfl, fun _ => rfl, fun _ => rfl⟩
  · exact answered
  · exact kbdfocusRequest
  · exact answered
  · exact ctlRequest h
  · exact endcontrol args h
  · split
    · exact wintypeRequest
    · exact otherRequest
  · exact otherRequest

/-- `dragwin` either finds nothing to do or makes its call of `reshape`. -/
theorem dragwin {win : Window} {off : Point} (h : w.dragwin m env c win off ptr = some (w', e))
    (hcall : ∀ w₁ r, w.drag c win off ptr = some (w₁, .ok r) →
      w.reshapeCall m env c req ptr = some (w₁, win.tag, r)) :
    Handled m env w c req ptr w' := by
  rw [Wm.dragwin] at h
  split at h
  · cases h
  · rename_i w₁ e₁ hdrag
    obtain ⟨rfl, rfl⟩ := h
    exact dragged win off _ e₁ hdrag
  · rename_i w₁ r hdrag
    have hreshape := reshape _ _ r (hcall w₁ r hdrag)
    rwa [congrArg Prod.fst (Option.some.inj h)] at hreshape

theorem moveRequest {ismove : Bool}
    (h : w.moveRequest m env c ismove ptr args = some (w', e))
    (hcall : w.reshapeCall m env c req ptr = w.moveArgs c ismove ptr args) :
    Handled m env w c req ptr w' := by
  rw [Wm.moveRequest.eq_def] at h
  split at h
  · split at h
    · obtain ⟨rfl, rfl⟩ := h
      exact answered
    · rename_i win hwin
      split at h
      · simp only [moveArgs, hwin] at hcall
        split_ifs at h hcall with hmove
        · refine dragwin h ?_
          intro w₁ r hdrag
          rw [hcall, hdrag]
        · obtain ⟨⟨w₁, e₁⟩, hsize, heq⟩ := Option.map_eq_some_iff.mp h
          obtain ⟨r, hr, hw₁⟩ := Option.map_eq_some_iff.mp hsize
          obtain rfl : w₁ = w' := congrArg Prod.fst heq
          rw [hr] at hcall
          have hreshape := reshape w _ r hcall
          rwa [hw₁] at hreshape
      · obtain ⟨rfl, rfl⟩ := h
        exact answered
  · obtain ⟨rfl, rfl⟩ := h
    exact answered

end Handled

/-- A request with at least one word. -/
theorem handlerequest_cons {cmd : String} {args : List String} (hreq : unquoted req = cmd :: args)
    (ptr : List Pointer) : w.handlerequest m env c req ptr =
      if req.toList.head? = some '!' ∧ args.length < 2 then some (w, some "bad arg count")
      else if cmd = "!move" ∨ cmd = "!size" then w.moveRequest m env c (cmd = "!move") ptr args
      else some (w.plainRequest m env c req cmd args) := by
  rw [handlerequest, hreq]

/-- Every request that is handled has one of the effects listed. -/
theorem handled (h : w.handlerequest m env c req ptr = some (w', e)) :
    Handled m env w c req ptr w' := by
  rw [handlerequest] at h
  split at h
  · obtain ⟨rfl, rfl⟩ := h
    exact .answered
  · rename_i cmd args hreq
    split_ifs at h with hshort hmove
    · obtain ⟨rfl, rfl⟩ := h
      exact .answered
    · refine Handled.moveRequest h ?_
      rw [reshapeCall, hreq]
      exact if_pos hmove
    · have hplain : Handled m env w c req ptr (w.plainRequest m env c req cmd args).1 :=
        Handled.plainRequest hreq
      rwa [Option.some.inj h] at hplain

/-- A `"!move"` or `"!size"` that gets as far as `reshape` calls it and answers nil. -/
theorem moveRequest_of_moveArgs {ismove : Bool} {w₁ : Wm} {tag : String} {r : Rect}
    (h : w.moveArgs c ismove ptr args = some (w₁, tag, r)) :
    w.moveRequest m env c ismove ptr args = some ((reshape m env w₁ c tag r).1, none) := by
  rw [moveArgs.eq_def] at h
  split at h
  · rw [moveRequest]
    split at h
    · cases h
    · rename_i win hwin
      simp only
      split_ifs at h ⊢ with hmove
      · split at h
        · rename_i hdrag
          obtain ⟨rfl, rfl, rfl⟩ := h
          rw [dragwin, hdrag]
        · cases h
      · obtain ⟨r₁, hr, heq⟩ := Option.map_eq_some_iff.mp h
        obtain ⟨rfl, rfl, rfl⟩ := heq
        rw [sizewin, hr]
        rfl
  · cases h

/-- A `"!reshape"` that gets as far as `reshape` answers what `reshape` answers. -/
theorem reshapeRequest_of_reshapeArgs {w₁ : Wm} {tag : String} {r : Rect}
    (h : w.reshapeArgs m env args = some (w₁, tag, r)) :
    w.reshapeRequest m env c args = reshape m env w₁ c tag r := by
  rw [reshapeArgs.eq_def] at h
  split at h
  · obtain ⟨⟨w₂, r₂⟩, hplace, heq⟩ := Option.map_eq_some_iff.mp h
    obtain ⟨rfl, rfl, rfl⟩ := heq
    rw [reshapeRequest, hplace]
  · cases h

/-- A request that calls `reshape` does nothing else to the manager after that. -/
theorem handlerequest_reshape {w₁ : Wm} {tag : String} {r : Rect}
    (hcall : w.reshapeCall m env c req ptr = some (w₁, tag, r))
    (h : w.handlerequest m env c req ptr = some (w', e)) : w' = (reshape m env w₁ c tag r).1 := by
  rw [reshapeCall.eq_def] at hcall
  rw [handlerequest] at h
  split at hcall
  · cases hcall
  · rename_i cmd args hreq
    simp only [hreq] at h
    have hlen : ¬ args.length < 2 := by
      intro hlen
      rcases args with _ | ⟨_, _ | ⟨_, args⟩⟩
      · simp [moveArgs, reshapeArgs] at hcall
      · simp [moveArgs, reshapeArgs] at hcall
      · simp only [List.length_cons] at hlen
        omega
    rw [if_neg fun hshort => hlen hshort.2] at h
    split_ifs at hcall h with hmove hreshape
    · rw [moveRequest_of_moveArgs hcall] at h
      exact (congrArg Prod.fst (Option.some.inj h)).symm
    · subst hreshape
      have hplain := congrArg Prod.fst (Option.some.inj h)
      exact hplain.symm.trans (congrArg Prod.fst (reshapeRequest_of_reshapeArgs hcall))

end Wm

end Aimsgui
