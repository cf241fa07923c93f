import Aimsgui.Departing
import Aimsgui.Dragging

/-!
# Where a press goes

The pointer focus follows the pointer only while no button is down, and the keyboard focus
only when one is: `onPointer` asks `find` for either of them, but never for both at once.
`Watch` runs a manager together with what its pointer events have said: whether a button was
down in the last one, and which client was under the pointer when it last moved without a
button. `ptrfocus_eq_aim` says that the pointer focus is that client and nothing else, so a
press is delivered to the client under it only if the pointer was over that client before
(`press_delivered_iff`). `drag_focus_iff` is about the keyboard: only `topwin` asks whether a
button was down already, so the others move the focus in the middle of a drag.
-/

namespace Aimsgui

open Transition

/-- A pointer event, and the client that gets it. -/
def Send.pointed : Send → Option (Cid × Option Pointer)
  | .ptr c p => some (c, p)
  | _ => none

/-- The client that is raised. -/
def Send.raised : Send → Option Cid
  | .ctl c e => if e = "raise" then some c else none
  | _ => none

namespace Wm

variable {m : Manager} {env : Env} {w w' : Wm} {c a : Cid} {p : Pointer} {taken : Bool}
  {req data : String} {ptr : List Pointer} {l : List Send} {args : List String} {e : Answer}

/-- What has been sent on the way from `w` to `w'`. -/
def since (w w' : Wm) : List Send := w'.out.drop w.out.length

theorem since_eq (h : w'.out = w.out ++ l) : since w w' = l := by
  rw [since, h, List.drop_left]

/-- On the way from `w` to `w'` the keyboard is offered to `c`: the client has it now, or was
told to come forward, and nobody else has got it or was told so. -/
structure Offered (w w' : Wm) (c : Cid) : Prop where
  offered : w'.kbdfocus = some c ∨ c ∈ (since w w').filterMap Send.raised
  only : ∀ a ∈ (since w w').filterMap Send.raised, a = c
  kept : w'.kbdfocus = w.kbdfocus ∨ w'.kbdfocus = some c

/-- The event is delivered to `c` and to nobody else. -/
def Delivered (w w' : Wm) (c : Cid) (p : Pointer) : Prop :=
  (since w w').filterMap Send.pointed = [(c, some p)]

instance : Decidable (Delivered w w' c p) := inferInstanceAs (Decidable (_ = _))

/-- The keyboard focus changes, or a client is raised. -/
def Refocused (w w' : Wm) : Prop :=
  w'.kbdfocus ≠ w.kbdfocus ∨ (since w w').filterMap Send.raised ≠ []

instance : Decidable (Refocused w w') := inferInstanceAs (Decidable (_ ∨ _))

/-- The request reads pointer events: without any it has to wait. -/
def Waits (m : Manager) (env : Env) (w : Wm) (c : Cid) (data : String) : Prop :=
  w.handlerequest m env c data [] = none

instance : Decidable (Waits m env w c data) := inferInstanceAs (Decidable (_ = none))

/-! ## Requests that wait for the pointer -/

theorem drag_nil {win : Window} {off : Point} (h : w.drag c win off [] ≠ none) :
    w.drag c win off ptr = w.drag c win off [] := by
  rw [drag, drag]
  split_ifs with hbuttons himg
  · rfl
  · rfl
  · refine absurd ?_ h
    rw [drag, if_neg hbuttons, if_neg himg]
    rfl

theorem dragwin_nil {win : Window} {off : Point} (h : w.dragwin m env c win off [] ≠ none) :
    w.dragwin m env c win off ptr = w.dragwin m env c win off [] := by
  have hdrag : w.drag c win off [] ≠ none := by
    intro hnone
    rw [dragwin, hnone] at h
    exact h rfl
  rw [dragwin, dragwin, drag_nil hdrag]

theorem moveRequest_nil {ismove : Bool} (h : w.moveRequest m env c ismove [] args ≠ none) :
    w.moveRequest m env c ismove ptr args = w.moveRequest m env c ismove [] args := by
  rw [moveRequest.eq_def] at h ⊢
  rw [moveRequest.eq_def]
  split
  · simp only at h ⊢
    split
    · rfl
    · rename_i hwin
      simp only [hwin] at h
      split
      · simp only at h ⊢
        split_ifs at h ⊢
        · exact dragwin_nil h
        · exact absurd rfl h
      · rfl
  · rfl

/-- A request that does not wait for the pointer leaves the pointer events alone. -/
theorem handlerequest_of_not_waits (h : ¬ Waits m env w c data) (ptr : List Pointer) :
    w.handlerequest m env c data ptr = w.handlerequest m env c data [] := by
  rw [Waits] at h
  rw [handlerequest] at h ⊢
  rw [handlerequest]
  split
  · rfl
  · rename_i hreq
    simp only [hreq] at h
    split_ifs at h ⊢
    · rfl
    · exact moveRequest_nil h
    · rfl

theorem sweepLoop_released {move : Edges} {offset : Point} {r r' : Rect}
    (h : sweepLoop move offset r ptr = some r') : ∃ p ∈ ptr, p.buttons = 0 := by
  induction ptr generalizing r with
  | nil => cases h
  | cons p ptr ih =>
    rw [sweepLoop] at h
    by_cases hp : p.buttons = 0
    · exact ⟨p, List.mem_cons_self, hp⟩
    · rw [if_neg hp] at h
      obtain ⟨q, hq, hbuttons⟩ := ih h
      exact ⟨q, List.mem_cons_of_mem _ hq, hbuttons⟩

theorem sizing_released {win : Window} {minsize : Point} {r : Rect}
    (h : w.sizing win minsize ptr = some r) : ∃ p ∈ ptr, p.buttons = 0 := by
  rw [sizing.eq_def] at h
  split at h
  · cases h
  · rename_i p ps hdrop
    obtain ⟨r', hloop, -⟩ := Option.map_eq_some_iff.mp h
    obtain ⟨q, hq, hbuttons⟩ := sweepLoop_released hloop
    have hsuffix : p :: ps <:+ ptr := hdrop ▸ List.dropWhile_suffix _
    exact ⟨q, hsuffix.subset (List.mem_cons_of_mem _ hq), hbuttons⟩

theorem dragwin_released {win : Window} {off : Point} (hwaits : w.dragwin m env c win off [] = none)
    (h : w.dragwin m env c win off ptr = some (w', e)) : ∃ p ∈ ptr, p.buttons = 0 := by
  rw [dragwin, drag] at h hwaits
  split_ifs at h hwaits
  cases hfollow : follow c win off w ptr with
  | none => simp [hfollow] at h
  | some q =>
    have hfind := (follow_spec hfollow).1
    exact ⟨q.2, List.mem_of_find?_eq_some hfind, by simpa using List.find?_some hfind⟩

theorem moveRequest_released {ismove : Bool}
    (hwaits : w.moveRequest m env c ismove [] args = none)
    (h : w.moveRequest m env c ismove ptr args = some (w', e)) : ∃ p ∈ ptr, p.buttons = 0 := by
  rcases args with _ | ⟨tag, _ | ⟨reqid, args⟩⟩
  · cases hwaits
  · cases hwaits
  · rw [moveRequest] at h hwaits
    cases hwin : (w.client c).window tag with
    | none =>
      rw [hwin] at hwaits
      cases hwaits
    | some win =>
      rw [hwin] at h hwaits
      rcases args with _ | ⟨x, _ | ⟨y, _ | ⟨z, args⟩⟩⟩
      · cases hwaits
      · cases hwaits
      · simp only at h hwaits
        split_ifs at h hwaits
        · exact dragwin_released hwaits h
        · obtain ⟨⟨w₁, e₁⟩, hsize, -⟩ := Option.map_eq_some_iff.mp h
          obtain ⟨r, hr, -⟩ := Option.map_eq_some_iff.mp hsize
          exact sizing_released hr
      · cases hwaits

/-- A request that has waited for the pointer has seen the buttons released. -/
theorem handlerequest_released (hwaits : Waits m env w c data)
    (h : w.handlerequest m env c data ptr = some (w', e)) : ∃ p ∈ ptr, p.buttons = 0 := by
  rw [Waits, handlerequest] at hwaits
  rw [handlerequest] at h
  split at h
  · rename_i hreq
    simp [hreq] at hwaits
  · rename_i hreq
    simp only [hreq] at hwaits
    split_ifs at h hwaits
    exact moveRequest_released hwaits h

/-! ## The two halves of a pointer event -/

/-- The client that gets pointer events. -/
def receiver (w : Wm) : Option Cid := w.ptrfocus.filter fun a => (w.client a).ptrstarted

theorem deliver_spec (w : Wm) (p : Pointer) :
    (w.deliver p).kbdfocus = w.kbdfocus ∧ (w.deliver p).ptrfocus = w.ptrfocus ∧
      (w.deliver p).out = w.out ++ (w.receiver.map fun a => Send.ptr a (some p)).toList := by
  rw [deliver.eq_def]
  split
  · rename_i a hptr
    rw [receiver, hptr, Option.filter_some]
    split_ifs
    · exact ⟨rfl, rfl, rfl⟩
    · exact ⟨rfl, rfl, (List.append_nil _).symm⟩
  · rename_i hptr
    rw [receiver, hptr]
    exact ⟨rfl, rfl, (List.append_nil _).symm⟩

theorem own_quiet (h : Own l) :
    l.filterMap Send.pointed = [] ∧ l.filterMap Send.raised = [] := by
  refine ⟨List.filterMap_eq_nil_iff.mpr ?_, List.filterMap_eq_nil_iff.mpr ?_⟩ <;>
  · intro x hx
    obtain ⟨s, rfl⟩ := h x hx
    rfl

theorem raised_of_head {s : String} (h : s.toList.head? ≠ some 'r') :
    (Send.ctl c s).raised = none := by
  rw [Send.raised]
  split_ifs with hs
  · exact absurd rfl (hs ▸ h)
  · rfl

theorem focusnews_quiet (m : Manager) (w : Wm) (s : String) :
    (w.focusnews m s).filterMap Send.pointed = [] ∧
      (w.focusnews m s).filterMap Send.raised = [] := by
  have hevent : ∀ ctlr, (Send.ctl ctlr ("kbdfocuschange " ++ s)).raised = none := by
    intro ctlr
    apply raised_of_head
    rw [head_append (a := 'k') rfl]
    decide
  cases m with
  | rowwm | topwin => exact ⟨rfl, rfl⟩
  | tabswin =>
    rw [focusnews, event.eq_def]
    split
    · split_ifs
      · exact ⟨rfl, List.filterMap_cons_none (hevent _)⟩
      · exact ⟨rfl, rfl⟩
    · exact ⟨rfl, rfl⟩

/-- Of what is sent when the focus goes to `c`, one message raises a client, and it is `c`. -/
theorem notices_raised (m : Manager) (w : Wm) (c : Cid) :
    (w.notices m (some c)).filterMap Send.pointed = [] ∧
      (w.notices m (some c)).filterMap Send.raised = [c] := by
  have hfarewell : w.farewell.filterMap Send.pointed = [] ∧
      w.farewell.filterMap Send.raised = [] := by
    cases hkbd : w.kbdfocus <;> simp only [farewell, hkbd] <;> exact ⟨rfl, rfl⟩
  obtain ⟨hpointed, hraised⟩ := w.focusnews_quiet m (toString (w.client c).id)
  rw [notices, welcome, List.filterMap_append, List.filterMap_append, List.filterMap_append,
    List.filterMap_append, hfarewell.1, hfarewell.2, hpointed, hraised]
  exact ⟨rfl, rfl⟩

/-- A press does nothing to the focus if the client has the keyboard already, or, in `topwin`,
if a button is down. -/
def Ignored (m : Manager) (w : Wm) (c : Cid) : Prop :=
  w.kbdfocus = some c ∨ m = .topwin ∧ w.buttons ≠ 0

/-- A press over the client `c` is ignored, or `c` is told to come forward and offered the
keyboard. -/
theorem pointAt_press (hp : p.buttons ≠ 0) :
    Ignored m w c ∧ w.pointAt m c p = w ∨
      ¬ Ignored m w c ∧ ∃ l, (w.pointAt m c p).out = w.out ++ l ∧
        l.filterMap Send.pointed = [] ∧ c ∈ l.filterMap Send.raised ∧
        (∀ a ∈ l.filterMap Send.raised, a = c) ∧
        (w.pointAt m c p).client = w.client ∧ (w.pointAt m c p).ptrfocus = w.ptrfocus ∧
        ((w.pointAt m c p).kbdfocus = w.kbdfocus ∨ (w.pointAt m c p).kbdfocus = some c) := by
  rw [pointAt, if_neg hp]
  split_ifs with htop hkbd
  · exact Or.inl ⟨Or.inr htop, rfl⟩
  · refine Or.inr ⟨not_or.mpr ⟨hkbd, htop⟩, ?_⟩
    obtain ⟨hclient, -, hptr, -⟩ := setfocus_frame m (w.ctl c "raise") (some c)
    obtain ⟨l, hown, ⟨heq, -⟩ | ⟨-, -, heq⟩⟩ := setfocus_logged m (w.ctl c "raise") (some c)
    · obtain ⟨hpointed, hraised⟩ := own_quiet hown
      refine ⟨.ctl c "raise" :: l, ?_, ?_, ?_, ?_, hclient, hptr, ?_⟩
      · rw [heq, ctl_eq_logged, logged_append]
        rfl
      · rw [List.filterMap_cons_none rfl, hpointed]
      · exact List.mem_cons_self
      · have honly : (Send.ctl c "raise" :: l).filterMap Send.raised = [c] :=
          congrArg (c :: ·) hraised
        rw [honly]
        exact fun a ha => List.mem_singleton.mp ha
      · rw [heq]
        exact Or.inl rfl
    · obtain ⟨hpointed, hraised⟩ := own_quiet hown
      obtain ⟨hpointed', hraised'⟩ := notices_raised m (w.ctl c "raise") c
      refine ⟨.ctl c "raise" :: (l ++ (w.ctl c "raise").notices m (some c)), ?_, ?_, ?_, ?_,
        hclient, hptr, ?_⟩
      · rw [heq, ctl_eq_logged, logged_append]
        rfl
      · rw [List.filterMap_cons_none rfl, List.filterMap_append, hpointed, hpointed']
        rfl
      · exact List.mem_cons_self
      · have honly : (Send.ctl c "raise" :: (l ++ (w.ctl c "raise").notices m (some c))).filterMap
            Send.raised = [c, c] := by
          have htail : (l ++ (w.ctl c "raise").notices m (some c)).filterMap Send.raised = [c] := by
            rw [List.filterMap_append, hraised, hraised']
            rfl
          exact congrArg (c :: ·) htail
        rw [honly]
        intro a ha
        simpa using ha
      · rw [heq]
        exact Or.inr rfl
  · -- the client has the keyboard already
    have hsame := not_not.mp hkbd
    refine Or.inl ⟨Or.inl hsame, ?_⟩
    rw [setfocus, if_pos hsame]

/-- A pointer event with a button down, that the manager's own window does not take. -/
theorem onPointer_press (hp : p.buttons ≠ 0) (hfind : w.find p.xy = some c) :
    ∃ l, (w.onPointer m p false).out =
        w.out ++ (l ++ (w.receiver.map fun a => Send.ptr a (some p)).toList) ∧
      l.filterMap Send.pointed = [] ∧
      (Ignored m w c ∧ l = [] ∧ (w.onPointer m p false).kbdfocus = w.kbdfocus ∨
        ¬ Ignored m w c ∧ c ∈ l.filterMap Send.raised ∧
          (∀ a ∈ l.filterMap Send.raised, a = c) ∧
          ((w.onPointer m p false).kbdfocus = w.kbdfocus ∨
            (w.onPointer m p false).kbdfocus = some c)) := by
  have haimed : w.aimed m p = w.pointAt m c p := by rw [aimed, hfind]
  rw [onPointer_eq, if_neg Bool.false_ne_true, haimed]
  obtain ⟨hkbd, -, hout⟩ := deliver_spec (w.pointAt m c p) p
  rcases @pointAt_press m w c p hp with ⟨hignored, heq⟩ | ⟨hignored, l, hl, hpointed, hmem, honly,
    hclient, hptr, hfocus⟩
  · rw [heq] at hkbd hout ⊢
    exact ⟨[], hout, rfl, Or.inl ⟨hignored, rfl, hkbd⟩⟩
  · have hreceiver : (w.pointAt m c p).receiver = w.receiver := by
      rw [receiver, hclient, hptr, receiver]
    rw [hl, hreceiver, List.append_assoc] at hout
    rw [← hkbd] at hfocus
    exact ⟨l, hout, hpointed, Or.inr ⟨hignored, hmem, honly, hfocus⟩⟩

theorem pointed_receiver (o : Option Cid) (p : Pointer) :
    ((o.map fun a => Send.ptr a (some p)).toList).filterMap Send.pointed =
      (o.map fun a => (a, some p)).toList := by
  cases o <;> rfl

theorem raised_receiver (o : Option Cid) (p : Pointer) :
    ((o.map fun a => Send.ptr a (some p)).toList).filterMap Send.raised = [] := by
  cases o <;> rfl

/-- A press is delivered to the client under the pointer just if that client has the pointer
focus. -/
theorem delivered_iff (hp : p.buttons ≠ 0) (hfind : w.find p.xy = some c)
    (hstarted : (w.client c).ptrstarted = true) :
    Delivered w (w.onPointer m p false) c p ↔ w.ptrfocus = some c := by
  obtain ⟨l, hout, hpointed, -⟩ := @onPointer_press m w c p hp hfind
  rw [Delivered, since_eq hout, List.filterMap_append, hpointed, List.nil_append, pointed_receiver]
  constructor
  · intro h
    cases hrec : w.receiver with
    | none =>
      rw [hrec] at h
      cases h
    | some a =>
      rw [hrec] at h
      obtain rfl : a = c := congrArg Prod.fst (List.cons.inj h).1
      exact (Option.filter_eq_some_iff.mp hrec).1
  · intro h
    rw [receiver, h, Option.filter_some, if_pos hstarted]
    rfl

/-- A press offers the keyboard to the client under the pointer, unless it is ignored and the
client does not have the keyboard. -/
theorem offered_iff (hp : p.buttons ≠ 0) (hfind : w.find p.xy = some c) :
    Offered w (w.onPointer m p false) c ↔
      (m = .topwin → w.buttons = 0 ∨ w.kbdfocus = some c) := by
  obtain ⟨l, hout, -, hcases⟩ := @onPointer_press m w c p hp hfind
  have hraised : (since w (w.onPointer m p false)).filterMap Send.raised =
      l.filterMap Send.raised := by
    rw [since_eq hout, List.filterMap_append, raised_receiver, List.append_nil]
  rcases hcases with ⟨hignored, rfl, hkbd⟩ | ⟨hignored, hmem, honly, hkbd⟩
  · constructor
    · rintro ⟨hoffered, -, -⟩ -
      rw [hraised, hkbd] at hoffered
      exact Or.inr (hoffered.resolve_right List.not_mem_nil)
    · intro h
      have hhas : w.kbdfocus = some c := by
        rcases hignored with hhas | ⟨rfl, hbuttons⟩
        · exact hhas
        · exact (h rfl).resolve_left hbuttons
      refine ⟨Or.inl (hkbd.trans hhas), ?_, Or.inl hkbd⟩
      rw [hraised]
      exact fun a ha => absurd ha List.not_mem_nil
  · obtain ⟨-, htop⟩ := not_or.mp hignored
    refine iff_of_true ⟨Or.inr (hraised ▸ hmem), ?_, hkbd⟩ ?_
    · rw [hraised]
      exact honly
    · intro hm
      exact Or.inl (not_not.mp fun hbuttons => htop ⟨hm, hbuttons⟩)

/-- Without a button, or without a client under the pointer, nobody is offered the keyboard. -/
theorem not_refocused (h : taken = true ∨ p.buttons = 0 ∨ w.find p.xy = none) :
    ¬ Refocused w (w.onPointer m p taken) := by
  have hquiet : ∀ {w' : Wm}, w'.kbdfocus = w.kbdfocus →
      (∃ l, w'.out = w.out ++ l ∧ l.filterMap Send.raised = []) → ¬ Refocused w w' := by
    rintro w' hkbd ⟨l, hout, hl⟩ (hchanged | hraised)
    · exact hchanged hkbd
    · rw [since_eq hout] at hraised
      exact hraised hl
  cases taken with
  | true => exact hquiet rfl ⟨[], (List.append_nil _).symm, rfl⟩
  | false =>
    obtain ⟨hkbd, -, hout⟩ := deliver_spec (w.aimed m p) p
    have haimed : (w.aimed m p).kbdfocus = w.kbdfocus ∧
        ∃ l, (w.aimed m p).out = w.out ++ l ∧ l.filterMap Send.raised = [] := by
      rw [aimed.eq_def]
      split
      · rename_i c hfind
        have hp : p.buttons = 0 := by simpa [hfind] using h
        rw [pointAt, if_pos hp]
        split
        · split_ifs
          · exact ⟨rfl, [.ptr _ (some p)], rfl, rfl⟩
          · exact ⟨rfl, [], (List.append_nil _).symm, rfl⟩
        · exact ⟨rfl, [], (List.append_nil _).symm, rfl⟩
      · exact ⟨rfl, [], (List.append_nil _).symm, rfl⟩
    obtain ⟨hkbd', l, hl, hraised⟩ := haimed
    rw [onPointer_eq, if_neg Bool.false_ne_true]
    refine hquiet (hkbd.trans hkbd')
      ⟨l ++ ((w.aimed m p).receiver.map fun a => Send.ptr a (some p)).toList, ?_, ?_⟩
    · rw [hout, hl, List.append_assoc]
    · rw [List.filterMap_append, hraised, raised_receiver]
      rfl

/-- `rowwm` and `tabswin` move the keyboard focus whenever a button is down over a client that
does not have it. -/
theorem refocused_iff (hm : m ≠ .topwin) :
    Refocused w (w.onPointer m p taken) ↔
      taken = false ∧ p.buttons ≠ 0 ∧ ∃ c, w.find p.xy = some c ∧ w.kbdfocus ≠ some c := by
  constructor
  · intro h
    cases taken with
    | true => exact absurd h (not_refocused (Or.inl rfl))
    | false =>
      have hp : p.buttons ≠ 0 := fun hp => not_refocused (Or.inr (Or.inl hp)) h
      cases hfind : w.find p.xy with
      | none => exact absurd h (not_refocused (Or.inr (Or.inr hfind)))
      | some c =>
        refine ⟨rfl, hp, c, rfl, ?_⟩
        intro hkbd
        obtain ⟨l, hout, -, hcases⟩ := @onPointer_press m w c p hp hfind
        rcases hcases with ⟨-, rfl, hsame⟩ | ⟨hignored, -⟩
        · rcases h with hchanged | hraised
          · exact hchanged hsame
          · rw [since_eq hout, List.nil_append, raised_receiver] at hraised
            exact hraised rfl
        · exact hignored (Or.inl hkbd)
  · rintro ⟨rfl, hp, c, hfind, hkbd⟩
    obtain ⟨l, hout, -, ⟨hignored, -⟩ | ⟨-, hmem, -⟩⟩ := @onPointer_press m w c p hp hfind
    · rcases hignored with hhas | ⟨htop, -⟩
      · exact absurd hhas hkbd
      · exact absurd htop hm
    · refine Or.inr ?_
      rw [since_eq hout, List.filterMap_append]
      exact List.ne_nil_of_mem (List.mem_append_left _ hmem)

/-! ## The pointer focus -/

theorem handled_ptrfocus (h : Handled m env w c req ptr w') : w'.ptrfocus = w.ptrfocus := by
  have hset : ∀ (w : Wm) (new : Option Cid), (w.setfocus m new).ptrfocus = w.ptrfocus :=
    fun w new => (setfocus_frame m w new).2.2.1
  cases h with
  | kbd | focus | unfocus => exact hset _ _
  | reshape w₁ tag r hcall =>
    have hcalled : Placing (fun _ => True) c w w₁ := .reshapeCall hcall
    have hplaced : Placing (fun _ => True) c w₁ (Wm.reshape m env w₁ c tag r).1 :=
      .reshape fun _ _ _ => trivial
    exact hplaced.ptrfocus.trans hcalled.ptrfocus
  | dragged win off w₁ e hdrag =>
    have hplaced : Placing (fun _ => True) c w w' := .drag hdrag
    exact hplaced.ptrfocus
  | delete tag args =>
    rw [deleteRequest]
    split_ifs
    · exact hset _ _
    · rfl
  | endcontrol args =>
    rw [endcontrolRequest]
    split_ifs <;> rfl
  | answered | key | wmctl | cursor | pointer | marked | control | top | bottom | message
  | forward => rfl

theorem onLeave_ptrfocus (m : Manager) (env : Env) (w : Wm) (c : Cid) :
    (w.onLeave m env c).ptrfocus = forget c w.ptrfocus := by
  have hdeparting : (w.departing m c).ptrfocus = forget c w.ptrfocus := by
    rw [Wm.departing, controlevent_logged]
    rfl
  have hdeparted : (w.departed m env c).ptrfocus = (w.departing m c).ptrfocus := by
    cases m with
    | tabswin | topwin => rfl
    | rowwm =>
      have hpacked : Placing (fun _ => True) c (w.departing .rowwm c)
          (w.departed .rowwm env c) := .packWindows fun _ _ => trivial
      exact hpacked.ptrfocus
  rw [onLeave_eq]
  exact ((setfocus_frame m _ _).2.2.1.trans hdeparted).trans hdeparting

theorem onWinctl_ptrfocus (m : Manager) (env : Env) (w : Wm) (e : String) (img : Option Rect) :
    (w.onWinctl m env e img).ptrfocus = w.ptrfocus := by
  have htold : (w.told e).ptrfocus = w.ptrfocus := by
    have hall : ∀ (cs : List Cid) (w : Wm), (ctlAll "exit" cs w).ptrfocus = w.ptrfocus := by
      intro cs
      induction cs with
      | nil => exact fun _ => rfl
      | cons c cs ih => exact fun w => ih _
    rw [told]
    split_ifs
    · exact hall _ _
    · rfl
  cases img with
  | none => exact htold
  | some newr =>
    have hscreen : ∀ w : Wm, (w.rescreened m env newr).ptrfocus = w.ptrfocus := by
      intro w
      have hplaced : Placing (fun _ => True) 0 w (w.rescreened m env newr) :=
        .rescreened fun _ _ => trivial
      exact hplaced.ptrfocus
    rw [onWinctl, reshaped.eq_def]
    split
    · have hpacked : Placing (fun _ => True) 0 ((w.told e).rescreened .rowwm env newr)
          (((w.told e).rescreened .rowwm env newr).packWindows env newr) :=
        .packWindows fun _ _ => trivial
      exact (hpacked.ptrfocus.trans (hscreen _)).trans htold
    · exact (hscreen _).trans htold

theorem onPointer_ptrfocus (m : Manager) (w : Wm) (p : Pointer) (taken : Bool) :
    (w.onPointer m p taken).ptrfocus =
      if taken = false ∧ p.buttons = 0 then (w.find p.xy).or w.ptrfocus else w.ptrfocus := by
  cases taken with
  | true => rfl
  | false =>
    rw [onPointer_eq, if_neg Bool.false_ne_true, (deliver_spec _ _).2.1, aimed.eq_def]
    split
    · rename_i c hfind
      by_cases hp : p.buttons = 0
      · rw [if_pos ⟨rfl, hp⟩, hfind, pointAt, if_pos hp]
        rfl
      · rw [if_neg fun h => hp h.2]
        rcases @pointAt_press m w c p hp with ⟨-, heq⟩ | ⟨-, _, _, _, _, _, _, hptr, _⟩
        · rw [heq]
        · exact hptr
    · rename_i hfind
      rw [hfind]
      split_ifs <;> rfl

end Wm

open Wm

/-- A manager, and what its pointer events have said so far. -/
structure Watch where
  session : Session
  /-- a button was down in the last pointer event -/
  down : Bool := false
  /-- the client under the pointer when it last moved over a client without a button -/
  aim : Option Cid := none
  /-- for each pointer event that has moved the keyboard focus or raised a client: whether a
  button was down before it, and the buttons of the event -/
  moves : List (Bool × Int) := []

namespace Watch

/-- The manager as it starts, before any pointer event. -/
def start (screen : Rect) : Watch := { session := .start screen }

/-- A button is down after the turn. -/
def downAfter (m : Manager) (env : Env) (v : Watch) : Event → Bool
  | .pointer p _ => p.buttons ≠ 0
  -- `dragwin` and `sizewin` read pointer events until the buttons are released
  | .request c data _ => if Waits m env v.session.wm c data then false else v.down
  | _ => v.down

/-- The client that the pointer has pointed at last, after the turn. -/
def aimAfter (v : Watch) : Event → Option Cid
  | .pointer p taken =>
    if taken = false ∧ p.buttons = 0 then (v.session.wm.find p.xy).or v.aim else v.aim
  | .leave c => forget c v.aim
  | _ => v.aim

/-- The move that the pointer handler makes in the turn, if it makes one. -/
def move (m : Manager) (v : Watch) : Event → List (Bool × Int)
  | .pointer p taken =>
    if Refocused v.session.wm (v.session.wm.onPointer m p taken) then [(v.down, p.buttons)] else []
  | _ => []

/-- One turn of the main loop. -/
def step (m : Manager) (env : Env) (v : Watch) (e : Event) : Option Watch :=
  (v.session.step m env e).map fun t =>
    { session := t
      down := v.downAfter m env e
      aim := v.aimAfter e
      moves := v.moves ++ v.move m e }

/-- A button stays down, and the pointer is over a client that does not have the keyboard. -/
def DragsOver (v : Watch) : Event → Prop
  | .pointer p taken =>
    v.down = true ∧ p.buttons ≠ 0 ∧ taken = false ∧
      ∃ c ∈ v.session.wm.find p.xy, v.session.wm.kbdfocus ≠ some c
  | _ => False

/-- The move was made by a button that went down. -/
def Pressed (t : Bool × Int) : Prop := t.1 = false ∧ t.2 ≠ 0

variable {m : Manager} {env : Env} {v v' : Watch} {e : Event} {es : List Event} {screen : Rect}
  {p : Pointer} {c : Cid}

theorem step_ptrfocus (hv : v.session.wm.ptrfocus = v.aim) (hstep : v.step m env e = some v') :
    v'.session.wm.ptrfocus = v'.aim := by
  obtain ⟨t, hturn, rfl⟩ := Option.map_eq_some_iff.mp hstep
  change t.wm.ptrfocus = v.aimAfter e
  cases e with
  | opened id =>
    obtain rfl := Option.some.inj hturn
    exact hv
  | join c =>
    simp only [Session.step] at hturn
    split_ifs at hturn
    obtain rfl := Option.some.inj hturn
    refine Eq.trans ?_ hv
    simp only [onJoin, controlevent_logged]
    split_ifs <;> rfl
  | leave c =>
    simp only [Session.step] at hturn
    split_ifs at hturn
    obtain rfl := Option.some.inj hturn
    exact (onLeave_ptrfocus m env _ c).trans (congrArg (forget c) hv)
  | request c data ptr =>
    simp only [Session.step] at hturn
    split_ifs at hturn
    obtain ⟨⟨w, a⟩, hreq, rfl⟩ := Option.map_eq_some_iff.mp hturn
    exact (handled_ptrfocus (handled hreq)).trans hv
  | key k =>
    obtain rfl := Option.some.inj hturn
    refine Eq.trans ?_ hv
    simp only [onKey]
    split <;> rfl
  | pointer p taken =>
    obtain rfl := Option.some.inj hturn
    rw [onPointer_ptrfocus, hv]
    rfl
  | winctl e img =>
    obtain rfl := Option.some.inj hturn
    exact (onWinctl_ptrfocus m env _ e img).trans hv

/-- The pointer focus is the client that the pointer has pointed at last. -/
theorem ptrfocus_eq_aim (h : Run (StepOf (step m env)) (start screen) es v) :
    v.session.wm.ptrfocus = v.aim :=
  h.invariant (I := fun v => v.session.wm.ptrfocus = v.aim) rfl fun _ _ _ hv hstep =>
    step_ptrfocus hv hstep

/-- In every state a manager can reach: a press over a client that has started the pointer is
delivered to it and to nobody else, and offers it the keyboard and nobody else, just if it
was under the pointer when the pointer last moved over a client without a button (and, in
`topwin`, if the manager remembers no button, or the client has the keyboard already). -/
theorem press_delivered_iff (h : Run (StepOf (step m env)) (start screen) es v)
    (hp : p.buttons ≠ 0) (hfind : v.session.wm.find p.xy = some c)
    (hstarted : (v.session.wm.client c).ptrstarted = true) :
    Delivered v.session.wm (v.session.wm.onPointer m p false) c p ∧
        Offered v.session.wm (v.session.wm.onPointer m p false) c ↔
      v.aim = some c ∧
        (m = .topwin → v.session.wm.buttons = 0 ∨ v.session.wm.kbdfocus = some c) := by
  rw [delivered_iff hp hfind hstarted, offered_iff hp hfind, ptrfocus_eq_aim h]

/-- A client shows a row, starts the pointer and the pointer moves onto it. -/
def pointAtRow : List Event :=
  [.opened 0, .join 0, .request 0 "!reshape . -1 0 0 196 20" [], .request 0 "start ptr" [],
    .pointer ⟨0, ⟨5, 5⟩, 0⟩ false]

/-- A press on the only row. -/
theorem press_delivered_row :
    ∃ v, Run (StepOf (step .rowwm default)) (start ⟨⟨0, 0⟩, ⟨196, 400⟩⟩) pointAtRow v ∧
      Delivered v.session.wm (v.session.wm.onPointer .rowwm ⟨1, ⟨5, 5⟩, 0⟩ false) 0
        ⟨1, ⟨5, 5⟩, 0⟩ ∧
      Offered v.session.wm (v.session.wm.onPointer .rowwm ⟨1, ⟨5, 5⟩, 0⟩ false) 0 := by
  obtain ⟨v, hrun, hfind, hstarted, haim⟩ : ∃ v,
      Run (StepOf (step .rowwm default)) (start ⟨⟨0, 0⟩, ⟨196, 400⟩⟩) pointAtRow v ∧
      v.session.wm.find ⟨5, 5⟩ = some 0 ∧ (v.session.wm.client 0).ptrstarted = true ∧
        v.aim = some 0 :=
    Run.exists_of_exec (by decide +kernel)
  exact ⟨v, hrun, (press_delivered_iff hrun (by decide) hfind hstarted).mpr
    ⟨haim, by rintro ⟨⟩⟩⟩

/-- A header appears under the resting pointer: the press goes to the row that was there
before, while the header is offered the keyboard. -/
theorem press_misdelivered :
    ∃ v, Run (StepOf (step .rowwm default)) (start ⟨⟨0, 0⟩, ⟨196, 400⟩⟩)
        (pointAtRow ++ [.opened 1, .join 1, .request 1 "start ptr" [],
          .request 1 "wintype header" [], .request 1 "!reshape . -1 0 0 196 30" []]) v ∧
      v.down = false ∧ v.session.wm.find ⟨5, 5⟩ = some 1 ∧
      (v.session.wm.client 1).ptrstarted = true ∧
      Delivered v.session.wm (v.session.wm.onPointer .rowwm ⟨1, ⟨5, 5⟩, 0⟩ false) 0
        ⟨1, ⟨5, 5⟩, 0⟩ ∧
      (since v.session.wm (v.session.wm.onPointer .rowwm ⟨1, ⟨5, 5⟩, 0⟩ false)).filterMap
        Send.raised = [1] :=
  Run.exists_of_exec (by decide +kernel)

/-- What the pointer handler of `rowwm` and `tabswin` does to the keyboard in one turn is the
doing of a button that goes down, just if no button is dragged over another client. -/
theorem move_pressed_iff (hm : m ≠ .topwin) (v : Watch) (e : Event) :
    (∀ t ∈ v.move m e, Pressed t) ↔ ¬ v.DragsOver e := by
  cases e with
  | pointer p taken =>
    have hmove : (∀ t ∈ v.move m (.pointer p taken), Pressed t) ↔
        (Refocused v.session.wm (v.session.wm.onPointer m p taken) →
          Pressed (v.down, p.buttons)) := by
      rw [move]
      split_ifs with hrefocused
      · simp [hrefocused]
      · simp [hrefocused]
    rw [hmove, refocused_iff hm]
    constructor
    · rintro hrule ⟨hdown, hp, htaken, hover⟩
      have hup := (hrule ⟨htaken, hp, hover⟩).1
      rw [hdown] at hup
      cases hup
    · rintro hnot ⟨htaken, hp, hover⟩
      refine ⟨?_, hp⟩
      cases hdown : v.down with
      | false => rfl
      | true => exact absurd ⟨hdown, hp, htaken, hover⟩ hnot
  | opened | join | leave | request | key | winctl =>
    exact iff_of_true (fun _ ht => absurd ht List.not_mem_nil) not_false

theorem step_moves (hstep : v.step m env e = some v') : v'.moves = v.moves ++ v.move m e := by
  obtain ⟨t, -, rfl⟩ := Option.map_eq_some_iff.mp hstep
  rfl

/-- In every run of `rowwm` or `tabswin`, the pointer handler has moved the keyboard focus and
raised clients only when a button went down, just if in no turn of the run a button that was
down already was over a client without the keyboard. -/
theorem drag_focus_iff (hm : m ≠ .topwin) (h : Run (StepOf (step m env)) (start screen) es v) :
    (∀ t ∈ v.moves, Pressed t) ↔
      Run (Guarded (fun v e => ¬ v.DragsOver e) (StepOf (step m env))) (start screen) es v := by
  constructor
  · intro hmoves
    induction h with
    | nil => exact .nil
    | snoc hrun hstep ih =>
      rw [step_moves hstep] at hmoves
      have hturn := (move_pressed_iff hm _ _).mp fun t ht => hmoves t (List.mem_append_right _ ht)
      exact (ih fun t ht => hmoves t (List.mem_append_left _ ht)).snoc ⟨hturn, hstep⟩
  · intro hguarded
    have hstart : ∀ t ∈ (start screen).moves, Pressed t := fun t ht => absurd ht List.not_mem_nil
    refine hguarded.invariant (I := fun v => ∀ t ∈ v.moves, Pressed t) hstart ?_
    rintro v e v' hv ⟨hclear, hstep⟩ t ht
    rw [step_moves hstep] at ht
    rcases List.mem_append.mp ht with ht | ht
    · exact hv t ht
    · exact (move_pressed_iff hm v e).mpr hclear t ht

/-- Two clients show a row each, and start the keyboard and the pointer. -/
def twoRows : List Event :=
  pointAtRow ++ [.request 0 "start kbd" [], .opened 1, .join 1,
    .request 1 "!reshape . -1 0 0 196 30" [], .request 1 "start kbd" []]

/-- A press on the upper row, and a drag within it. -/
theorem drag_focus_within :
    ∃ v, Run (StepOf (step .rowwm default)) (start ⟨⟨0, 0⟩, ⟨196, 400⟩⟩)
        (twoRows ++ [.pointer ⟨1, ⟨5, 5⟩, 0⟩ false, .pointer ⟨1, ⟨5, 15⟩, 1⟩ false]) v ∧
      v.moves = [(false, 1)] ∧
      Run (Guarded (fun v e => ¬ v.DragsOver e) (StepOf (step .rowwm default)))
        (start ⟨⟨0, 0⟩, ⟨196, 400⟩⟩)
        (twoRows ++ [.pointer ⟨1, ⟨5, 5⟩, 0⟩ false, .pointer ⟨1, ⟨5, 15⟩, 1⟩ false]) v := by
  obtain ⟨v, hrun, hmoves⟩ : ∃ v,
      Run (StepOf (step .rowwm default)) (start ⟨⟨0, 0⟩, ⟨196, 400⟩⟩)
        (twoRows ++ [.pointer ⟨1, ⟨5, 5⟩, 0⟩ false, .pointer ⟨1, ⟨5, 15⟩, 1⟩ false]) v ∧
      v.moves = [(false, 1)] :=
    Run.exists_of_exec (by decide +kernel)
  refine ⟨v, hrun, hmoves, (drag_focus_iff (by decide) hrun).mp ?_⟩
  rw [hmoves]
  intro t ht
  rw [List.mem_singleton.mp ht]
  exact ⟨rfl, by decide⟩

/-- A press on the upper row, and a drag onto the lower one: the second event moves the
keyboard focus while the button stays down. -/
theorem drag_moves_focus :
    ∃ v, Run (StepOf (step .rowwm default)) (start ⟨⟨0, 0⟩, ⟨196, 400⟩⟩)
        (twoRows ++ [.pointer ⟨1, ⟨5, 5⟩, 0⟩ false, .pointer ⟨1, ⟨5, 25⟩, 1⟩ false]) v ∧
      v.moves = [(false, 1), (true, 1)] ∧ v.session.wm.kbdfocus = some 1 :=
  Run.exists_of_exec (by decide +kernel)

end Watch

end Aimsgui
