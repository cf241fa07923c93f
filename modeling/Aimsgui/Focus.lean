import Aimsgui.Listing
import Aimsgui.Notices

/-!
# Who has the keyboard

`setfocus` tells the client that loses the keyboard and the one that gets it; a client that
leaves is forgotten without a word. `Heard` runs `rowwm` together with the history of these
messages. The messages that the controller sends with a "ctl" request do not count: they may
have the same text. In every run in which clients join before they make requests, each client
that has not left was told last what is the case (`focus_agreed`).
-/

namespace Aimsgui

open Transition

/-- A message of `setfocus`: the client, and whether it has the keyboard now. -/
def haskbdfocus : Send → Option (Cid × Bool)
  | .ctl c e =>
    if e = "haskbdfocus 1" then some (c, true)
    else if e = "haskbdfocus 0" then some (c, false)
    else none
  | _ => none

/-- The last thing that was said to a client. -/
def lastsaid (said : List (Cid × Bool)) (c : Cid) : Option Bool :=
  (said.reverse.find? (·.1 = c)).map Prod.snd

/-- The turn handles a "ctl" request. -/
def Event.forwards : Event → Bool
  | .request _ data _ => (unquoted data).head? = some "ctl"
  | _ => false

/-- The client whose request the turn handles. -/
def Event.requester : Event → Option Cid
  | .request c _ _ => some c
  | _ => none

/-- A manager, and what its `setfocus` has said so far. -/
structure Heard where
  session : Session
  said : List (Cid × Bool) := []

namespace Heard

/-- Nothing has been said to begin with. -/
def start (screen : Rect) : Heard := { session := .start screen }

/-- One turn of the main loop, and what is said in it. -/
def step (env : Env) (h : Heard) (e : Event) : Option Heard :=
  (h.session.step .rowwm env e).map fun t =>
    { session := t
      said := h.said ++
        if e.forwards then []
        else (t.wm.out.drop h.session.wm.out.length).filterMap haskbdfocus }

/-- Clients join before they make requests. -/
def Joined (h : Heard) (e : Event) : Prop := ∀ c ∈ e.requester, c ∈ h.session.joined

instance (h : Heard) (e : Event) : Decidable (h.Joined e) :=
  inferInstanceAs (Decidable (∀ c ∈ e.requester, c ∈ h.session.joined))

end Heard

/-! ## What has been said -/

theorem lastsaid_append (said l : List (Cid × Bool)) (c : Cid) :
    lastsaid (said ++ l) c = (lastsaid l c).or (lastsaid said c) := by
  rw [lastsaid, List.reverse_append, List.find?_append, lastsaid, lastsaid]
  cases l.reverse.find? (·.1 = c) <;> rfl

/-- What is said to at most one client. -/
theorem lastsaid_toList (o : Option Cid) (b : Bool) (c : Cid) :
    lastsaid (o.map (·, b)).toList c = if o = some c then some b else none := by
  cases o with
  | none => rfl
  | some a =>
    simp only [Option.map_some, Option.toList_some, lastsaid, List.reverse_singleton,
      List.find?_singleton, decide_eq_true_eq, Option.some.injEq]
    split_ifs <;> rfl

/-- Only messages that begin with an "h" are about the keyboard. -/
theorem haskbdfocus_of_head {c : Cid} {e : String} (h : e.toList.head? ≠ some 'h') :
    haskbdfocus (.ctl c e) = none := by
  rw [haskbdfocus]
  split_ifs with h₁ h₀
  · exact absurd rfl (h₁ ▸ h)
  · exact absurd rfl (h₀ ▸ h)
  · rfl

theorem head_append {s t : String} {a : Char} (h : s.toList.head? = some a) :
    (s ++ t).toList.head? = some a := by
  rw [String.toList_append, List.head?_append, h]
  rfl

/-- Nothing that is sent while windows are placed is about the keyboard. -/
theorem haskbdfocus_places {who : Cid → Prop} {c : Cid} {x : Send} (h : x.Places who c) :
    haskbdfocus x = none := by
  cases h with
  | reshape =>
    refine haskbdfocus_of_head ?_
    rw [Wm.reshapeMsg, String.append_assoc, String.append_assoc, head_append (a := '!') rfl]
    decide
  | rect =>
    refine haskbdfocus_of_head ?_
    rw [head_append (a := 'r') rfl]
    decide
  | image | ptr | origin | wmctl | fakekbd => rfl

namespace Wm

variable {env : Env} {w w' w'' : Wm} {c : Cid} {left : List Cid} {who : Cid → Prop}
  {said l l' : List (Cid × Bool)} {new : Option Cid} {sent : List Send}

/-- What has been sent on the way from `w` to `w'` says `l` about the keyboard. -/
def Tells (w w' : Wm) (l : List (Cid × Bool)) : Prop :=
  ∃ sent, w'.out = w.out ++ sent ∧ sent.filterMap haskbdfocus = l

theorem Tells.trans (h : Tells w w' l) (h' : Tells w' w'' l') : Tells w w'' (l ++ l') := by
  obtain ⟨sent, hout, rfl⟩ := h
  obtain ⟨sent', hout', rfl⟩ := h'
  exact ⟨sent ++ sent', by rw [hout', hout, List.append_assoc], List.filterMap_append⟩

theorem Tells.drop (h : Tells w w' l) : (w'.out.drop w.out.length).filterMap haskbdfocus = l := by
  obtain ⟨sent, hout, rfl⟩ := h
  rw [hout, List.drop_left]

/-- The keyboard is with a client `who` that has not left and has started it, and every
client that has not left was told last whether it has the keyboard. -/
structure Focused (left : List Cid) (who : Cid → Prop) (w : Wm) (said : List (Cid × Bool)) :
    Prop where
  holder : ∀ c, w.kbdfocus = some c → who c ∧ c ∉ left ∧ (w.client c).kbdstarted = true
  agreed : ∀ c, c ∉ left → (lastsaid said c = some true ↔ w.kbdfocus = some c)

/-- What happens between `w` and `w'` keeps everybody informed. -/
def Follows (left : List Cid) (who : Cid → Prop) (w w' : Wm) : Prop :=
  ∀ said, Focused left who w said → ∃ l, Tells w w' l ∧ Focused left who w' (said ++ l)

namespace Follows

theorem trans (h : Follows left who w w') (h' : Follows left who w' w'') :
    Follows left who w w'' := by
  intro said hw
  obtain ⟨l, htells, hw'⟩ := h said hw
  obtain ⟨l', htells', hw''⟩ := h' _ hw'
  exact ⟨l ++ l', htells.trans htells', List.append_assoc said l l' ▸ hw''⟩

/-- Nobody gets the keyboard, and nothing is said about it. -/
theorem hushed (hkbd : w'.kbdfocus = w.kbdfocus)
    (hstarted : ∀ c, (w.client c).kbdstarted = true → (w'.client c).kbdstarted = true)
    (hout : w'.out = w.out ++ sent) (hsent : ∀ x ∈ sent, haskbdfocus x = none) :
    Follows left who w w' := by
  intro said hw
  refine ⟨[], ⟨sent, hout, List.filterMap_eq_nil_iff.mpr hsent⟩, ?_⟩
  rw [List.append_nil]
  refine ⟨?_, ?_⟩
  · intro c hc
    obtain ⟨hwho, hleft, hkbdstarted⟩ := hw.holder c (hkbd ▸ hc)
    exact ⟨hwho, hleft, hstarted c hkbdstarted⟩
  · intro c hc
    rw [hkbd]
    exact hw.agreed c hc

theorem rfl' : Follows left who w w :=
  hushed rfl (fun _ h => h) (List.append_nil _).symm fun _ hx => absurd hx List.not_mem_nil

theorem placing {who' : Cid → Prop} (h : Placing who' c w w') : Follows left who w w' := by
  obtain ⟨sent, hout, hsent⟩ := h.sent
  refine hushed h.kbdfocus ?_ hout fun x hx => haskbdfocus_places (hsent x hx)
  intro a ha
  exact (h.client a).kbdstarted.trans ha

theorem put {f : Client → Client}
    (hf : ∀ cl, cl.kbdstarted = true → (f cl).kbdstarted = true) :
    Follows left who w (w.put c f) := by
  refine hushed rfl ?_ (List.append_nil _).symm fun _ hx => absurd hx List.not_mem_nil
  intro a ha
  by_cases hac : a = c
  · subst hac
    rw [put_self]
    exact hf _ ha
  · rwa [put_of_ne hac]

theorem logged (hsent : ∀ x ∈ sent, haskbdfocus x = none) : Follows left who w (w.logged sent) :=
  hushed rfl (fun _ h => h) rfl hsent

theorem send {x : Send} (h : haskbdfocus x = none) : Follows left who w (w.send x) := by
  refine hushed rfl (fun _ h => h) rfl ?_
  intro y hy
  rw [List.mem_singleton.mp hy]
  exact h

theorem ctl {e : String} (h : e.toList.head? ≠ some 'h') : Follows left who w (w.ctl c e) :=
  send (haskbdfocus_of_head h)

theorem controlevent {e : String} (h : e.toList.head? ≠ some 'h') :
    Follows left who w (w.controlevent e) := by
  rw [Wm.controlevent.eq_def]
  split
  · split_ifs
    · exact ctl h
    · exact rfl'
  · exact rfl'

/-- The event for the controller says nothing about the keyboard. -/
theorem filterMap_focusnews (m : Manager) (w : Wm) (e : String) :
    (w.focusnews m e).filterMap haskbdfocus = [] := by
  have hevent : ∀ ctlr, haskbdfocus (.ctl ctlr ("kbdfocuschange " ++ e)) = none := by
    intro ctlr
    apply haskbdfocus_of_head
    rw [head_append (a := 'k') rfl]
    decide
  cases m with
  | rowwm | topwin => rfl
  | tabswin =>
    rw [focusnews, event.eq_def]
    split
    · split_ifs
      · rw [List.filterMap_cons_none (hevent _)]
        rfl
      · rfl
    · rfl

/-- The messages about the keyboard among those of `setfocus`. -/
theorem filterMap_notices (m : Manager) (w : Wm) (new : Option Cid) :
    (w.notices m new).filterMap haskbdfocus =
      (w.kbdfocus.map (·, false)).toList ++ (new.map (·, true)).toList := by
  have hfarewell : w.farewell.filterMap haskbdfocus = (w.kbdfocus.map (·, false)).toList := by
    cases hkbd : w.kbdfocus <;> simp only [farewell, hkbd] <;> rfl
  rw [notices, List.filterMap_append, hfarewell]
  cases new with
  | none => rw [welcome, filterMap_focusnews, Option.map_none, Option.toList_none]
  | some c =>
    rw [welcome, List.filterMap_append, filterMap_focusnews]
    rfl

/-- `setfocus` tells both clients. -/
theorem setfocus (hnew : ∀ c ∈ new, who c ∧ c ∉ left) :
    Follows left who w (w.setfocus .rowwm new) := by
  obtain ⟨l, hown, ⟨heq, -⟩ | ⟨hne, hfocusable, heq⟩⟩ := setfocus_logged .rowwm w new
  · rw [heq]
    refine logged ?_
    intro x hx
    obtain ⟨s, rfl⟩ := hown x hx
    rfl
  · rw [heq]
    intro said hw
    have hquiet : l.filterMap haskbdfocus = [] := by
      rw [List.filterMap_eq_nil_iff]
      intro x hx
      obtain ⟨s, rfl⟩ := hown x hx
      rfl
    refine ⟨_, ⟨l ++ w.notices .rowwm new, rfl, rfl⟩, ?_, ?_⟩
    · intro c hc
      exact ⟨(hnew c hc).1, (hnew c hc).2, hfocusable c hc⟩
    · intro c hc
      rw [List.filterMap_append, hquiet, List.nil_append, filterMap_notices, lastsaid_append,
        lastsaid_append, lastsaid_toList, lastsaid_toList]
      by_cases hgets : new = some c
      · rw [if_pos hgets]
        exact iff_of_true rfl hgets
      · rw [if_neg hgets]
        refine iff_of_false ?_ hgets
        by_cases hloses : w.kbdfocus = some c
        · rw [if_pos hloses]
          rintro ⟨⟩
        · -- this client has not had the keyboard before, and was told so
          rw [if_neg hloses]
          exact fun hlast => hloses ((hw.agreed c hc).mp hlast)

/-- A request, other than one that passes a message on. -/
theorem handled {req : String} {ptr : List Pointer} (hc : who c ∧ c ∉ left)
    (hctl : (unquoted req).head? ≠ some "ctl") (h : Handled .rowwm env w c req ptr w') :
    Follows left who w w' := by
  have hnew : ∀ a ∈ some c, who a ∧ a ∉ left := by
    rintro a ⟨⟩
    exact hc
  have hnone : ∀ a ∈ (none : Option Cid), who a ∧ a ∉ left := by rintro a ⟨⟩
  have hown : ∀ x ∈ [Send.wmctl req], haskbdfocus x = none := by
    intro x hx
    rw [List.mem_singleton.mp hx]
    rfl
  have hmarks : ∀ {f : Client → Client}, Marks f → Follows left who w (w.put c f) :=
    fun hf => .put fun cl hcl => (hf.kbdstarted cl).trans hcl
  cases h with
  | answered => exact .rfl'
  | key s => exact .send rfl
  | wmctl => exact .hushed rfl (fun _ h => h) rfl hown
  | cursor f hf => exact (hmarks hf).trans (.hushed rfl (fun _ h => h) rfl hown)
  | pointer p hfocus =>
    have hwmctl : Follows left who w (w.wmctl' env req).1 := .hushed rfl (fun _ h => h) rfl hown
    exact (hwmctl.trans (.send rfl)).trans (.send rfl)
  | marked f hf => exact hmarks hf
  | kbd hreq => exact Follows.trans (.put fun _ _ => rfl) (.setfocus hnew)
  | control => exact .put fun _ h => h
  | reshape w₁ tag r hcall =>
    have hplaced : Placing (fun _ => True) c w₁ (Wm.reshape .rowwm env w₁ c tag r).1 :=
      .reshape fun _ _ _ => trivial
    have hcalled : Placing (fun _ => True) c w w₁ := .reshapeCall hcall
    exact .placing (hcalled.trans hplaced)
  | dragged win off w₁ e hdrag =>
    have hplaced : Placing (fun _ => True) c w w' := .drag hdrag
    exact .placing hplaced
  | delete tag args =>
    have hdrop : Follows left who w (w.put c (·.dropwin tag)) :=
      .put fun _ h => (Client.Same.dropwin tag).kbdstarted.trans h
    rw [deleteRequest]
    split_ifs
    · exact hdrop.trans (.setfocus hnone)
    · exact hdrop
  | top hm => exact absurd rfl hm
  | bottom hm => exact absurd rfl hm
  | focus => exact .setfocus hnew
  | unfocus => exact .setfocus hnone
  | message id msg msgs z hreq => exact absurd (by rw [hreq]; rfl) hctl
  | endcontrol args =>
    rw [endcontrolRequest]
    split_ifs
    · exact .rfl'
    · have hput : Follows left who w (w.put c fun cl =>
          { cl with controlstarted := false, controller := false }) := .put fun _ h => h
      exact hput.trans (.hushed rfl (fun _ h => h) (List.append_nil _).symm fun _ hx =>
        absurd hx List.not_mem_nil)
  | forward ctlr =>
    refine .ctl ?_
    rw [String.append_assoc, String.append_assoc, head_append (a := 'r') rfl]
    decide

theorem onJoin (c : Cid) : Follows left who w (w.onJoin c) := by
  simp only [Wm.onJoin]
  refine Follows.trans ?_ (.put fun _ h => h)
  have hrect : Follows left who w (w.ctl c ("rect " ++ r2s w.screen)) := by
    refine .ctl ?_
    rw [head_append (a := 'r') rfl]
    decide
  refine hrect.trans ?_
  split_ifs
  · refine Follows.trans (.put (c := c) (f := fun cl => { cl with controller := true }) ?_) ?_
    · exact fun _ h => h
    · exact .hushed rfl (fun _ h => h) (List.append_nil _).symm fun _ hx =>
        absurd hx List.not_mem_nil
  · refine .controlevent ?_
    rw [head_append (a := 'n') rfl]
    decide

theorem onKey (k : Int) : Follows left who w (w.onKey k) := by
  rw [Wm.onKey]
  split
  · exact .send rfl
  · exact .rfl'

/-- A button that goes down gives the keyboard to the client under the pointer. -/
theorem onPointer (h : Lists left who w) (p : Pointer) (taken : Bool) :
    Follows left who w (w.onPointer .rowwm p taken) := by
  have hsame : ∀ {w₁ : Wm} {x : Option Cid}, Follows left who w₁ { w₁ with ptrfocus := x } :=
    .hushed rfl (fun _ h => h) (List.append_nil _).symm fun _ hx => absurd hx List.not_mem_nil
  have hbuttons : ∀ {w₁ : Wm} {b : Int}, Follows left who w₁ { w₁ with buttons := b } :=
    .hushed rfl (fun _ h => h) (List.append_nil _).symm fun _ hx => absurd hx List.not_mem_nil
  have hat : ∀ c, w.find p.xy = some c → Follows left who w (w.pointAt .rowwm c p) := by
    intro c hc
    have hnew : ∀ a ∈ some c, who a ∧ a ∉ left := by
      rintro a ⟨⟩
      have hlisted := h.mem_order (List.mem_of_find?_eq_some hc)
      exact ⟨hlisted.2.2, hlisted.2.1⟩
    simp only [pointAt]
    split_ifs
    · split
      · split_ifs
        · exact Follows.trans (.send rfl) hsame
        · exact hsame
      · exact hsame
    · exact .rfl'
    · refine Follows.trans (.ctl ?_) (.setfocus hnew)
      decide
    · exact .setfocus hnew
  rw [onPointer_eq]
  split_ifs
  · exact .rfl'
  · have haimed : Follows left who w (w.aimed .rowwm p) := by
      rw [aimed]
      split
      · exact hat _ ‹_›
      · exact .rfl'
    refine haimed.trans ?_
    rw [deliver]
    split
    · split_ifs
      · exact hbuttons.trans (.send rfl)
      · exact hbuttons
    · exact hbuttons

theorem onWinctl (e : String) (img : Option Rect) :
    Follows left who w (w.onWinctl .rowwm env e img) := by
  have hall : ∀ (cs : List Cid) (w : Wm), Follows left who w (ctlAll "exit" cs w) := by
    intro cs
    induction cs with
    | nil => exact fun _ => .rfl'
    | cons c cs ih =>
      intro w
      refine Follows.trans (.ctl ?_) (ih _)
      decide
  have htold : Follows left who w (w.told e) := by
    rw [told]
    split_ifs
    · exact (hall _ _).trans (.send rfl)
    · exact .send rfl
  cases img with
  | some newr =>
    have hscreen : Placing (fun _ => True) 0 (w.told e) ((w.told e).rescreened .rowwm env newr) :=
      .rescreened fun _ _ => trivial
    have hpacked : Placing (fun _ => True) 0 (w.told e) ((w.told e).reshaped .rowwm env newr) :=
      hscreen.trans (.packWindows fun _ _ => trivial)
    exact htold.trans (.placing hpacked)
  | none => exact htold

end Follows

/-- Nothing but the client that leaves is forgotten. -/
theorem forget_eq_some {x : Option Cid} {a : Cid} : forget c x = some a ↔ x = some a ∧ a ≠ c := by
  rw [forget]
  split_ifs with hx
  · rw [hx]
    refine iff_of_false (by rintro ⟨⟩) ?_
    rintro ⟨ha, hac⟩
    exact hac (Option.some.inj ha).symm
  · refine ⟨fun ha => ⟨ha, ?_⟩, fun ha => ha.1⟩
    rintro rfl
    exact hx ha

/-- A client that leaves with the keyboard is forgotten without a word. -/
theorem focused_forgetting (hw : Focused left who w said) :
    Focused (c :: left) who (w.forgetting .rowwm c) said := by
  refine ⟨?_, ?_⟩
  · intro a ha
    obtain ⟨hkbd, hac⟩ := forget_eq_some.mp ha
    obtain ⟨hwho, hleft, hstarted⟩ := hw.holder a hkbd
    exact ⟨hwho, fun hm => (List.mem_cons.mp hm).elim hac hleft, hstarted⟩
  · intro a ha
    obtain ⟨hac, hleft⟩ := not_or.mp fun hm => ha (List.mem_cons.mpr hm)
    exact (hw.agreed a hleft).trans (forget_eq_some.trans (and_iff_left hac)).symm

/-- After that the windows are packed, and the next client is told. -/
theorem follows_onLeave (h : Lists left who w) (hc : c ∉ left) :
    Follows (c :: left) who (w.forgetting .rowwm c) (w.onLeave .rowwm env c) := by
  have hdeparting : Follows (c :: left) who (w.forgetting .rowwm c) (w.departing .rowwm c) := by
    rw [Wm.departing]
    refine .controlevent ?_
    rw [head_append (a := 'd') rfl]
    decide
  have hpacked : Placing (fun _ => True) c (w.departing .rowwm c)
      ((w.departing .rowwm c).packWindows env (w.departing .rowwm c).screen) :=
    .packWindows fun _ _ => trivial
  have hlists : Lists (c :: left) who ((w.departing .rowwm c).packWindows env
      (w.departing .rowwm c).screen) :=
    (h.departing hc).packWindows _
  rw [onLeave_eq]
  refine Follows.trans ?_ (.send rfl)
  refine Follows.trans (hdeparting.trans (.placing hpacked)) (.setfocus ?_)
  intro a ha
  have hlisted := hlists.mem_order (List.mem_of_find?_eq_some ha)
  exact ⟨hlisted.2.2, hlisted.2.1⟩

/-- A client leaves. -/
theorem focused_onLeave (h : Lists left who w) (hc : c ∉ left) (hw : Focused left who w said) :
    ∃ l, Tells w (w.onLeave .rowwm env c) l ∧
      Focused (c :: left) who (w.onLeave .rowwm env c) (said ++ l) := by
  obtain ⟨l, ⟨sent, hout, hl⟩, hfocused⟩ := follows_onLeave h hc said (focused_forgetting hw)
  exact ⟨l, ⟨sent, hout, hl⟩, hfocused⟩

end Wm

namespace Heard

open Wm

variable {env : Env} {h h' : Heard} {e : Event} {es : List Event} {screen : Rect}

/-- The screen shows clients that have joined, and everybody is informed. -/
structure Informed (h : Heard) : Prop where
  bound : ∀ c ∈ h.session.joined, c < h.session.wm.z.refs
  lists : Lists h.session.left (· ∈ h.session.joined) h.session.wm
  focused : Focused h.session.left (· ∈ h.session.joined) h.session.wm h.said

/-- More clients have joined. -/
theorem Informed.joining (hi : h.Informed) (c : Cid) :
    Lists h.session.left (· ∈ c :: h.session.joined) h.session.wm ∧
      Focused h.session.left (· ∈ c :: h.session.joined) h.session.wm h.said := by
  obtain ⟨l, hl, hall⟩ := hi.lists
  refine ⟨⟨l, hl, fun a ha => List.mem_cons_of_mem _ (hall a ha)⟩, ?_, hi.focused.agreed⟩
  intro a ha
  obtain ⟨hwho, hrest⟩ := hi.focused.holder a ha
  exact ⟨List.mem_cons_of_mem _ hwho, hrest⟩

theorem start_informed : (start screen).Informed where
  bound := fun _ hm => absurd hm List.not_mem_nil
  lists := ⟨[], Zorder.Standing.empty, fun _ hm => absurd hm List.not_mem_nil⟩
  focused := ⟨by rintro c ⟨⟩, fun _ _ => ⟨by rintro ⟨⟩, by rintro ⟨⟩⟩⟩

/-- What one turn says, to whom, and what is true after it. -/
theorem step_focused {s s' : Session} {said : List (Cid × Bool)}
    (hi : Informed ⟨s, said⟩) (hjoined : Joined ⟨s, said⟩ e) (hforwards : e.forwards = false)
    (hstep : s.step .rowwm env e = some s') :
    ∃ l, Tells s.wm s'.wm l ∧ Focused s'.left (· ∈ s'.joined) s'.wm (said ++ l) := by
  cases e with
  | opened id =>
    obtain rfl := Option.some.inj hstep
    refine ⟨[], ⟨[], (List.append_nil _).symm, rfl⟩, ?_⟩
    rw [List.append_nil]
    refine ⟨?_, hi.focused.agreed⟩
    intro c hc
    obtain ⟨hwho, hleft, hstarted⟩ := hi.focused.holder c hc
    have hold : (s.wm.addclient id).client c = s.wm.client c :=
      Function.update_of_ne (Nat.ne_of_lt (hi.bound c hwho)) _ _
    exact ⟨hwho, hleft, hold.symm ▸ hstarted⟩
  | join c =>
    simp only [Session.step] at hstep
    split_ifs at hstep
    obtain rfl := Option.some.inj hstep
    exact Follows.onJoin c said (hi.joining c).2
  | leave c =>
    simp only [Session.step] at hstep
    split_ifs at hstep with hc
    obtain rfl := Option.some.inj hstep
    exact focused_onLeave hi.lists hc.2 hi.focused
  | request c data ptr =>
    simp only [Session.step] at hstep
    split_ifs at hstep with hc
    obtain ⟨⟨w, a⟩, hreq, rfl⟩ := Option.map_eq_some_iff.mp hstep
    have hhead : (unquoted data).head? ≠ some "ctl" := by simpa [Event.forwards] using hforwards
    exact Follows.handled ⟨hjoined c rfl, hc.2⟩ hhead (handled hreq) said hi.focused
  | key k =>
    obtain rfl := Option.some.inj hstep
    exact Follows.onKey k said hi.focused
  | pointer p taken =>
    obtain rfl := Option.some.inj hstep
    exact Follows.onPointer hi.lists p taken said hi.focused
  | winctl e img =>
    obtain rfl := Option.some.inj hstep
    exact Follows.onWinctl e img said hi.focused

/-- A message that is passed on leaves the focus as it is. -/
theorem focused_of_forwards {s s' : Session} {said : List (Cid × Bool)}
    (hi : Informed ⟨s, said⟩) (hforwards : e.forwards = true)
    (hstep : s.step .rowwm env e = some s') : Focused s'.left (· ∈ s'.joined) s'.wm said := by
  cases e with
  | request c data ptr =>
    simp only [Session.step] at hstep
    split_ifs at hstep
    obtain ⟨⟨w, a⟩, hreq, rfl⟩ := Option.map_eq_some_iff.mp hstep
    obtain ⟨args, hdata⟩ : ∃ args, unquoted data = "ctl" :: args := by
      have hhead : (unquoted data).head? = some "ctl" := by simpa [Event.forwards] using hforwards
      exact List.head?_eq_some_iff.mp hhead
    have hcmd : ¬ ("ctl" = "!move" ∨ "ctl" = "!size") := by decide
    rw [handlerequest_cons hdata, if_neg hcmd] at hreq
    have hsame : w.kbdfocus = s.wm.kbdfocus ∧ w.client = s.wm.client := by
      split_ifs at hreq
      · obtain ⟨rfl, -⟩ := hreq
        exact ⟨rfl, rfl⟩
      · obtain rfl := congrArg Prod.fst (Option.some.inj hreq)
        change (s.wm.ctlRequest c args).1.kbdfocus = _ ∧ (s.wm.ctlRequest c args).1.client = _
        rw [ctlRequest.eq_def]
        split_ifs
        · exact ⟨rfl, rfl⟩
        · split
          · split <;> exact ⟨rfl, rfl⟩
          · exact ⟨rfl, rfl⟩
    refine ⟨?_, ?_⟩
    · intro a ha
      dsimp only at ha ⊢
      rw [hsame.1] at ha
      rw [hsame.2]
      exact hi.focused.holder a ha
    · intro a ha
      dsimp only
      rw [hsame.1]
      exact hi.focused.agreed a ha
  | opened | join | leave | key | pointer | winctl => cases hforwards

/-- One turn keeps everybody informed. -/
theorem step_informed (hi : h.Informed) (hjoined : h.Joined e) (hstep : h.step env e = some h') :
    h'.Informed := by
  obtain ⟨s, said⟩ := h
  obtain ⟨s', hturn, rfl⟩ := Option.map_eq_some_iff.mp hstep
  dsimp only at hturn
  have hold : ∀ c, c ∈ s.joined → c ∈ s'.joined := by
    rcases Session.step_joined hturn with hsame | ⟨c, -, -, hjoin⟩
    · exact fun c hc => hsame.symm ▸ hc
    · exact fun a ha => hjoin.symm ▸ List.mem_cons_of_mem c ha
  refine ⟨?_, ?_, ?_⟩
  · intro c hc
    rcases Session.step_joined hturn with hsame | ⟨a, -, hlive, hjoin⟩
    · exact Nat.lt_of_lt_of_le (hi.bound c (hsame ▸ hc)) (Session.step_refs hturn)
    · refine Nat.lt_of_lt_of_le ?_ (Session.step_refs hturn)
      rcases List.mem_cons.mp (hjoin ▸ hc) with rfl | hc
      · exact hlive.1
      · exact hi.bound c hc
  · refine Session.step_lists (hi.lists.mono hold) ?_ hturn
    rintro c data ptr rfl -
    exact hold c (hjoined c rfl)
  · cases hforwards : e.forwards with
    | true =>
      simp only [if_true, List.append_nil]
      exact focused_of_forwards hi hforwards hturn
    | false =>
      obtain ⟨l, htells, hfocused⟩ := step_focused hi hjoined hforwards hturn
      simp only [Bool.false_eq_true, if_false, htells.drop]
      exact hfocused

/-- In every run of `rowwm` in which clients join before they make requests, the keyboard is
with nobody or with a client that has joined, has not left and has started it; and of the
clients that have not left, this one was told last that it has the keyboard, and each other
one that it has not, or nothing. -/
theorem focus_agreed (h : Run (Guarded Joined (StepOf (step env))) (start screen) es h') :
    (∀ c, h'.session.wm.kbdfocus = some c →
      c ∈ h'.session.joined ∧ c ∉ h'.session.left ∧
        (h'.session.wm.client c).kbdstarted = true) ∧
    ∀ c, c ∉ h'.session.left →
      if h'.session.wm.kbdfocus = some c then lastsaid h'.said c = some true
      else lastsaid h'.said c = some false ∨ lastsaid h'.said c = none := by
  have hinformed : h'.Informed :=
    h.invariant start_informed fun _ _ _ hi ⟨hjoined, hstep⟩ => step_informed hi hjoined hstep
  refine ⟨hinformed.focused.holder, ?_⟩
  intro c hc
  have hiff := hinformed.focused.agreed c hc
  split_ifs with hkbd
  · exact hiff.mpr hkbd
  · cases hlast : lastsaid h'.said c with
    | none => exact Or.inr rfl
    | some b =>
      cases b with
      | false => exact Or.inl rfl
      | true => exact absurd (hiff.mp hlast) hkbd

/-- Two clients start the keyboard, and the second one leaves with it. -/
theorem focus_agreed_leave :
    ∃ h, Run (Guarded Joined (StepOf (step default))) (start ⟨⟨0, 0⟩, ⟨196, 400⟩⟩)
        [.opened 0, .join 0, .request 0 "!reshape . -1 0 0 196 20" [], .request 0 "start kbd" [],
          .opened 1, .join 1, .request 1 "start kbd" [], .leave 1] h ∧
      h.said = [(0, true), (0, false), (1, true), (0, true)] ∧
      h.session.wm.kbdfocus = some 0 ∧ lastsaid h.said 0 = some true := by
  obtain ⟨h, hrun, hsaid, hkbd, hleft⟩ :
      ∃ h, Run (Guarded Joined (StepOf (step default))) (start ⟨⟨0, 0⟩, ⟨196, 400⟩⟩)
          [.opened 0, .join 0, .request 0 "!reshape . -1 0 0 196 20" [],
            .request 0 "start kbd" [], .opened 1, .join 1, .request 1 "start kbd" [], .leave 1]
          h ∧
        h.said = [(0, true), (0, false), (1, true), (0, true)] ∧
        h.session.wm.kbdfocus = some 0 ∧ 0 ∉ h.session.left :=
    Run.exists_of_execGuarded (by decide +kernel)
  have hlast := (focus_agreed hrun).2 0 hleft
  rw [if_pos hkbd] at hlast
  exact ⟨h, hrun, hsaid, hkbd, hlast⟩

end Heard

end Aimsgui
