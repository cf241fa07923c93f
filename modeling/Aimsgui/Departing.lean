import Aimsgui.Focus

/-!
# The keyboard focus after a departure

When a client leaves, a manager elects the client that gets the keyboard: the first one in
the z-order that has started it. It does so whoever has left. So the focus stays where it is
just if it was with that client; if not, it moves although it was another client that left
(`focus_after_departure`).
-/

namespace Aimsgui

open Transition

namespace Wm

variable {m : Manager} {env : Env} {w : Wm} {c : Cid}

theorem elect_congr {w' : Wm} (hz : w'.z = w.z) (hclient : w'.client = w.client) :
    w'.elect = w.elect := by
  rw [elect, elect, Wm.order, Wm.order, hz, hclient]

/-- Up to the election nobody gets the keyboard, and nothing is said about it. -/
theorem departed_quiet (m : Manager) (env : Env) (w : Wm) (c : Cid) :
    (w.departed m env c).kbdfocus = forget c w.kbdfocus ∧ Tells w (w.departed m env c) [] := by
  have hdeparting : (w.departing m c).kbdfocus = forget c w.kbdfocus ∧
      Tells w (w.departing m c) [] := by
    rw [Wm.departing, controlevent_logged]
    refine ⟨rfl, _, rfl, ?_⟩
    rw [event.eq_def]
    have hevent : ∀ ctlr,
        haskbdfocus (.ctl ctlr ("delclient " ++ toString (w.client c).id)) = none := by
      intro ctlr
      apply haskbdfocus_of_head
      rw [head_append (a := 'd') rfl]
      decide
    split
    · split_ifs
      · rw [List.filterMap_cons_none (hevent _)]
        rfl
      · rfl
    · rfl
  cases m with
  | tabswin | topwin => exact hdeparting
  | rowwm =>
    have hpacked : Placing (fun _ => True) c (w.departing .rowwm c)
        (w.departed .rowwm env c) := .packWindows fun _ _ => trivial
    obtain ⟨sent, hout, hsent⟩ := hpacked.sent
    refine ⟨hpacked.kbdfocus.trans hdeparting.1, ?_⟩
    have hquiet : Tells (w.departing .rowwm c) (w.departed .rowwm env c) [] :=
      ⟨sent, hout, List.filterMap_eq_nil_iff.mpr fun x hx => haskbdfocus_places (hsent x hx)⟩
    exact hdeparting.2.trans hquiet

/-- Whoever is elected can have the keyboard. -/
theorem elect_focusable (w : Wm) : w.Focusable w.elect := by
  intro a ha
  have hstarted := List.find?_some ha
  exact hstarted

/-- The elected client gets the keyboard, and somebody is told just if it is another one than
before. -/
theorem setfocus_elect (m : Manager) (w : Wm) :
    (w.setfocus m w.elect).kbdfocus = w.elect ∧
      ∃ l, Tells w (w.setfocus m w.elect) l ∧ (l = [] ↔ w.kbdfocus = w.elect) := by
  have hown : ∀ {l : List Send}, Own l → l.filterMap haskbdfocus = [] := by
    intro l hl
    rw [List.filterMap_eq_nil_iff]
    intro x hx
    obtain ⟨s, rfl⟩ := hl x hx
    rfl
  obtain ⟨l, hl, ⟨heq, hsame | hnot⟩ | ⟨hne, -, heq⟩⟩ := setfocus_logged m w w.elect
  · rw [heq]
    exact ⟨hsame, [], ⟨l, rfl, hown hl⟩, iff_of_true rfl hsame⟩
  · exact absurd w.elect_focusable hnot
  · rw [heq]
    refine ⟨rfl, _, ⟨l ++ w.notices m w.elect, rfl, rfl⟩, ?_⟩
    refine iff_of_false ?_ hne
    rw [List.filterMap_append, hown hl, Follows.filterMap_notices]
    -- two different foci are not both nil
    intro hnil
    cases hold : w.kbdfocus with
    | some old => simp [hold] at hnil
    | none =>
      cases hnew : w.elect with
      | some new => simp [hnew] at hnil
      | none => exact hne (hold.trans hnew.symm)

/-- A departure as far as the keyboard goes. -/
theorem onLeave_elects (m : Manager) (env : Env) (w : Wm) (c : Cid) :
    (w.onLeave m env c).kbdfocus = (w.onLeave m env c).elect ∧
      ∃ l, Tells w (w.onLeave m env c) l ∧
        (l = [] ↔ forget c w.kbdfocus = (w.onLeave m env c).elect) := by
  obtain ⟨hkbd, hquiet⟩ := departed_quiet m env w c
  obtain ⟨hnew, l, htells, hl⟩ := setfocus_elect m (w.departed m env c)
  obtain ⟨hclient, hz, -⟩ := setfocus_frame m (w.departed m env c) (w.departed m env c).elect
  have helect : (w.onLeave m env c).elect = (w.departed m env c).elect := by
    rw [onLeave_eq]
    exact elect_congr hz hclient
  have hstop : Tells ((w.departed m env c).setfocus m (w.departed m env c).elect)
      (w.onLeave m env c) [] := by
    rw [onLeave_eq]
    exact ⟨[.stop c], rfl, rfl⟩
  refine ⟨?_, l, ?_, ?_⟩
  · rw [helect, ← hnew, onLeave_eq]
    rfl
  · have hall := (hquiet.trans htells).trans hstop
    rwa [List.nil_append, List.append_nil] at hall
  · rw [hl, hkbd, helect]

end Wm

namespace Session

open Wm

variable {m : Manager} {env : Env} {s s' : Session} {c : Cid}

/-- When a client leaves that does not have the keyboard, the first client in the z-order that
has started the keyboard has it afterwards, or nobody if there is none; and nothing is said
about the keyboard just if that is the client that had it before. -/
theorem focus_after_departure (hstep : s.step m env (.leave c) = some s')
    (hc : s.wm.kbdfocus ≠ some c) :
    s'.wm.kbdfocus = s'.wm.elect ∧
      ((s'.wm.out.drop s.wm.out.length).filterMap haskbdfocus = [] ↔
        s.wm.kbdfocus = s'.wm.elect) := by
  simp only [step] at hstep
  split_ifs at hstep
  obtain rfl := Option.some.inj hstep
  obtain ⟨hkbd, l, htells, hl⟩ := onLeave_elects m env s.wm c
  have hforget : forget c s.wm.kbdfocus = s.wm.kbdfocus := if_neg hc
  rw [hforget] at hl
  refine ⟨hkbd, ?_⟩
  rw [htells.drop]
  exact hl

/-- A client shows a row and starts the keyboard. -/
def showTyping (c : Cid) : List Event := showRow c ++ [.request c "start kbd" []]

/-- The first of two rows leaves while the second one has the keyboard. -/
theorem focus_after_departure_two :
    ∃ s s', Run (StepOf (step .rowwm default)) (start ⟨⟨0, 0⟩, ⟨196, 400⟩⟩)
        (showTyping 0 ++ showTyping 1) s ∧
      s.wm.kbdfocus = some 1 ∧ s.step .rowwm default (.leave 0) = some s' ∧
      s'.wm.kbdfocus = s'.wm.elect := by
  obtain ⟨s, hrun, hkbd, hstep⟩ : ∃ s,
      Run (StepOf (step .rowwm default)) (start ⟨⟨0, 0⟩, ⟨196, 400⟩⟩)
        (showTyping 0 ++ showTyping 1) s ∧
      s.wm.kbdfocus = some 1 ∧ (s.step .rowwm default (.leave 0)).isSome :=
    Run.exists_of_exec (by decide +kernel)
  obtain ⟨s', hs'⟩ := Option.isSome_iff_exists.mp hstep
  refine ⟨s, s', hrun, hkbd, hs', (focus_after_departure hs' ?_).1⟩
  rw [hkbd]
  decide

/-- The second of two rows has the keyboard when a third client leaves; it loses it to the
first one. -/
theorem departure_steals_focus :
    ∃ s, Run (StepOf (step .rowwm default)) (start ⟨⟨0, 0⟩, ⟨196, 400⟩⟩)
        (showTyping 0 ++ showTyping 1 ++ [.opened 2, .join 2]) s ∧
      s.wm.kbdfocus = some 1 ∧
      (s.step .rowwm default (.leave 2)).any fun s' =>
        decide (s'.wm.kbdfocus = some 0 ∧
          (s'.wm.out.drop s.wm.out.length).filterMap haskbdfocus = [(1, false), (0, true)]) :=
  Run.exists_of_exec (by decide +kernel)

end Session

end Aimsgui
