import Aimsgui.Notices
import Aimsgui.BottomPointer

/-!
# The controller

One client at a time controls the manager. Who it is is written down in four places:
`controller`, `allowcontrol`, and two flags of every client. `Governed` says how they belong
together. When the controller leaves, `allowcontrol` stays as it is, and nobody becomes the
controller after it. All other turns keep `Governed`, in any order (`controller_slot`).
-/

namespace Aimsgui

open Transition

namespace Wm

/-- Nothing has been said about who controls the manager. -/
structure Reign (w w' : Wm) : Prop where
  refs : w'.z.refs = w.z.refs
  controller : w'.controller = w.controller
  allowcontrol : w'.allowcontrol = w.allowcontrol
  flagged : ∀ c, (w'.client c).controller = (w.client c).controller
  started : ∀ c, (w'.client c).controlstarted = (w.client c).controlstarted

variable {m : Manager} {env : Env} {w w' w'' : Wm} {c : Cid} {l : List Send}

namespace Reign

theorem rfl' : Reign w w := ⟨rfl, rfl, rfl, fun _ => rfl, fun _ => rfl⟩

theorem trans (h : Reign w w') (h' : Reign w' w'') : Reign w w'' :=
  ⟨h'.refs.trans h.refs, h'.controller.trans h.controller, h'.allowcontrol.trans h.allowcontrol,
    fun c => (h'.flagged c).trans (h.flagged c), fun c => (h'.started c).trans (h.started c)⟩

theorem of_placing {who : Cid → Prop} (h : Placing who c w w') : Reign w w' :=
  ⟨h.refs, h.controller, h.allowcontrol, fun a => (h.client a).controller,
    fun a => (h.client a).controlstarted⟩

theorem logged (l : List Send) : Reign w (w.logged l) :=
  ⟨rfl, rfl, rfl, fun _ => rfl, fun _ => rfl⟩

theorem put {f : Client → Client} (hflag : ∀ cl, (f cl).controller = cl.controller)
    (hstarted : ∀ cl, (f cl).controlstarted = cl.controlstarted) : Reign w (w.put c f) := by
  refine ⟨rfl, rfl, rfl, ?_, ?_⟩
  all_goals
    intro a
    by_cases ha : a = c
    · subst ha
      rw [put_self]
      first | exact hflag _ | exact hstarted _
    · rw [put_of_ne ha]

theorem setfocus (new : Option Cid) : Reign w (w.setfocus m new) := by
  obtain ⟨hclient, hz, -, hctlr, hallow⟩ := setfocus_frame m w new
  refine ⟨congrArg Zorder.refs hz, hctlr, hallow, ?_, ?_⟩
  · intro a
    rw [hclient]
  · intro a
    rw [hclient]

theorem controlevent (e : String) : Reign w (w.controlevent e) := by
  rw [controlevent_logged]
  exact logged _

end Reign

/-- A request changes who controls the manager only if it starts control or ends it. -/
theorem handled_reign {req : String} {ptr : List Pointer} (h : Handled m env w c req ptr w') :
    Reign w w' ∨
      (w.client c).controller = true ∧ w' = w.put c (fun cl => { cl with controlstarted := true }) ∨
      ∃ args, unquoted req = "endcontrol" :: args ∧ w' = (w.endcontrolRequest c).1 := by
  have hmarks : ∀ {f : Client → Client}, Marks f → Reign w (w.put c f) :=
    fun hf => .put hf.controller hf.controlstarted
  cases h with
  | control hflag hreq => exact Or.inr (Or.inl ⟨hflag, rfl⟩)
  | endcontrol args hreq => exact Or.inr (Or.inr ⟨args, hreq, rfl⟩)
  | reshape w₁ tag r hcall =>
    have hplaced : Placing (fun _ => True) c w₁ (Wm.reshape m env w₁ c tag r).1 :=
      .reshape fun _ _ _ => trivial
    have hcalled : Placing (fun _ => True) c w w₁ := .reshapeCall hcall
    exact Or.inl (.of_placing (hcalled.trans hplaced))
  | dragged win off w₁ e hdrag =>
    have hplaced : Placing (fun _ => True) c w w' := .drag hdrag
    exact Or.inl (.of_placing hplaced)
  | top =>
    have hplaced : Placing (fun _ => True) c w (w.top m c) := .top c
    exact Or.inl (.of_placing hplaced)
  | bottom =>
    have hplaced : Placing (fun _ => True) c w (w.bottom m c) := .bottom c
    exact Or.inl (.of_placing hplaced)
  | delete tag args =>
    have hdrop : Reign w (w.put c (·.dropwin tag)) :=
      .put (fun _ => (Client.Same.dropwin tag).controller)
        (fun _ => (Client.Same.dropwin tag).controlstarted)
    refine Or.inl ?_
    rw [deleteRequest]
    split_ifs
    · exact hdrop.trans (.setfocus none)
    · exact hdrop
  | kbd =>
    have hput : Reign w (w.put c fun cl => { cl with kbdstarted := true }) :=
      .put (fun _ => rfl) (fun _ => rfl)
    exact Or.inl (hput.trans (.setfocus _))
  | focus => exact Or.inl (.setfocus _)
  | unfocus => exact Or.inl (.setfocus _)
  | cursor f hf => exact Or.inl ((hmarks hf).trans ⟨rfl, rfl, rfl, fun _ => rfl, fun _ => rfl⟩)
  | marked f hf => exact Or.inl (hmarks hf)
  | answered | key | wmctl | pointer | message | forward =>
    exact Or.inl ⟨rfl, rfl, rfl, fun _ => rfl, fun _ => rfl⟩

theorem reign_onKey (w : Wm) (k : Int) : Reign w (w.onKey k) := by
  rw [onKey]
  split
  · exact .logged [.kbd _ k]
  · exact .rfl'

/-- A pointer event moves the focus at most. -/
theorem reign_onPointer (w : Wm) (p : Pointer) (taken : Bool) :
    Reign w (w.onPointer m p taken) := by
  have hat : ∀ c, Reign w (w.pointAt m c p) := by
    intro c
    simp only [pointAt]
    split_ifs
    · split
      · split_ifs <;> exact ⟨rfl, rfl, rfl, fun _ => rfl, fun _ => rfl⟩
      · exact ⟨rfl, rfl, rfl, fun _ => rfl, fun _ => rfl⟩
    · exact .rfl'
    · exact Reign.trans (.logged [.ctl c "raise"]) (.setfocus _)
    · exact .setfocus _
  rw [onPointer_eq]
  split_ifs
  · exact .rfl'
  · have haimed : Reign w (w.aimed m p) := by
      rw [aimed]
      split
      · exact hat _
      · exact .rfl'
    refine haimed.trans ?_
    rw [deliver]
    split
    · split_ifs <;> exact ⟨rfl, rfl, rfl, fun _ => rfl, fun _ => rfl⟩
    · exact ⟨rfl, rfl, rfl, fun _ => rfl, fun _ => rfl⟩

/-- A control message is passed on, and a new image of the window makes windows move. -/
theorem reign_onWinctl (w : Wm) (e : String) (img : Option Rect) :
    Reign w (w.onWinctl m env e img) := by
  have hall : ∀ (cs : List Cid) (w : Wm), Reign w (ctlAll "exit" cs w) := by
    intro cs
    induction cs with
    | nil => exact fun _ => .rfl'
    | cons c cs ih => exact fun w => Reign.trans (.logged [.ctl c "exit"]) (ih _)
  have htold : Reign w (w.told e) := by
    rw [told]
    split_ifs
    · exact (hall _ _).trans (.logged [.wmctl e])
    · exact .logged [.wmctl e]
  cases img with
  | some newr =>
    have hscreen : Placing (fun _ => True) 0 (w.told e) ((w.told e).rescreened m env newr) :=
      .rescreened fun _ _ => trivial
    have hplaced : Placing (fun _ => True) 0 (w.told e) ((w.told e).reshaped m env newr) := by
      cases m with
      | rowwm => exact hscreen.trans (.packWindows fun _ _ => trivial)
      | tabswin | topwin => exact hscreen
    exact htold.trans (.of_placing hplaced)
  | none => exact htold

theorem addclient_self (w : Wm) (id : Nat) : (w.addclient id).client w.z.refs = { id := id } :=
  Function.update_self ..

theorem addclient_of_ne {a : Cid} (ha : a ≠ w.z.refs) (id : Nat) :
    (w.addclient id).client a = w.client a :=
  Function.update_of_ne ha _ _

/-- A departure, apart from forgetting the client. -/
theorem reign_onLeave (w : Wm) (c : Cid) (hc : w.controller ≠ some c) :
    Reign w (w.onLeave m env c) := by
  have hforget : forget c w.controller = w.controller := if_neg hc
  have hremove : Placing (fun _ => True) c w (w.remove m c) := .remove c
  have hdeparting : Reign w (w.departing m c) := by
    simp only [departing]
    refine Reign.trans (Reign.of_placing hremove) (Reign.trans ?_ (.controlevent _))
    exact ⟨rfl, hforget, rfl, fun _ => rfl, fun _ => rfl⟩
  rw [onLeave_eq]
  refine Reign.trans (Reign.trans ?_ (.setfocus _)) (.logged [.stop c])
  cases m with
  | rowwm =>
    have hpack : Placing (fun _ => True) c (w.departing .rowwm c)
        ((w.departing .rowwm c).packWindows env (w.departing .rowwm c).screen) :=
      .packWindows fun _ _ => trivial
    exact hdeparting.trans (.of_placing hpack)
  | tabswin | topwin => exact hdeparting

end Wm

namespace Session

open Wm

variable {m : Manager} {env : Env} {s s' t t' : Session} {e : Event} {es es' : List Event}
  {c : Cid} {w : Wm} {screen : Rect}

/-- One live client at most carries the flag `Controller`, and it is `controller`;
`Controlstarted` comes with `Controller`; and the next client to join may become the
controller exactly if there is none. -/
structure Governed (s : Session) : Prop where
  flagged : ∀ c, s.Live c → (s.wm.client c).controller = true → s.wm.controller = some c
  started : ∀ c, s.Live c → (s.wm.client c).controlstarted = true →
    (s.wm.client c).controller = true
  present : ∀ c, s.wm.controller = some c → s.Live c ∧ (s.wm.client c).controller = true
  allowed : s.wm.allowcontrol = true ↔ s.wm.controller = none

theorem start_governed : (start screen).Governed where
  flagged := fun _ h => absurd h.1 (Nat.not_lt_zero _)
  started := fun _ h => absurd h.1 (Nat.not_lt_zero _)
  present := by rintro _ ⟨⟩
  allowed := ⟨fun _ => rfl, fun _ => rfl⟩

/-- What says nothing about the controller keeps `Governed`, whoever else has left. -/
theorem Governed.reign (h : s.Governed) (hr : Reign s.wm s'.wm) (hleft : s.left ⊆ s'.left)
    (hpresent : ∀ c, s.wm.controller = some c → c ∉ s'.left) : s'.Governed := by
  have hlive : ∀ c, s'.Live c → s.Live c := by
    rintro c ⟨hc, hnot⟩
    exact ⟨hr.refs ▸ hc, fun hm => hnot (hleft hm)⟩
  refine ⟨?_, ?_, ?_, ?_⟩
  · intro c hc hflag
    rw [hr.controller]
    exact h.flagged c (hlive c hc) (hr.flagged c ▸ hflag)
  · intro c hc hstarted
    rw [hr.flagged]
    exact h.started c (hlive c hc) (hr.started c ▸ hstarted)
  · intro c hc
    rw [hr.controller] at hc
    obtain ⟨⟨hbound, -⟩, hflag⟩ := h.present c hc
    exact ⟨⟨hr.refs.symm ▸ hbound, hpresent c hc⟩, (hr.flagged c).trans hflag⟩
  · rw [hr.allowcontrol, hr.controller]
    exact h.allowed

theorem governed_opened (h : s.Governed) (id : Nat) :
    Governed { s with wm := s.wm.addclient id } := by
  have hold : ∀ {c}, c < s.wm.z.refs → (s.wm.addclient id).client c = s.wm.client c :=
    fun hc => addclient_of_ne (Nat.ne_of_lt hc) id
  have hnew := s.wm.addclient_self id
  have hcases : ∀ {c}, Session.Live { s with wm := s.wm.addclient id } c →
      s.Live c ∨ c = s.wm.z.refs := by
    rintro c ⟨hc, hleft⟩
    rcases Nat.lt_succ_iff_lt_or_eq.mp hc with hc | hc
    · exact Or.inl ⟨hc, hleft⟩
    · exact Or.inr hc
  refine ⟨?_, ?_, ?_, h.allowed⟩
  · intro c hc hflag
    rcases hcases hc with hc | rfl
    · rw [hold hc.1] at hflag
      exact h.flagged c hc hflag
    · rw [hnew] at hflag
      cases hflag
  · intro c hc hstarted
    rcases hcases hc with hc | rfl
    · rw [hold hc.1] at hstarted ⊢
      exact h.started c hc hstarted
    · rw [hnew] at hstarted
      cases hstarted
  · intro c hc
    obtain ⟨hlive, hflag⟩ := h.present c hc
    exact ⟨⟨Nat.lt_succ_of_lt hlive.1, hlive.2⟩, (hold hlive.1).symm ▸ hflag⟩

/-- A client that joins when nobody is in control becomes the controller, and no other
client is marked. -/
theorem onJoin_controller (w : Wm) (c : Cid) (hallow : w.allowcontrol = true) :
    (w.onJoin c).controller = some c ∧ (w.onJoin c).allowcontrol = false ∧
      (w.onJoin c).z = w.z ∧ ((w.onJoin c).client c).controller = true ∧
      ∀ a, a ≠ c → (w.onJoin c).client a = w.client a := by
  simp only [onJoin]
  split_ifs with h
  · refine ⟨rfl, rfl, rfl, by rw [put_self, put_self], ?_⟩
    intro a ha
    rw [put_of_ne ha, put_of_ne ha, ctl_client]
  · exact absurd hallow h

/-- A client that joins when somebody is in control changes nothing about it. -/
theorem onJoin_reign (w : Wm) (c : Cid) (hallow : w.allowcontrol = false) :
    Reign w (w.onJoin c) := by
  simp only [onJoin]
  split_ifs with h
  · cases hallow.symm.trans h
  · refine Reign.trans ?_ (.put (fun _ => rfl) (fun _ => rfl))
    exact Reign.trans (.logged [.ctl c ("rect " ++ r2s w.screen)]) (.controlevent _)

/-- A client joins: it becomes the controller exactly if there was none. -/
theorem governed_onJoin (h : s.Governed) (hc : s.Live c) (joined : List Cid) :
    Governed { s with wm := s.wm.onJoin c, joined := joined } := by
  cases hallow : s.wm.allowcontrol with
  | true =>
    obtain ⟨hctlr, hallow', hz, hflag, hothers⟩ := onJoin_controller s.wm c hallow
    have hnone := h.allowed.mp hallow
    have hunflagged : ∀ a, s.Live a → (s.wm.client a).controller ≠ true := by
      intro a ha hflag'
      cases hnone.symm.trans (h.flagged a ha hflag')
    have hlive : ∀ {a}, Session.Live { s with wm := s.wm.onJoin c, joined := joined } a →
        s.Live a := fun ha => ⟨hz ▸ ha.1, ha.2⟩
    refine ⟨?_, ?_, ?_, ?_⟩
    · intro a ha hflag'
      by_cases hac : a = c
      · exact hac ▸ hctlr
      · dsimp only at hflag'
        rw [hothers a hac] at hflag'
        exact absurd hflag' (hunflagged a (hlive ha))
    · intro a ha hstarted
      dsimp only at hstarted ⊢
      by_cases hac : a = c
      · exact hac ▸ hflag
      · rw [hothers a hac] at hstarted ⊢
        exact h.started a (hlive ha) hstarted
    · intro a ha
      obtain rfl : c = a := Option.some.inj (hctlr.symm.trans ha)
      exact ⟨⟨hz.symm ▸ hc.1, hc.2⟩, hflag⟩
    · dsimp only
      rw [hctlr, hallow']
      simp
  | false =>
    refine h.reign (onJoin_reign s.wm c hallow) (List.Subset.refl _) ?_
    intro a ha
    exact (h.present a ha).1.2

/-- The controller starts control. -/
theorem governed_started (h : s.Governed) (hflag : (s.wm.client c).controller = true) :
    Governed { s with wm := s.wm.put c fun cl => { cl with controlstarted := true } } := by
  have hsame : ∀ a, ((s.wm.put c fun cl => { cl with controlstarted := true }).client a).controller =
      (s.wm.client a).controller := by
    intro a
    by_cases hac : a = c
    · subst hac
      rw [put_self]
    · rw [put_of_ne hac]
  refine ⟨?_, ?_, ?_, h.allowed⟩
  · intro a ha hflag'
    exact h.flagged a ha ((hsame a).symm.trans hflag')
  · intro a ha hstarted
    dsimp only at hstarted ⊢
    rw [hsame]
    by_cases hac : a = c
    · exact hac ▸ hflag
    · rw [put_of_ne hac] at hstarted
      exact h.started a ha hstarted
  · intro a ha
    exact ⟨(h.present a ha).1, (hsame a).trans (h.present a ha).2⟩

/-- The controller ends control: the next client to join may have it. -/
theorem governed_endcontrol (h : s.Governed) (c : Cid) :
    Governed { s with wm := (s.wm.endcontrolRequest c).1 } := by
  rw [endcontrolRequest]
  split_ifs with hne
  · exact h
  · have hctlr : s.wm.controller = some c := not_not.mp hne
    have hunflagged : ∀ a, s.Live a → ((s.wm.put c fun cl =>
        { cl with controlstarted := false, controller := false }).client a).controller = false := by
      intro a ha
      by_cases hac : a = c
      · subst hac
        rw [put_self]
      · rw [put_of_ne hac, Bool.eq_false_iff]
        intro hflag
        exact hac (Option.some.inj ((h.flagged a ha hflag).symm.trans hctlr))
    refine ⟨?_, ?_, ?_, ?_⟩
    · intro a ha hflag
      cases (hunflagged a ha).symm.trans hflag
    · intro a ha hstarted
      dsimp only at hstarted
      by_cases hac : a = c
      · subst hac
        rw [put_self] at hstarted
        cases hstarted
      · rw [put_of_ne hac] at hstarted
        have hflag := h.started a ha hstarted
        exact absurd (Option.some.inj ((h.flagged a ha hflag).symm.trans hctlr)) hac
    · rintro a ⟨⟩
    · exact ⟨fun _ => rfl, fun _ => rfl⟩

/-- The client that leaves, if one does, is not the controller. -/
def Retains (s : Session) (e : Event) : Prop := ∀ c ∈ e.departs, s.wm.controller ≠ some c

instance (s : Session) (e : Event) : Decidable (s.Retains e) :=
  inferInstanceAs (Decidable (∀ c ∈ e.departs, s.wm.controller ≠ some c))

/-- Any turn keeps `Governed`, unless it lets the controller leave. -/
theorem step_governed (h : s.Governed) (hsafe : Retains s e)
    (hstep : s.step m env e = some s') : s'.Governed := by
  have hpresent : ∀ c, s.wm.controller = some c → c ∉ s.left := fun c hc => (h.present c hc).1.2
  cases e with
  | opened id =>
    obtain rfl := Option.some.inj hstep
    exact governed_opened h id
  | join c =>
    simp only [step] at hstep
    split_ifs at hstep with hc
    obtain rfl := Option.some.inj hstep
    exact governed_onJoin h hc.1 _
  | leave c =>
    simp only [step] at hstep
    split_ifs at hstep with hc
    obtain rfl := Option.some.inj hstep
    refine h.reign (reign_onLeave s.wm c (hsafe c rfl)) (List.subset_cons_self c s.left) ?_
    intro a ha hm
    rcases List.mem_cons.mp hm with rfl | hm
    · exact hsafe a rfl ha
    · exact hpresent a ha hm
  | request c data ptr =>
    simp only [step] at hstep
    split_ifs at hstep with hc
    obtain ⟨⟨w, a⟩, hreq, rfl⟩ := Option.map_eq_some_iff.mp hstep
    rcases handled_reign (handled hreq) with hr | ⟨hflag, rfl⟩ | ⟨args, -, rfl⟩
    · exact h.reign hr (List.Subset.refl _) hpresent
    · exact governed_started h hflag
    · exact governed_endcontrol h c
  | key k =>
    obtain rfl := Option.some.inj hstep
    exact h.reign (reign_onKey s.wm k) (List.Subset.refl _) hpresent
  | pointer p taken =>
    obtain rfl := Option.some.inj hstep
    exact h.reign (reign_onPointer s.wm p taken) (List.Subset.refl _) hpresent
  | winctl e img =>
    obtain rfl := Option.some.inj hstep
    exact h.reign (reign_onWinctl s.wm e img) (List.Subset.refl _) hpresent

/-- Nobody becomes the controller except by joining. -/
theorem controller_none (hnone : s.wm.controller = none)
    (hstep : s.step m env e = some s') (hjoin : ∀ c, e ≠ .join c) : s'.wm.controller = none := by
  cases e with
  | opened id =>
    obtain rfl := Option.some.inj hstep
    exact hnone
  | join c => exact absurd rfl (hjoin c)
  | leave c =>
    simp only [step] at hstep
    split_ifs at hstep
    obtain rfl := Option.some.inj hstep
    have hne : s.wm.controller ≠ some c := by
      rw [hnone]
      rintro ⟨⟩
    exact (reign_onLeave s.wm c hne).controller.trans hnone
  | request c data ptr =>
    simp only [step] at hstep
    split_ifs at hstep with hc
    obtain ⟨⟨w, a⟩, hreq, rfl⟩ := Option.map_eq_some_iff.mp hstep
    rcases handled_reign (handled hreq) with hr | ⟨-, rfl⟩ | ⟨args, -, rfl⟩
    · exact hr.controller.trans hnone
    · exact hnone
    · rw [endcontrolRequest, hnone]
      simp [hnone]
  | key k =>
    obtain rfl := Option.some.inj hstep
    exact (reign_onKey s.wm k).controller.trans hnone
  | pointer p taken =>
    obtain rfl := Option.some.inj hstep
    exact (reign_onPointer s.wm p taken).controller.trans hnone
  | winctl e img =>
    obtain rfl := Option.some.inj hstep
    exact (reign_onWinctl s.wm e img).controller.trans hnone

/-- A controller that ends control is not the controller any more. -/
theorem endcontrol_controller {data : String} {args : List String} {ptr : List Pointer}
    (hdata : unquoted data = "endcontrol" :: args) (hctlr : s.wm.controller = some c)
    (hstep : s.step m env (.request c data ptr) = some s') : s'.wm.controller = none := by
  simp only [step] at hstep
  split_ifs at hstep
  obtain ⟨⟨w, a⟩, hreq, rfl⟩ := Option.map_eq_some_iff.mp hstep
  have hcmd : ¬ ("endcontrol" = "!move" ∨ "endcontrol" = "!size") := by decide
  rw [handlerequest_cons hdata, if_neg hcmd] at hreq
  split_ifs at hreq with hbang
  · -- no word of the request begins with an exclamation mark
    obtain ⟨hhead, -⟩ := hbang
    obtain ⟨tl, htl⟩ := List.head?_eq_some_iff.mp hhead
    obtain ⟨cmd, args', hwords, hcmd⟩ := unquoted_first (by decide) (by decide)
      (show ['!'] <+: data.toList from ⟨tl, htl.symm⟩)
    rw [hdata] at hwords
    rw [← (List.cons.inj hwords).1] at hcmd
    exact absurd hcmd (by decide)
  · obtain rfl := congrArg Prod.fst (Option.some.inj hreq)
    dsimp only
    rw [show (s.wm.plainRequest m env c data "endcontrol" args).1 =
      (s.wm.endcontrolRequest c).1 from rfl, endcontrolRequest, if_neg (not_not.mpr hctlr)]

/-- In every run of `rowwm` in which the controller does not leave: the flags, `controller`
and `allowcontrol` agree, a controller that ends control is none any more, and when there is
none, the next client to join becomes the controller. -/
theorem controller_slot
    (h : Run (Guarded Retains (StepOf (step .rowwm env))) (start screen) es s) :
    s.Governed ∧
      (∀ c data args ptr s', s.wm.controller = some c → unquoted data = "endcontrol" :: args →
        s.step .rowwm env (.request c data ptr) = some s' → s'.wm.controller = none) ∧
      (s.wm.controller = none → ∀ es' t, Run (StepOf (step .rowwm env)) s es' t →
        (∀ e ∈ es', ∀ c, e ≠ .join c) → ∀ c t', t.step .rowwm env (.join c) = some t' →
          t'.wm.controller = some c ∧ (t'.wm.client c).controller = true) := by
  have hgoverned : s.Governed :=
    h.invariant start_governed fun _ _ _ hs ⟨hsafe, hstep⟩ => step_governed hs hsafe hstep
  refine ⟨hgoverned, ?_, ?_⟩
  · intro c data args ptr s' hctlr hdata hstep
    exact endcontrol_controller hdata hctlr hstep
  · intro hnone es' t hrun hjoins c t' hjoin
    have hvacant : t.Governed ∧ t.wm.controller = none := by
      refine hrun.traced (J := fun es t => (∀ e ∈ es, ∀ c, e ≠ Event.join c) →
        t.Governed ∧ t.wm.controller = none) (fun _ => ⟨hgoverned, hnone⟩) ?_ hjoins
      intro es₁ u e u' ih hstep hjoins₁
      obtain ⟨hu, hunone⟩ := ih fun e he => hjoins₁ e (List.mem_append_left _ he)
      have hnojoin := hjoins₁ e (List.mem_append_right _ (List.mem_singleton_self e))
      refine ⟨step_governed hu ?_ hstep, controller_none hunone hstep hnojoin⟩
      intro a _
      rw [hunone]
      rintro ⟨⟩
    simp only [step] at hjoin
    split_ifs at hjoin
    obtain rfl := Option.some.inj hjoin
    have hallow := hvacant.1.allowed.mpr hvacant.2
    exact ⟨(onJoin_controller t.wm c hallow).1, (onJoin_controller t.wm c hallow).2.2.2.1⟩

/-- The first client controls the manager and gives control up; then nobody does, until the
third client joins. -/
theorem controller_slot_endcontrol :
    ∃ s, Run (Guarded Retains (StepOf (step .rowwm default))) (start ⟨⟨0, 0⟩, ⟨196, 400⟩⟩)
        [.opened 0, .join 0, .request 0 "start control" [], .opened 1, .join 1, .opened 2] s ∧
      s.wm.controller = some 0 ∧ (s.wm.client 0).controlstarted = true ∧ s.Governed ∧
      ∃ t, s.step .rowwm default (.request 0 "endcontrol" []) = some t ∧
        t.wm.controller = none := by
  obtain ⟨s, hrun, hctlr, hstarted, hlive, hreq⟩ :
      ∃ s, Run (Guarded Retains (StepOf (step .rowwm default))) (start ⟨⟨0, 0⟩, ⟨196, 400⟩⟩)
          [.opened 0, .join 0, .request 0 "start control" [], .opened 1, .join 1, .opened 2] s ∧
        s.wm.controller = some 0 ∧ (s.wm.client 0).controlstarted = true ∧ s.Live 0 ∧
        (s.step .rowwm default (.request 0 "endcontrol" [])).isSome = true :=
    Run.exists_of_execGuarded (by decide +kernel)
  obtain ⟨hgoverned, hend, -⟩ := controller_slot hrun
  obtain ⟨t, ht⟩ := Option.isSome_iff_exists.mp hreq
  exact ⟨s, hrun, hctlr, hstarted, hgoverned, t, ht,
    hend 0 "endcontrol" [] [] t hctlr (by decide +kernel) ht⟩

/-- The controller leaves, and the client that joins next does not become the controller. -/
theorem departure_keeps_control :
    ∃ s, Run (StepOf (step .rowwm default)) (start ⟨⟨0, 0⟩, ⟨196, 400⟩⟩)
        [.opened 0, .join 0, .leave 0, .opened 1, .join 1] s ∧
      s.Live 1 ∧ s.wm.controller = none ∧ s.wm.allowcontrol = false ∧
      (s.wm.client 1).controller = false :=
  Run.exists_of_exec (by decide +kernel)

end Session

end Aimsgui
