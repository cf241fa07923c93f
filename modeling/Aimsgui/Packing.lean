import Aimsgui.Mainloop

/-!
# When rows change

Most of what `rowwm` does leaves the z-order and every window where they are (`Still`).
The exceptions are the calls of `pack_windows`, of which a turn of the main loop makes at
most one, the calls of `reshape` that do not pack, and `delete`. `packing` is the manager
at the point where a turn calls `pack_windows`; `step_packed` and `step_unpacked` say
what a turn does with and without such a call.
-/

namespace Aimsgui

namespace Wm

/-- The z-order, the screen and the windows of all clients are the same, and time goes on. -/
structure Still (w w' : Wm) : Prop where
  z : w'.z = w.z
  screen : w'.screen = w.screen
  wins : ∀ c, (w'.client c).wins = (w.client c).wins
  tick : w.tick ≤ w'.tick

variable {m : Manager} {env : Env} {w w' w'' : Wm} {c : Cid} {req : String}
  {ptr : List Pointer} {args : List String}

@[simp] theorem put_self (f : Client → Client) : (w.put c f).client c = f (w.client c) :=
  Function.update_self ..

theorem put_of_ne {a : Cid} (h : a ≠ c) (f : Client → Client) :
    (w.put c f).client a = w.client a :=
  Function.update_of_ne h _ _

@[simp] theorem put_z (f : Client → Client) : (w.put c f).z = w.z := rfl
@[simp] theorem put_order (f : Client → Client) : (w.put c f).order = w.order := rfl
@[simp] theorem put_screen (f : Client → Client) : (w.put c f).screen = w.screen := rfl
@[simp] theorem send_z (s : Send) : (w.send s).z = w.z := rfl
@[simp] theorem send_client (s : Send) : (w.send s).client = w.client := rfl
@[simp] theorem send_screen (s : Send) : (w.send s).screen = w.screen := rfl
@[simp] theorem ctl_z (e : String) : (w.ctl c e).z = w.z := rfl
@[simp] theorem ctl_client (e : String) : (w.ctl c e).client = w.client := rfl
@[simp] theorem ctl_screen (e : String) : (w.ctl c e).screen = w.screen := rfl

namespace Still

theorem rfl' : Still w w := ⟨rfl, rfl, fun _ => rfl, le_rfl⟩

theorem trans (h : Still w w') (h' : Still w' w'') : Still w w'' :=
  ⟨h'.z.trans h.z, h'.screen.trans h.screen, fun c => (h'.wins c).trans (h.wins c),
    h.tick.trans h'.tick⟩

/-- The other variables of the manager do not count. -/
theorem frame (h : Still w w') (hz : w''.z = w'.z) (hscreen : w''.screen = w'.screen)
    (hclient : w''.client = w'.client) (htick : w''.tick = w'.tick) : Still w w'' :=
  ⟨hz.trans h.z, hscreen.trans h.screen, fun c => hclient ▸ h.wins c, htick.ge.trans' h.tick⟩

theorem order (h : Still w w') : w'.order = w.order := by rw [Wm.order, h.z, Wm.order]

/-- Sending changes none of it. -/
theorem send (s : Send) : Still w (w.send s) := ⟨rfl, rfl, fun _ => rfl, le_rfl⟩

theorem ctl (c : Cid) (e : String) : Still w (w.ctl c e) := send _

theorem put {f : Client → Client} (hf : ∀ cl, (f cl).wins = cl.wins) : Still w (w.put c f) := by
  refine ⟨rfl, rfl, ?_, le_rfl⟩
  intro a
  by_cases ha : a = c
  · subst ha
    rw [put_self, hf]
  · rw [put_of_ne ha]

theorem wmctl (s : String) : Still w (w.wmctl s) := send _

theorem wmctl' (s : String) : Still w (w.wmctl' env s).1 :=
  ⟨rfl, rfl, fun _ => rfl, Nat.le_succ _⟩

theorem controlevent (e : String) : Still w (w.controlevent e) := by
  rw [Wm.controlevent.eq_def]
  split
  · split_ifs
    · exact ctl _ _
    · exact rfl'
  · exact rfl'

theorem setcursor (new : Option Cid) : Still w (w.setcursor new) := by
  rw [Wm.setcursor.eq_def]
  split
  · exact wmctl _
  · exact wmctl _
  · split_ifs
    · exact wmctl _
    · exact rfl'

theorem focusevent (e : String) : Still w (w.focusevent m e) := by
  cases m with
  | tabswin => exact controlevent _
  | rowwm | topwin => exact rfl'

theorem losefocus : Still w w.losefocus := by
  rw [Wm.losefocus]
  split
  · exact ctl _ _
  · exact rfl'

theorem givefocus (new : Option Cid) : Still w (w.givefocus m new) := by
  cases new with
  | some c =>
    have h := ((focusevent (m := m) (w := w) (toString (w.client c).id)).trans (ctl c "raise")).trans
      (ctl c "haskbdfocus 1")
    exact h.frame rfl rfl rfl rfl
  | none => exact (focusevent _).frame rfl rfl rfl rfl

theorem setfocus (new : Option Cid) : Still w (w.setfocus m new) := by
  simp only [Wm.setfocus]
  split_ifs
  · exact rfl'
  · exact setcursor new
  · exact ((setcursor new).trans losefocus).trans (givefocus new)

theorem follow {win : Window} {off : Point} {p : Pointer}
    (h : Wm.follow c win off w ptr = some (w', p)) : Still w w' := by
  induction ptr generalizing w with
  | nil => cases h
  | cons q ptr ih =>
    rw [Wm.follow] at h
    split_ifs at h
    · obtain ⟨rfl, rfl⟩ := h
      exact send _
    · exact (send _).trans (ih h)

theorem drag {win : Window} {off : Point} {e : Except String Rect}
    (h : w.drag c win off ptr = some (w', e)) : Still w w' := by
  rw [Wm.drag] at h
  split_ifs at h
  · obtain ⟨rfl, rfl⟩ := h
    exact rfl'
  · split at h
    · cases h
    · rename_i w₁ p hfollow
      obtain ⟨rfl, rfl⟩ := h
      exact ((follow hfollow).trans (send (.ptr c (some p)))).frame rfl rfl rfl rfl

theorem placement {r r' : Rect} (h : w.placement m env r args = some (w', r')) : Still w w' := by
  rw [Wm.placement.eq_def] at h
  split at h
  · obtain ⟨rfl, rfl⟩ := h
    exact rfl'
  · split_ifs at h
    · obtain ⟨rfl, rfl⟩ := h
      exact rfl'
    · split at h
      all_goals
        obtain ⟨rfl, rfl⟩ := h
        exact rfl'.frame rfl rfl rfl rfl
    all_goals
      obtain ⟨rfl, rfl⟩ := h
      exact rfl'

theorem reshapeArgs {tag : String} {r : Rect} (h : w.reshapeArgs m env args = some (w', tag, r)) :
    Still w w' := by
  rw [Wm.reshapeArgs.eq_def] at h
  split at h
  · obtain ⟨⟨w₁, r₁⟩, hplace, heq⟩ := Option.map_eq_some_iff.mp h
    obtain ⟨rfl, -⟩ := heq
    exact placement hplace
  · cases h

theorem moveArgs {ismove : Bool} {tag : String} {r : Rect}
    (h : w.moveArgs c ismove ptr args = some (w', tag, r)) : Still w w' := by
  rw [Wm.moveArgs.eq_def] at h
  split at h
  · split at h
    · cases h
    · split_ifs at h
      · split at h
        · rename_i hdrag
          obtain ⟨rfl, -⟩ := h
          exact drag hdrag
        · cases h
      · obtain ⟨r₁, -, heq⟩ := Option.map_eq_some_iff.mp h
        obtain ⟨rfl, -⟩ := heq
        exact rfl'
  · cases h

/-- What happens before `reshape` is called changes none of it. -/
theorem reshapeCall {tag : String} {r : Rect}
    (h : w.reshapeCall m env c req ptr = some (w', tag, r)) : Still w w' := by
  rw [Wm.reshapeCall.eq_def] at h
  split at h
  · cases h
  · split_ifs at h
    · exact moveArgs h
    · exact reshapeArgs h

end Still

/-! ## Placing windows anew -/

section Replace

variable {σ : Type} {newr : Rect} {place : σ → Window → σ × Option Rect}

/-- The inner loop asks for images and sends control messages. -/
theorem replaceWins_frame (w : Wm) (s : σ) (wins : List Window) :
    (replaceWins env newr place c w s wins).1.z = w.z ∧
      (replaceWins env newr place c w s wins).1.screen = w.screen ∧
      (replaceWins env newr place c w s wins).1.client = w.client := by
  induction wins generalizing w s with
  | nil => exact ⟨rfl, rfl, rfl⟩
  | cons win wins ih =>
    rw [replaceWins]
    split
    · exact ih _ _
    · exact ih _ _

theorem replaceAll_z (w : Wm) (s : σ) (cs : List Cid) :
    (replaceAll env newr place w s cs).1.z = w.z := by
  induction cs generalizing w s with
  | nil => rfl
  | cons c cs ih => exact (ih _ _).trans (replaceWins_frame _ _ _).1

theorem replaceAll_screen (w : Wm) (s : σ) (cs : List Cid) :
    (replaceAll env newr place w s cs).1.screen = w.screen := by
  induction cs generalizing w s with
  | nil => rfl
  | cons c cs ih => exact (ih _ _).trans (replaceWins_frame _ _ _).2.1

end Replace

theorem rescreened_screen (newr : Rect) : (w.rescreened m env newr).screen = newr :=
  replaceAll_screen _ _ _

theorem rescreened_z (newr : Rect) : (w.rescreened m env newr).z = w.z := replaceAll_z _ _ _

/-- Only `enlist` and `pack_windows` change the z-order in a reshape. -/
theorem reshapeImage_frame (env : Env) (w : Wm) (c : Cid) (tag : String) (r : Rect) :
    (w.reshapeImage env c tag r).1.z = w.z ∧ (w.reshapeImage env c tag r).1.screen = w.screen := by
  rw [reshapeImage]
  split_ifs
  · rw [setorigin]
    split
    · exact ⟨rfl, rfl⟩
    · split
      all_goals
        rename_i heq
        obtain rfl := congrArg Prod.fst heq
        exact ⟨rfl, rfl⟩
  · split
    · rename_i heq
      obtain rfl := congrArg Prod.fst heq
      exact ⟨rfl, rfl⟩
    · rename_i heq
      obtain rfl := congrArg Prod.fst heq
      split
      all_goals
        rename_i heq'
        obtain rfl := congrArg Prod.fst heq'
        exact ⟨rfl, rfl⟩

/-! ## The calls of `pack_windows` -/

/-- Where `reshape` calls `pack_windows`, if it does. -/
def reshapePacking (env : Env) (w : Wm) (c : Cid) (tag : String) (r : Rect) : Option Wm :=
  match w.reshapeImage env c tag r with
  | (_, some _) => none
  | (w', none) => if ¬ w.Samesize c tag r ∧ tag = "." then some (w'.enlist c) else none

/-- A reshape that packs. -/
theorem reshape_packed {tag : String} {r : Rect} (h : reshapePacking env w c tag r = some w') :
    (reshape .rowwm env w c tag r).1 = w'.packWindows env w'.screen := by
  rw [reshapePacking] at h
  rw [reshape]
  generalize w.reshapeImage env c tag r = res at h ⊢
  obtain ⟨w₁, _ | _⟩ := res
  · simp only at h ⊢
    split_ifs at h with hpack
    obtain rfl := Option.some.inj h
    rw [if_pos hpack]
  · cases h

/-- A reshape that does not pack: it fails, or it was not a row's size that changed. -/
theorem reshape_unpacked {tag : String} {r : Rect} (h : reshapePacking env w c tag r = none) :
    (∃ e, w.reshapeImage env c tag r = ((reshape .rowwm env w c tag r).1, some e)) ∨
      ((w.reshapeImage env c tag r).2 = none ∧ (w.Samesize c tag r ∨ tag ≠ ".") ∧
        (reshape .rowwm env w c tag r).1 = (w.reshapeImage env c tag r).1.enlist c) := by
  rw [reshapePacking] at h
  rw [reshape]
  generalize w.reshapeImage env c tag r = res at h ⊢
  obtain ⟨w₁, _ | e⟩ := res
  · simp only at h ⊢
    split_ifs at h with hpack
    refine Or.inr ⟨trivial, ?_, by rw [if_neg hpack]⟩
    rwa [not_and_or, not_not] at hpack
  · exact Or.inl ⟨e, rfl⟩

end Wm

namespace Session

open Wm

/-- The manager at the point where a turn of the main loop calls `pack_windows`. -/
def packing (env : Env) (s : Session) : Event → Option Wm
  | .leave c => some (s.wm.departing .rowwm c)
  | .request c data ptr =>
    (s.wm.reshapeCall .rowwm env c data ptr).bind fun (w, tag, r) => reshapePacking env w c tag r
  | .winctl e (some newr) => some ((s.wm.told e).rescreened .rowwm env newr)
  | _ => none

/-- What becomes of a manager in a turn that does not call `pack_windows`. -/
inductive Unpacked (env : Env) (s : Session) : Event → Wm → Prop where
  | still {e w} : Still s.wm w → Unpacked env s e w
  | opened {id} : Unpacked env s (.opened id) (s.wm.addclient id)
  | reshape {c data ptr w tag r} : s.Live c →
      s.wm.reshapeCall .rowwm env c data ptr = some (w, tag, r) →
      reshapePacking env w c tag r = none →
      Unpacked env s (.request c data ptr) (Wm.reshape .rowwm env w c tag r).1
  | delete {c data ptr tag args w} : unquoted data = "delete" :: tag :: args →
      Still (s.wm.put c (·.dropwin tag)) w → Unpacked env s (.request c data ptr) w

variable {env : Env} {s s' : Session} {e : Event}

/-- A request that does not make a row of another size leaves `pack_windows` alone. -/
theorem unpacked_request {c : Cid} {data : String} {ptr : List Pointer} {w : Wm} (hc : s.Live c)
    (h : Handled .rowwm env s.wm c data ptr w)
    (hpack : s.packing env (.request c data ptr) = none) :
    Unpacked env s (.request c data ptr) w := by
  cases h with
  | reshape w₁ tag r hcall =>
    rw [packing, hcall] at hpack
    exact .reshape hc hcall hpack
  | delete tag args hdata =>
    refine .delete hdata ?_
    rw [deleteRequest]
    split_ifs
    · exact Still.setfocus none
    · exact Still.rfl'
  | answered => exact .still Still.rfl'
  | key => exact .still (Still.send _)
  | wmctl => exact .still (Still.wmctl' _)
  | cursor f hf => exact .still ((Still.put hf.wins).trans (Still.wmctl' _))
  | pointer p => exact .still (((Still.wmctl' _).trans (Still.send _)).trans (Still.send _))
  | marked f hf => exact .still (Still.put hf.wins)
  | kbd =>
    refine .still ((Still.put ?_).trans (Still.setfocus _))
    exact fun _ => rfl
  | control =>
    refine .still (Still.put ?_)
    exact fun _ => rfl
  | dragged win off w₁ e hdrag => exact .still (Still.drag hdrag)
  | top hm => exact absurd rfl hm
  | bottom hm => exact absurd rfl hm
  | focus => exact .still (Still.setfocus _)
  | unfocus => exact .still (Still.setfocus _)
  | message => exact .still (Still.ctl _ _)
  | endcontrol =>
    refine .still ?_
    rw [endcontrolRequest]
    split_ifs
    · exact Still.rfl'
    · have hput : Still s.wm (s.wm.put c fun cl =>
          { cl with controlstarted := false, controller := false }) := Still.put fun _ => rfl
      exact hput.frame rfl rfl rfl rfl
  | forward => exact .still (Still.ctl _ _)

theorem still_onJoin (w : Wm) (c : Cid) : Still w (w.onJoin c) := by
  simp only [onJoin]
  refine Still.trans ?_ (Still.put fun _ => rfl)
  have hctl : Still w (w.ctl c ("rect " ++ r2s w.screen)) := Still.ctl _ _
  split_ifs
  · have hput := hctl.trans (Still.put (c := c) (f := fun cl => { cl with controller := true })
      fun _ => rfl)
    exact hput.frame rfl rfl rfl rfl
  · exact hctl.trans (Still.controlevent _)

theorem still_onKey (w : Wm) (k : Int) : Still w (w.onKey k) := by
  rw [onKey]
  split
  · exact Still.send _
  · exact Still.rfl'

theorem still_pointAt {m : Manager} (w : Wm) (c : Cid) (p : Pointer) :
    Still w (w.pointAt m c p) := by
  simp only [pointAt]
  split_ifs
  · split
    · split_ifs
      · rename_i old _ _
        exact (Still.send (.ptr old (some p))).frame rfl rfl rfl rfl
      · exact Still.rfl'.frame rfl rfl rfl rfl
    · exact Still.rfl'.frame rfl rfl rfl rfl
  · exact Still.rfl'
  · exact (Still.ctl _ _).trans (Still.setfocus _)
  · exact Still.setfocus _

theorem still_onPointer {m : Manager} (w : Wm) (p : Pointer) (taken : Bool) :
    Still w (w.onPointer m p taken) := by
  rw [onPointer_eq]
  split_ifs
  · exact Still.rfl'
  · have haimed : Still w (w.aimed m p) := by
      rw [aimed]
      split
      · exact still_pointAt w _ p
      · exact Still.rfl'
    rw [deliver]
    split
    · split_ifs
      · exact haimed.frame rfl rfl rfl rfl
      · exact haimed.frame rfl rfl rfl rfl
    · exact haimed.frame rfl rfl rfl rfl

theorem still_ctlAll (e : String) (cs : List Cid) (w : Wm) : Still w (ctlAll e cs w) := by
  induction cs generalizing w with
  | nil => exact Still.rfl'
  | cons c cs ih => exact (Still.ctl c e).trans (ih _)

theorem still_told (w : Wm) (e : String) : Still w (w.told e) := by
  rw [told]
  split_ifs
  · exact (still_ctlAll _ _ _).trans (Still.wmctl _)
  · exact Still.wmctl _

/-- A departure, after `pack_windows`. -/
theorem still_onLeave (w : Wm) (c : Cid) :
    Still ((w.departing .rowwm c).packWindows env (w.departing .rowwm c).screen)
      (w.onLeave .rowwm env c) :=
  (Still.setfocus _).trans (Still.send _)

/-- A new image of the manager's own window. -/
theorem still_onWinctl (w : Wm) (e : String) (newr : Rect) :
    Still (((w.told e).rescreened .rowwm env newr).packWindows env
        ((w.told e).rescreened .rowwm env newr).screen)
      (w.onWinctl .rowwm env e (some newr)) := by
  rw [rescreened_screen]
  exact Still.rfl'

/-- A turn that does not call `pack_windows`. -/
theorem step_unpacked (h : s.step .rowwm env e = some s') (hp : s.packing env e = none) :
    Unpacked env s e s'.wm := by
  cases e with
  | opened id =>
    obtain rfl := Option.some.inj h
    exact .opened
  | join c =>
    simp only [step] at h
    split_ifs at h
    obtain rfl := Option.some.inj h
    exact .still (still_onJoin _ _)
  | leave c => cases hp
  | request c data ptr =>
    simp only [step] at h
    split_ifs at h with hc
    obtain ⟨⟨w, a⟩, hreq, rfl⟩ := Option.map_eq_some_iff.mp h
    exact unpacked_request hc (handled hreq) hp
  | key k =>
    obtain rfl := Option.some.inj h
    exact .still (still_onKey _ _)
  | pointer p taken =>
    obtain rfl := Option.some.inj h
    exact .still (still_onPointer _ _ _)
  | winctl e img =>
    obtain rfl := Option.some.inj h
    cases img with
    | some newr => cases hp
    | none => exact .still (still_told _ _)

/-- A turn that calls `pack_windows`: what it does after that changes no row. -/
theorem step_packed {w : Wm} (h : s.step .rowwm env e = some s') (hp : s.packing env e = some w) :
    Still (w.packWindows env w.screen) s'.wm := by
  cases e with
  | leave c =>
    obtain rfl := Option.some.inj hp
    simp only [step] at h
    split_ifs at h
    obtain rfl := Option.some.inj h
    exact still_onLeave _ _
  | request c data ptr =>
    simp only [step] at h
    split_ifs at h
    obtain ⟨⟨w', a⟩, hreq, rfl⟩ := Option.map_eq_some_iff.mp h
    obtain ⟨⟨w₁, tag, r⟩, hcall, hpack⟩ := Option.bind_eq_some_iff.mp hp
    rw [handlerequest_reshape hcall hreq, reshape_packed hpack]
    exact Still.rfl'
  | winctl e img =>
    obtain rfl := Option.some.inj h
    cases img with
    | some newr =>
      obtain rfl := Option.some.inj hp
      dsimp only
      exact still_onWinctl s.wm e newr
    | none => cases hp
  | opened | join | key | pointer => cases hp

/-! ## The z-order in a turn -/

/-- Where a client joins the z-order, if it is not on the screen yet. -/
theorem enlist_z (w : Wm) (c : Cid) :
    (w.enlist c).z = w.z ∨ c ∉ w.order ∧ (w.enlist c).z = Xwmsrv.bottom w.z c := by
  rw [enlist]
  split_ifs with hc
  · exact Or.inl rfl
  · exact Or.inr ⟨hc, rfl⟩

/-- The z-order before `pack_windows`: a client has left, or one may have joined. -/
theorem packing_z {w : Wm} (hstep : s.step .rowwm env e = some s')
    (hp : s.packing env e = some w) :
    (∃ c, e = .leave c ∧ s.Live c ∧ w.z = Xwmsrv.remove s.wm.z c ∧ s'.left = c :: s.left) ∨
      s'.left = s.left ∧ (w.z = s.wm.z ∨
        ∃ c, s.Live c ∧ c ∉ s.wm.order ∧ w.z = Xwmsrv.bottom s.wm.z c) := by
  cases e with
  | leave c =>
    simp only [step] at hstep
    split_ifs at hstep with hc
    obtain rfl := Option.some.inj hstep
    obtain rfl := Option.some.inj hp
    exact Or.inl ⟨c, rfl, hc, (Still.controlevent _).z, rfl⟩
  | request c data ptr =>
    simp only [step] at hstep
    split_ifs at hstep with hc
    obtain ⟨⟨w', a⟩, -, rfl⟩ := Option.map_eq_some_iff.mp hstep
    obtain ⟨⟨w₁, tag, r⟩, hcall, hpack⟩ := Option.bind_eq_some_iff.mp hp
    simp only [reshapePacking] at hpack
    split at hpack
    · cases hpack
    · rename_i w₂ heq
      split_ifs at hpack
      obtain rfl := Option.some.inj hpack
      have hz : w₂.z = s.wm.z := by
        have hframe := (reshapeImage_frame env w₁ c tag r).1
        rw [heq] at hframe
        exact hframe.trans (Still.reshapeCall hcall).z
      refine Or.inr ⟨rfl, ?_⟩
      rcases enlist_z w₂ c with hsame | ⟨hnot, hbottom⟩
      · exact Or.inl (hsame.trans hz)
      · rw [Wm.order, hz] at hnot
        rw [hz] at hbottom
        exact Or.inr ⟨c, hc, hnot, hbottom⟩
  | winctl e img =>
    obtain rfl := Option.some.inj hstep
    cases img with
    | none => cases hp
    | some newr =>
      obtain rfl := Option.some.inj hp
      rw [rescreened_z, (still_told _ _).z]
      exact Or.inr ⟨rfl, Or.inl rfl⟩
  | opened | join | key | pointer => cases hp

/-- The z-order in a turn that does not pack: a record is made, or a client may join. -/
theorem unpacked_z {w : Wm} (hw : Unpacked env s e w) :
    w.z = s.wm.z ∨ w.z = { s.wm.z with refs := s.wm.z.refs + 1 } ∨
      ∃ c, s.Live c ∧ c ∉ s.wm.order ∧ w.z = Xwmsrv.bottom s.wm.z c := by
  cases hw with
  | still hstill => exact Or.inl hstill.z
  | opened => exact Or.inr (Or.inl rfl)
  | @reshape c data ptr w₁ tag r hc hcall hpack =>
    have hz : (w₁.reshapeImage env c tag r).1.z = s.wm.z :=
      (reshapeImage_frame env w₁ c tag r).1.trans (Still.reshapeCall hcall).z
    rcases reshape_unpacked hpack with ⟨err, herr⟩ | ⟨-, -, heq⟩
    · rw [herr] at hz
      exact Or.inl hz
    · rw [heq]
      rcases enlist_z (w₁.reshapeImage env c tag r).1 c with hsame | ⟨hnot, hbottom⟩
      · exact Or.inl (hsame.trans hz)
      · rw [Wm.order, hz] at hnot
        rw [hz] at hbottom
        exact Or.inr (Or.inr ⟨c, hc, hnot, hbottom⟩)
  | delete _ hstill => exact Or.inl hstill.z

/-- Only a departure adds to the clients that have left. -/
theorem step_left (h : s.step .rowwm env e = some s') (hp : s.packing env e = none) :
    s'.left = s.left := by
  cases e with
  | leave c => cases hp
  | request c data ptr =>
    simp only [step] at h
    split_ifs at h
    obtain ⟨-, -, rfl⟩ := Option.map_eq_some_iff.mp h
    rfl
  | join c =>
    simp only [step] at h
    split_ifs at h
    obtain rfl := Option.some.inj h
    rfl
  | opened | key | pointer | winctl =>
    obtain rfl := Option.some.inj h
    rfl

end Session

end Aimsgui
