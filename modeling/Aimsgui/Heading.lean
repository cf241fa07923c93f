import Aimsgui.Posting

/-!
# The toolbar of `topwin` stays in control

`Headed` is what holds of `topwin` when its first client is the toolbar, which neither leaves nor
ends control: the toolbar is the controller, and clients that have not left have different ids.
`Turned` says what else a turn leaves as it is: nobody gets another id, and nobody goes from the
screen without leaving.
-/

namespace Aimsgui

open Transition

namespace Session

open Wm

/-- The toolbar `t` is the controller as soon as it has joined, and an id, an `int`, is that of one
client only. -/
structure Headed (t : Cid) (s : Session) : Prop where
  governed : s.Governed
  lists : Lists s.left (fun _ => True) s.wm
  present : t ∉ s.left
  controller : ∀ a, s.wm.controller = some a ↔ a = t ∧ t ∈ s.joined
  steered : Steered t s.wm
  unique : ∀ a b, s.Live a → s.Live b → (s.wm.client a).id = (s.wm.client b).id → a = b
  small : ∀ a < s.wm.z.refs, (s.wm.client a).id < 2 ^ 31

/-- The id of a new client is an `int` and no other client's; the toolbar is the first to join, it
does not leave, and it does not end control. -/
def Obeys (t : Cid) (s : Session) : Event → Prop
  | .opened id => id < 2 ^ 31 ∧ ∀ c < s.wm.z.refs, c ∉ s.left → (s.wm.client c).id ≠ id
  | .join c => c ≠ t → t ∈ s.joined
  | .leave c => c ≠ t
  | .request c data _ => c = t → (unquoted data).head? ≠ some "endcontrol"
  | .key _ | .pointer _ _ | .winctl _ _ => True

/-- What a turn changes in which no record is made. -/
structure Turned (t : Cid) (s s' : Session) : Prop where
  refs : s'.wm.z.refs = s.wm.z.refs
  id : ∀ a, (s'.wm.client a).id = (s.wm.client a).id
  left : s.left ⊆ s'.left
  stays : ∀ a ∈ s.wm.order, a ∉ s'.left → a ∈ s'.wm.order
  started : (s.wm.client t).controlstarted = true → (s'.wm.client t).controlstarted = true

variable {env : Env} {t c : Cid} {s s' : Session} {e : Event} {w : Wm} {screen : Rect}

theorem headed_start (t : Cid) (screen : Rect) : Headed t (start screen) where
  governed := start_governed
  lists := ⟨[], Zorder.Standing.empty, fun _ hm => absurd hm List.not_mem_nil⟩
  present := List.not_mem_nil
  controller := fun _ => iff_of_false nofun fun h => absurd h.2 List.not_mem_nil
  steered := fun h => absurd h Bool.false_ne_true
  unique := fun _ _ ha => absurd ha.1 (Nat.not_lt_zero _)
  small := fun _ ha => absurd ha (Nat.not_lt_zero _)

namespace Headed

/-- As long as the toolbar has not joined, the next client to join gets control. -/
theorem allowed (h : Headed t s) (hnew : t ∉ s.joined) : s.wm.allowcontrol = true := by
  refine h.governed.allowed.mpr ?_
  cases hctlr : s.wm.controller with
  | none => rfl
  | some a => exact absurd ((h.controller a).mp hctlr).2 hnew

theorem forbidden (h : Headed t s) (hctlr : s.wm.controller = some t) :
    s.wm.allowcontrol = false := by
  refine Bool.eq_false_iff.mpr fun hallow => ?_
  cases (h.governed.allowed.mp hallow).symm.trans hctlr

/-- Nobody but the toolbar has started control. -/
theorem started (h : Headed t s) (hc : s.Live c)
    (hstarted : (s.wm.client c).controlstarted = true) : c = t := by
  have hctlr := h.governed.flagged c hc (h.governed.started c hc hstarted)
  exact ((h.controller c).mp hctlr).1

theorem live_of_mem (h : Headed t s) (hc : c ∈ s.wm.order) : s.Live c := by
  obtain ⟨hbound, hleft, -⟩ := h.lists.mem_order hc
  exact ⟨hbound, hleft⟩

/-- What a turn has to keep, when no record is made. -/
theorem turned (h : Headed t s) (hturned : Turned t s s') (hgoverned : s'.Governed)
    (hlists : Lists s'.left (fun _ => True) s'.wm) (hpresent : t ∉ s'.left)
    (hctlr : ∀ a, s'.wm.controller = some a ↔ a = t ∧ t ∈ s'.joined)
    (hsteered : Steered t s'.wm) : Headed t s' := by
  have hlive : ∀ {a}, s'.Live a → s.Live a :=
    fun ha => ⟨hturned.refs ▸ ha.1, fun hm => ha.2 (hturned.left hm)⟩
  refine ⟨hgoverned, hlists, hpresent, hctlr, hsteered, ?_, ?_⟩
  · intro a b ha hb hid
    rw [hturned.id, hturned.id] at hid
    exact h.unique a b (hlive ha) (hlive hb) hid
  · intro a ha
    rw [hturned.id]
    exact h.small a (hturned.refs ▸ ha)

end Headed

theorem onWinctl_z (w : Wm) (e : String) (img : Option Rect) :
    (w.onWinctl .topwin env e img).z = w.z := by
  cases img with
  | some newr => exact (rescreened_z newr).trans (still_told w e).z
  | none => exact (still_told w e).z

/-- The turns in which no record is made. -/
theorem step_turned (h : Headed t s) (hobeys : Obeys t s e) (hopened : ∀ id, e ≠ .opened id)
    (hstep : s.step .topwin env e = some s') : Turned t s s' := by
  have hend : ∀ c data ptr, e = .request c data ptr → c = t →
      (unquoted data).head? ≠ some "endcontrol" := by
    rintro c data ptr rfl
    exact hobeys
  obtain ⟨hknows, hrefs, hleft⟩ := step_knows hstep hopened hend
  refine ⟨hrefs, hknows.id, hleft, ?_, hknows.started t rfl⟩
  have hstays : ∀ {w : Wm}, w.z = s.wm.z → ∀ a ∈ s.wm.order, a ∈ w.order := by
    intro w hz a ha
    rwa [order, hz]
  intro a ha hpresent
  cases e with
  | opened id => exact absurd rfl (hopened id)
  | join c =>
    simp only [step] at hstep
    split_ifs at hstep
    obtain rfl := Option.some.inj hstep
    exact hstays (still_onJoin s.wm c).z a ha
  | leave c =>
    simp only [step] at hstep
    split_ifs at hstep with hc
    obtain rfl := Option.some.inj hstep
    have hac : a ≠ c := fun hac => hpresent (hac ▸ List.mem_cons_self)
    have hstay : a ∈ (s.wm.onLeave .topwin env c).order := h.lists.stays_onLeave hc.2 hac ha
    exact hstay
  | request c data ptr =>
    simp only [step] at hstep
    split_ifs at hstep with hc
    obtain ⟨⟨w, answer⟩, hreq, rfl⟩ := Option.map_eq_some_iff.mp hstep
    exact h.lists.stays_handled hc.1 hc.2 (Wm.handled hreq) ha
  | key k =>
    obtain rfl := Option.some.inj hstep
    exact hstays (still_onKey s.wm k).z a ha
  | pointer p taken =>
    obtain rfl := Option.some.inj hstep
    exact hstays (still_onPointer (m := .topwin) s.wm p taken).z a ha
  | winctl e img =>
    obtain rfl := Option.some.inj hstep
    have hz : (s.wm.onWinctl .topwin env e img).z = s.wm.z := onWinctl_z s.wm e img
    exact hstays hz a ha

/-- A record is made. -/
theorem headed_opened (h : Headed t s) {id : Nat} (hobeys : Obeys t s (.opened id)) :
    Headed t { s with wm := s.wm.addclient id } := by
  obtain ⟨hint, hfresh⟩ := hobeys
  have hold : ∀ {a}, a < s.wm.z.refs → (s.wm.addclient id).client a = s.wm.client a :=
    fun ha => addclient_of_ne (Nat.ne_of_lt ha) id
  refine ⟨governed_opened h.governed id, h.lists.opened id, h.present, h.controller, ?_, ?_, ?_⟩
  · intro hstarted
    dsimp only at hstarted
    by_cases ht : t = s.wm.z.refs
    · subst ht
      rw [addclient_self] at hstarted
      cases hstarted
    · rw [addclient_of_ne ht] at hstarted
      exact h.steered hstarted
  · rintro a b ⟨ha, haleft⟩ ⟨hb, hbleft⟩ hid
    dsimp only at hid
    rcases Nat.lt_succ_iff_lt_or_eq.mp ha with ha | rfl
    · rcases Nat.lt_succ_iff_lt_or_eq.mp hb with hb | rfl
      · rw [hold ha, hold hb] at hid
        exact h.unique a b ⟨ha, haleft⟩ ⟨hb, hbleft⟩ hid
      · rw [hold ha, addclient_self] at hid
        exact absurd hid (hfresh a ha haleft)
    · rcases Nat.lt_succ_iff_lt_or_eq.mp hb with hb | rfl
      · rw [hold hb, addclient_self] at hid
        exact absurd hid.symm (hfresh b hb hbleft)
      · rfl
  · intro a ha
    dsimp only
    rcases Nat.lt_succ_iff_lt_or_eq.mp ha with ha | rfl
    · rw [hold ha]
      exact h.small a ha
    · rw [addclient_self]
      exact hint

/-- The controller after a turn. -/
theorem step_controller (h : Headed t s) (hobeys : Obeys t s e)
    (hstep : s.step .topwin env e = some s') (a : Cid) :
    s'.wm.controller = some a ↔ a = t ∧ t ∈ s'.joined := by
  cases e with
  | opened id =>
    obtain rfl := Option.some.inj hstep
    exact h.controller a
  | join c =>
    simp only [step] at hstep
    split_ifs at hstep with hc
    obtain rfl := Option.some.inj hstep
    have hjoined : t ∈ c :: s.joined := by
      by_cases hct : c = t
      · exact hct ▸ List.mem_cons_self
      · exact List.mem_cons_of_mem c (hobeys hct)
    have hctlr : (s.wm.onJoin c).controller = some t := by
      by_cases hct : c = t
      · subst hct
        exact (onJoin_controller s.wm c (h.allowed hc.2)).1
      · have hin := (h.controller t).mpr ⟨rfl, hobeys hct⟩
        exact (onJoin_reign s.wm c (h.forbidden hin)).controller.trans hin
    dsimp only
    rw [hctlr]
    exact ⟨fun heq => ⟨(Option.some.inj heq).symm, hjoined⟩, fun heq => heq.1 ▸ rfl⟩
  | leave c =>
    simp only [step] at hstep
    split_ifs at hstep with hc
    obtain rfl := Option.some.inj hstep
    have hnot : s.wm.controller ≠ some c := fun hctlr => hobeys ((h.controller c).mp hctlr).1
    have hr : Reign s.wm (s.wm.onLeave .topwin env c) := reign_onLeave s.wm c hnot
    dsimp only
    rw [hr.controller]
    exact h.controller a
  | request c data ptr =>
    simp only [step] at hstep
    split_ifs at hstep with hc
    obtain ⟨⟨w, answer⟩, hreq, rfl⟩ := Option.map_eq_some_iff.mp hstep
    dsimp only
    rcases handled_reign (Wm.handled hreq) with hr | ⟨-, rfl⟩ | ⟨args, hdata, rfl⟩
    · rw [hr.controller]
      exact h.controller a
    · exact h.controller a
    · have hnot : s.wm.controller ≠ some c := by
        intro hctlr
        obtain rfl := ((h.controller c).mp hctlr).1
        exact hobeys rfl (congrArg List.head? hdata)
      rw [endcontrolRequest, if_pos hnot]
      exact h.controller a
  | key k =>
    obtain rfl := Option.some.inj hstep
    dsimp only
    rw [(reign_onKey s.wm k).controller]
    exact h.controller a
  | pointer p taken =>
    obtain rfl := Option.some.inj hstep
    dsimp only
    rw [(reign_onPointer s.wm p taken).controller]
    exact h.controller a
  | winctl e img =>
    obtain rfl := Option.some.inj hstep
    dsimp only
    rw [(reign_onWinctl s.wm e img).controller]
    exact h.controller a

/-- Starting control is for the controller. -/
theorem step_steered (h : Headed t s) (hobeys : Obeys t s e) (hopened : ∀ id, e ≠ .opened id)
    (hstep : s.step .topwin env e = some s') : Steered t s'.wm := by
  intro hstarted
  rw [step_controller h hobeys hstep]
  refine ⟨rfl, ?_⟩
  have hjoined : (s.wm.client t).controlstarted = true → t ∈ s.joined :=
    fun hst => ((h.controller t).mp (h.steered hst)).2
  cases e with
  | opened id => exact absurd rfl (hopened id)
  | join c =>
    simp only [step] at hstep
    split_ifs at hstep
    obtain rfl := Option.some.inj hstep
    exact List.mem_cons_of_mem c (hjoined (((onJoin_frame s.wm c).2.2.1 t).symm.trans hstarted))
  | leave c =>
    simp only [step] at hstep
    split_ifs at hstep
    obtain rfl := Option.some.inj hstep
    have hnot : s.wm.controller ≠ some c := fun hctlr => hobeys ((h.controller c).mp hctlr).1
    have hr : Reign s.wm (s.wm.onLeave .topwin env c) := reign_onLeave s.wm c hnot
    exact hjoined ((hr.started t).symm.trans hstarted)
  | request c data ptr =>
    simp only [step] at hstep
    split_ifs at hstep with hc
    obtain ⟨⟨w, answer⟩, hreq, rfl⟩ := Option.map_eq_some_iff.mp hstep
    rcases handled_reign (Wm.handled hreq) with hr | ⟨hflag, rfl⟩ | ⟨args, hdata, rfl⟩
    · exact hjoined ((hr.started t).symm.trans hstarted)
    · by_cases htc : t = c
      · subst htc
        exact ((h.controller t).mp (h.governed.flagged t hc hflag)).2
      · dsimp only at hstarted
        rw [put_of_ne htc] at hstarted
        exact hjoined hstarted
    · have hnot : s.wm.controller ≠ some c := by
        intro hctlr
        obtain rfl := ((h.controller c).mp hctlr).1
        exact hobeys rfl (congrArg List.head? hdata)
      rw [endcontrolRequest, if_pos hnot] at hstarted
      exact hjoined hstarted
  | key k =>
    obtain rfl := Option.some.inj hstep
    exact hjoined (((reign_onKey s.wm k).started t).symm.trans hstarted)
  | pointer p taken =>
    obtain rfl := Option.some.inj hstep
    exact hjoined (((reign_onPointer s.wm p taken).started t).symm.trans hstarted)
  | winctl e img =>
    obtain rfl := Option.some.inj hstep
    exact hjoined (((reign_onWinctl s.wm e img).started t).symm.trans hstarted)

theorem step_present (h : Headed t s) (hobeys : Obeys t s e)
    (hstep : s.step .topwin env e = some s') : t ∉ s'.left := by
  cases e with
  | leave c =>
    simp only [step] at hstep
    split_ifs at hstep
    obtain rfl := Option.some.inj hstep
    exact fun hm => (List.mem_cons.mp hm).elim (fun heq => hobeys heq.symm) h.present
  | join c =>
    simp only [step] at hstep
    split_ifs at hstep
    obtain rfl := Option.some.inj hstep
    exact h.present
  | request c data ptr =>
    simp only [step] at hstep
    split_ifs at hstep
    obtain ⟨-, -, rfl⟩ := Option.map_eq_some_iff.mp hstep
    exact h.present
  | opened | key | pointer | winctl =>
    obtain rfl := Option.some.inj hstep
    exact h.present

/-- Every turn in which everybody obeys keeps `Headed`. -/
theorem step_headed (h : Headed t s) (hobeys : Obeys t s e)
    (hstep : s.step .topwin env e = some s') : Headed t s' := by
  by_cases hopened : ∃ id, e = .opened id
  · obtain ⟨id, rfl⟩ := hopened
    obtain rfl := Option.some.inj hstep
    exact headed_opened h hobeys
  · have hretains : Retains s e := by
      intro c hc hctlr
      cases e with
      | leave a =>
        obtain rfl := Option.some.inj hc
        exact hobeys ((h.controller a).mp hctlr).1
      | opened | join | request | key | pointer | winctl => cases hc
    have hturned := step_turned h hobeys (fun id he => hopened ⟨id, he⟩) hstep
    exact h.turned hturned (step_governed h.governed hretains hstep)
      (step_lists h.lists (fun _ _ _ _ _ => trivial) hstep) (step_present h hobeys hstep)
      (step_controller h hobeys hstep)
      (step_steered h hobeys (fun id he => hopened ⟨id, he⟩) hstep)

end Session

end Aimsgui
