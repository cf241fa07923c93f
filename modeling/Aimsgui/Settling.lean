import Aimsgui.Reporting

/-!
# The toolbar stays in control

`Settled` is what holds of a manager whose first client is the toolbar, as long as the toolbar
neither leaves nor ends control: nobody else controls the manager, clients that have not left
have different names, and nobody who has left is on the screen or has the keyboard. Every turn
keeps it that obeys these rules (`step_settled`).
-/

namespace Aimsgui

open Toolbar Transition

namespace Session

open Wm

/-- Nobody but the toolbar `t` controls the manager, and clients that have not left have
different names. -/
structure Settled (t : Cid) (s : Session) : Prop where
  governed : s.Governed
  lists : Lists s.left (fun _ => True) s.wm
  present : t ∉ s.left
  controller : ∀ a, s.wm.controller = some a ↔ a = t ∧ t ∈ s.joined
  steered : Steered t s.wm
  joined : ∀ c ∈ s.joined, c < s.wm.z.refs
  unique : ∀ a b, s.Live a → s.Live b → (s.wm.client a).id = (s.wm.client b).id → a = b
  kbdfocus : ∀ c, s.wm.kbdfocus = some c → s.Live c

variable {tk : Bar.Tk} {env : Env} {t c : Cid} {s s' s'' : Session} {b : Bar} {e : Event}
  {who : Cid → Prop} {w : Wm}

/-- Two clients that have not left do not have the same name. -/
theorem Settled.name_injective (h : Settled t s) {a : Cid} (ha : s.Live a) (hc : s.Live c)
    (hname : toString (s.wm.client a).id = toString (s.wm.client c).id) : a = c :=
  h.unique a c ha hc (toString_injective hname)

/-- A departure, before the election. -/
theorem departing_frame (m : Manager) (w : Wm) (c : Cid) :
    (w.departing m c).client = w.client ∧
      (w.departing m c).kbdfocus = forget c w.kbdfocus ∧
      (w.departing m c).controller = forget c w.controller := by
  rw [Wm.departing, controlevent_logged]
  exact ⟨rfl, rfl, rfl⟩

theorem forget_of_ne (hct : c ≠ t) : forget c (some t) = some t :=
  if_neg fun heq => hct (Option.some.inj heq).symm

/-- As long as the toolbar has not joined, the next client to join gets control. -/
theorem Settled.allowed (h : Settled t s) (hnew : t ∉ s.joined) : s.wm.allowcontrol = true := by
  refine h.governed.allowed.mpr ?_
  cases hctlr : s.wm.controller with
  | none => rfl
  | some a => exact absurd ((h.controller a).mp hctlr).2 hnew

theorem Settled.forbidden (h : Settled t s) (hctlr : s.wm.controller = some t) :
    s.wm.allowcontrol = false := by
  refine Bool.eq_false_iff.mpr fun hallow => ?_
  cases (h.governed.allowed.mp hallow).symm.trans hctlr

/-- The toolbar joins first, it stays, and it makes no requests but those of a toolbar. -/
def Orderly (tk : Bar.Tk) (t : Cid) (s : Session) : Event → Prop
  | .opened id => ∀ c < s.wm.z.refs, c ∉ s.left → (s.wm.client c).id ≠ id
  | .join c => c ≠ t → t ∈ s.joined
  | .leave c => c ≠ t
  | .request c data _ => (c = t → Polite tk t s.wm data) ∧
      ∀ icon ∈ Desk.icon data, Desk.OneCommand icon
  | .key _ | .pointer _ _ | .winctl _ _ => True

/-- Whoever is on the screen has not left. -/
theorem Settled.live_of_mem (h : Settled t s) : ∀ a ∈ s.wm.order, s.Live a := by
  intro a ha
  obtain ⟨hbound, hleft, -⟩ := h.lists.mem_order ha
  exact ⟨hbound, hleft⟩

theorem Settled.handled (h : Settled t s) (htk : Harmless tk) {data : String} {ptr : List Pointer}
    (hc : s.Live c) (hrule : Orderly tk t s (.request c data ptr))
    (hreq : Handled .tabswin env s.wm c data ptr w) : Reports tk t s.Live s.wm w := by
  refine .handled htk h.steered (fun a ha => ((h.controller a).mp ha).1) (h.governed.flagged c hc) ?_ hc
    hrule.1 hrule.2 hreq
  exact fun hstarted => h.governed.flagged c hc (h.governed.started c hc hstarted)

/-- A request says nothing about control, unless the toolbar starts it. -/
theorem Settled.request_reign (h : Settled t s) {data : String} {ptr : List Pointer}
    (hc : s.Live c) (hrule : Orderly tk t s (.request c data ptr))
    (hreq : Handled .tabswin env s.wm c data ptr w) :
    Reign s.wm w ∨ (s.wm.client t).controller = true ∧ s.wm.controller = some t ∧
      w = s.wm.put t fun cl => { cl with controlstarted := true } := by
  rcases handled_reign hreq with hr | ⟨hflag, rfl⟩ | ⟨args, hdata, rfl⟩
  · exact Or.inl hr
  · have hctlr := h.governed.flagged c hc hflag
    obtain rfl := ((h.controller c).mp hctlr).1
    exact Or.inr ⟨hflag, hctlr, rfl⟩
  · have hnot : s.wm.controller ≠ some c := by
      intro hctlr
      obtain rfl := ((h.controller c).mp hctlr).1
      exact (hrule.1 rfl).endcontrol (congrArg List.head? hdata)
    rw [endcontrolRequest, if_pos hnot]
    exact Or.inl .rfl'

/-- A departure ends with an election. -/
theorem reports_election (tk : Bar.Tk) (env : Env) (h : Settled t s) (hc : s.Live c) (hct : c ≠ t) :
    Reports tk t (fun a => a < s.wm.z.refs ∧ a ∉ c :: s.left) (s.wm.departing .tabswin c)
      (s.wm.onLeave .tabswin env c) := by
  obtain ⟨hclient, -, hctlr⟩ := departing_frame .tabswin s.wm c
  have hlists : Lists (c :: s.left) (fun _ => True) (s.wm.departing .tabswin c) :=
    h.lists.departing hc.2
  have hrefs : (s.wm.departing .tabswin c).z.refs = s.wm.z.refs := by
    have hremove : Placing (fun _ => True) c s.wm (s.wm.remove .tabswin c) := .remove c
    rw [Wm.departing, controlevent_logged]
    exact hremove.refs
  have hsteered : Steered t (s.wm.departing .tabswin c) := by
    intro hstarted
    rw [hclient] at hstarted
    rw [hctlr, h.steered hstarted, forget_of_ne hct]
  have helected : ∀ a ∈ (s.wm.departing .tabswin c).elect, a < s.wm.z.refs ∧ a ∉ c :: s.left := by
    intro a ha
    obtain ⟨hbound, hleft, -⟩ := hlists.mem_order (List.mem_of_find?_eq_some ha)
    exact ⟨hrefs ▸ hbound, hleft⟩
  have hstop : ∀ w : Wm, Reports tk t (fun a => a < s.wm.z.refs ∧ a ∉ c :: s.left) w
      (w.send (.stop c)) := by
    intro w
    refine .logged (.of_forall fun x hx e he => ?_)
    rw [List.mem_singleton.mp hx] at he
    cases he
  rw [onLeave_eq]
  exact (Reports.setfocus hsteered helected).trans (hstop _)

/-- What reports to the toolbar keeps the rules, as long as nobody joins, leaves, or stops being
the controller. -/
theorem Settled.reports (h : Settled t s) (hr : Reports tk t s.Live s.wm w)
    (hgoverned : Governed { s with wm := w }) (hlists : Lists s.left (fun _ => True) w)
    (hrefs : w.z.refs = s.wm.z.refs) (hctlr : w.controller = s.wm.controller)
    (hsteered : Steered t w) : Settled t { s with wm := w } := by
  have hlive : ∀ a, Live { s with wm := w } a ↔ s.Live a := by
    intro a
    rw [Live, Live, hrefs]
  refine ⟨hgoverned, hlists, h.present, ?_, hsteered, ?_, ?_, ?_⟩
  · intro a
    dsimp only
    rw [hctlr]
    exact h.controller a
  · exact fun c hc => hrefs.symm ▸ h.joined c hc
  · intro a c ha hc hid
    rw [hr.id, hr.id] at hid
    exact h.unique a c ((hlive a).mp ha) ((hlive c).mp hc) hid
  · intro c hc
    refine (hlive c).mpr ?_
    rcases hr.kbdfocus c hc with hc | hc
    · exact h.kbdfocus c hc
    · exact hc

/-- The same, when nothing is said about control. -/
theorem Settled.reign (h : Settled t s) (hr : Reports tk t s.Live s.wm w) (hreign : Reign s.wm w)
    (hlists : Lists s.left (fun _ => True) w) : Settled t { s with wm := w } := by
  have hpresent : ∀ c, s.wm.controller = some c → c ∉ s.left :=
    fun c hc => (h.governed.present c hc).1.2
  refine h.reports hr (h.governed.reign hreign (List.Subset.refl _) hpresent) hlists hreign.refs
    hreign.controller ?_
  intro hstarted
  rw [hreign.started] at hstarted
  rw [hreign.controller]
  exact h.steered hstarted

theorem settled_start (t : Cid) (screen : Rect) : Settled t (start screen) where
  governed := start_governed
  lists := ⟨[], Zorder.Standing.empty, fun _ hm => absurd hm List.not_mem_nil⟩
  present := List.not_mem_nil
  controller := fun _ => iff_of_false nofun fun h => absurd h.2 List.not_mem_nil
  steered := fun h => absurd h Bool.false_ne_true
  joined := fun _ hc => absurd hc List.not_mem_nil
  unique := fun _ _ ha => absurd ha.1 (Nat.not_lt_zero _)
  kbdfocus := by rintro c ⟨⟩

theorem settled_opened (h : Settled t s) {id : Nat} (hrule : Orderly tk t s (.opened id)) :
    Settled t { s with wm := s.wm.addclient id } := by
  have hold : ∀ {a}, s.Live a → (s.wm.addclient id).client a = s.wm.client a :=
    fun ha => addclient_of_ne (Nat.ne_of_lt ha.1) id
  have hcases : ∀ {a}, Session.Live { s with wm := s.wm.addclient id } a →
      s.Live a ∨ a = s.wm.z.refs := by
    rintro a ⟨ha, hleft⟩
    rcases Nat.lt_succ_iff_lt_or_eq.mp ha with ha | ha
    · exact Or.inl ⟨ha, hleft⟩
    · exact Or.inr ha
  refine ⟨governed_opened h.governed id, h.lists.opened id, h.present, h.controller, ?_, ?_, ?_,
    ?_⟩
  · intro hstarted
    by_cases ht : t = s.wm.z.refs
    · subst ht
      dsimp only at hstarted
      rw [addclient_self] at hstarted
      cases hstarted
    · dsimp only at hstarted
      rw [addclient_of_ne ht] at hstarted
      exact h.steered hstarted
  · exact fun c hc => Nat.lt_succ_of_lt (h.joined c hc)
  · intro a c ha hc hid
    dsimp only at hid
    rcases hcases ha with ha | rfl
    · rcases hcases hc with hc | rfl
      · rw [hold ha, hold hc] at hid
        exact h.unique a c ha hc hid
      · rw [hold ha, addclient_self] at hid
        exact absurd hid (hrule a ha.1 ha.2)
    · rcases hcases hc with hc | rfl
      · rw [hold hc, addclient_self] at hid
        exact absurd hid.symm (hrule c hc.1 hc.2)
      · rfl
  · intro c hc
    obtain ⟨hbound, hleft⟩ := h.kbdfocus c hc
    exact ⟨Nat.lt_succ_of_lt hbound, hleft⟩

/-- What a client that joins leaves alone. -/
theorem onJoin_frame (w : Wm) (c : Cid) :
    (w.onJoin c).z = w.z ∧ (∀ a, ((w.onJoin c).client a).id = (w.client a).id) ∧
      (∀ a, ((w.onJoin c).client a).controlstarted = (w.client a).controlstarted) ∧
      (w.onJoin c).kbdfocus = w.kbdfocus := by
  have hput : ∀ (w₁ : Wm) {w₂ : Wm} (f : Client → Client), w₂.client = (w₁.put c f).client →
      (∀ cl, (f cl).id = cl.id ∧ (f cl).controlstarted = cl.controlstarted) →
      ∀ a, (w₂.client a).id = (w₁.client a).id ∧
        (w₂.client a).controlstarted = (w₁.client a).controlstarted := by
    intro w₁ w₂ f hclient hf a
    rw [hclient]
    by_cases ha : a = c
    · subst ha
      rw [put_self]
      exact hf _
    · rw [put_of_ne ha]
      exact ⟨rfl, rfl⟩
  have hcursor : ∀ (w₁ : Wm) a, _ := fun w₁ =>
    hput w₁ (fun cl => { cl with cursor := "cursor" }) rfl fun _ => ⟨rfl, rfl⟩
  have hclient : ∀ a, ((w.onJoin c).client a).id = (w.client a).id ∧
      ((w.onJoin c).client a).controlstarted = (w.client a).controlstarted := by
    intro a
    simp only [onJoin]
    split_ifs
    · have hflag := hput (w.ctl c ("rect " ++ r2s w.screen))
        (fun cl => { cl with controller := true }) rfl (fun _ => ⟨rfl, rfl⟩) a
      exact ⟨(hcursor _ a).1.trans hflag.1, (hcursor _ a).2.trans hflag.2⟩
    · rw [controlevent_logged]
      exact hcursor _ a
  refine ⟨(still_onJoin w c).z, fun a => (hclient a).1, fun a => (hclient a).2, ?_⟩
  simp only [onJoin]
  split_ifs
  · rfl
  · rw [controlevent_logged]
    rfl

theorem settled_join (h : Settled t s) (hc : s.Live c) (hnew : c ∉ s.joined)
    (hrule : c ≠ t → t ∈ s.joined) :
    Settled t { s with wm := s.wm.onJoin c, joined := c :: s.joined } := by
  obtain ⟨hz, hid, -, hkbd⟩ := onJoin_frame s.wm c
  have hlive : ∀ a, Live { s with wm := s.wm.onJoin c, joined := c :: s.joined } a ↔ s.Live a := by
    intro a
    rw [Live, Live, hz]
  have hctlr : (s.wm.onJoin c).controller = some t := by
    by_cases hct : c = t
    · subst hct
      exact (onJoin_controller s.wm c (h.allowed hnew)).1
    · have hin := (h.controller t).mpr ⟨rfl, hrule hct⟩
      exact (onJoin_reign s.wm c (h.forbidden hin)).controller.trans hin
  have hjoined : t ∈ c :: s.joined := by
    by_cases hct : c = t
    · exact hct ▸ List.mem_cons_self
    · exact List.mem_cons_of_mem c (hrule hct)
  refine ⟨governed_onJoin h.governed hc _, h.lists.of_z hz, h.present, ?_, fun _ => hctlr, ?_, ?_,
    ?_⟩
  · intro a
    dsimp only
    rw [hctlr]
    exact ⟨fun heq => ⟨(Option.some.inj heq).symm, hjoined⟩, fun heq => heq.1 ▸ rfl⟩
  · intro a ha
    dsimp only
    rw [hz]
    rcases List.mem_cons.mp ha with rfl | ha
    · exact hc.1
    · exact h.joined a ha
  · intro a b ha hb heq
    dsimp only at heq
    rw [hid, hid] at heq
    exact h.unique a b ((hlive a).mp ha) ((hlive b).mp hb) heq
  · intro a ha
    dsimp only at ha
    rw [hkbd] at ha
    exact (hlive a).mpr (h.kbdfocus a ha)

theorem settled_leave (h : Settled t s) (hc : s.Live c) (hct : c ≠ t) :
    Settled t { s with wm := s.wm.onLeave .tabswin env c, left := c :: s.left } := by
  have hnot : s.wm.controller ≠ some c := fun hc => hct ((h.controller c).mp hc).1
  have hr : Reign s.wm (s.wm.onLeave .tabswin env c) := reign_onLeave s.wm c hnot
  have hreports := reports_election (fun _ _ => none) env h hc hct
  obtain ⟨hclient, hkbd, -⟩ := departing_frame .tabswin s.wm c
  have hlive : ∀ a, Live { s with wm := s.wm.onLeave .tabswin env c, left := c :: s.left } a ↔
      a < s.wm.z.refs ∧ a ∉ c :: s.left := by
    intro a
    rw [Live, hr.refs]
  have hold : ∀ a, a < s.wm.z.refs ∧ a ∉ c :: s.left → s.Live a :=
    fun a ha => ⟨ha.1, fun hm => ha.2 (List.mem_cons_of_mem c hm)⟩
  have hpresent : t ∉ c :: s.left := by
    intro hm
    rcases List.mem_cons.mp hm with heq | hm
    · exact hct heq.symm
    · exact h.present hm
  have hlists : Lists (c :: s.left) (fun _ => True) (s.wm.onLeave .tabswin env c) :=
    h.lists.onLeave hc.2
  refine ⟨?_, hlists, hpresent, ?_, ?_, ?_, ?_, ?_⟩
  · refine h.governed.reign hr (List.subset_cons_self c s.left) ?_
    intro a ha
    rwa [((h.controller a).mp ha).1]
  · intro a
    dsimp only
    rw [hr.controller]
    exact h.controller a
  · intro hst
    rw [hr.started] at hst
    exact hr.controller.trans (h.steered hst)
  · intro a ha
    exact hr.refs.symm ▸ h.joined a ha
  · intro a b ha hb heq
    dsimp only at heq
    rw [hreports.id, hreports.id, hclient] at heq
    exact h.unique a b (hold a ((hlive a).mp ha)) (hold b ((hlive b).mp hb)) heq
  · intro a ha
    refine (hlive a).mpr ?_
    rcases hreports.kbdfocus a ha with hbefore | hgets
    · rw [hkbd, forget] at hbefore
      split_ifs at hbefore with hforget
      refine ⟨(h.kbdfocus a hbefore).1, ?_⟩
      intro hm
      rcases List.mem_cons.mp hm with rfl | hm
      · exact hforget hbefore
      · exact (h.kbdfocus a hbefore).2 hm
    · exact hgets

/-- Every turn keeps the rules. -/
theorem step_settled (h : Settled t s) (htk : Harmless tk) (hrule : Orderly tk t s e)
    (hstep : s.step .tabswin env e = some s') : Settled t s' := by
  have hlists : Lists s'.left (fun _ => True) s'.wm :=
    step_lists h.lists (fun _ _ _ _ _ => trivial) hstep
  cases e with
  | opened id =>
    obtain rfl := Option.some.inj hstep
    exact settled_opened h hrule
  | join c =>
    simp only [step] at hstep
    split_ifs at hstep with hc
    obtain rfl := Option.some.inj hstep
    exact settled_join h hc.1 hc.2 hrule
  | leave c =>
    simp only [step] at hstep
    split_ifs at hstep with hc
    obtain rfl := Option.some.inj hstep
    exact settled_leave h hc hrule
  | request c data ptr =>
    simp only [step] at hstep
    split_ifs at hstep with hc
    obtain ⟨⟨w, a⟩, hreq, rfl⟩ := Option.map_eq_some_iff.mp hstep
    have hreports := h.handled htk hc hrule (Wm.handled hreq)
    rcases h.request_reign hc hrule (Wm.handled hreq) with hr | ⟨hflag, hctlr, rfl⟩
    · exact h.reign hreports hr hlists
    · refine h.reports hreports (governed_started h.governed hflag) hlists rfl rfl ?_
      exact fun _ => hctlr
  | key k =>
    obtain rfl := Option.some.inj hstep
    have hkey : Reports tk t s.Live s.wm (s.wm.onKey k) := .onKey k
    exact h.reign hkey (reign_onKey s.wm k) hlists
  | pointer p taken =>
    obtain rfl := Option.some.inj hstep
    have hpointer : Reports tk t s.Live s.wm (s.wm.onPointer .tabswin p taken) :=
      .onPointer h.steered h.live_of_mem p taken
    exact h.reign hpointer (reign_onPointer s.wm p taken) hlists
  | winctl e img =>
    obtain rfl := Option.some.inj hstep
    have hwinctl : Reports tk t s.Live s.wm (s.wm.onWinctl .tabswin env e img) := .onWinctl e img
    exact h.reign hwinctl (reign_onWinctl s.wm e img) hlists

/-- A toolbar that has started control never stops. -/
theorem step_started (h : Settled t s) (hrule : Orderly tk t s e)
    (hstep : s.step .tabswin env e = some s') (hstarted : (s.wm.client t).controlstarted = true) :
    (s'.wm.client t).controlstarted = true := by
  have hctlr := h.steered hstarted
  cases e with
  | opened id =>
    obtain rfl := Option.some.inj hstep
    have hbound := Nat.ne_of_lt (h.governed.present t hctlr).1.1
    dsimp only
    rwa [addclient_of_ne hbound]
  | join c =>
    simp only [step] at hstep
    split_ifs at hstep
    obtain rfl := Option.some.inj hstep
    exact ((onJoin_frame s.wm c).2.2.1 t).trans hstarted
  | leave c =>
    simp only [step] at hstep
    split_ifs at hstep
    obtain rfl := Option.some.inj hstep
    have hnot : s.wm.controller ≠ some c := fun hc => hrule ((h.controller c).mp hc).1
    have hr : Reign s.wm (s.wm.onLeave .tabswin env c) := reign_onLeave s.wm c hnot
    exact (hr.started t).trans hstarted
  | request c data ptr =>
    simp only [step] at hstep
    split_ifs at hstep with hc
    obtain ⟨⟨w, a⟩, hreq, rfl⟩ := Option.map_eq_some_iff.mp hstep
    rcases h.request_reign hc hrule (Wm.handled hreq) with hr | ⟨-, -, rfl⟩
    · exact (hr.started t).trans hstarted
    · dsimp only
      rw [put_self]
  | key k =>
    obtain rfl := Option.some.inj hstep
    exact ((reign_onKey s.wm k).started t).trans hstarted
  | pointer p taken =>
    obtain rfl := Option.some.inj hstep
    exact ((reign_onPointer s.wm p taken).started t).trans hstarted
  | winctl e img =>
    obtain rfl := Option.some.inj hstep
    exact ((reign_onWinctl s.wm e img).started t).trans hstarted

end Session

end Aimsgui
