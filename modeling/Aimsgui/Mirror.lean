import Aimsgui.Settling

/-!
# The tab bar mirrors the manager

`Conveyed` says of two states of the manager that the messages sent in between change a picture
of the first into one of the second; every turn does that (`step_conveyed`), once the toolbar
has started control. So at a `Desk` the toolbar will have the right picture when it has
handled the messages on their way to it (`Synced`), and it has the right picture whenever there
are none (`tabs_mirror`).
-/

namespace Aimsgui

open Toolbar Transition

namespace Session

open Wm

/-- The bar has the tabs that there should be, and what the toolbar has been told about the
keyboard. -/
structure Portrays (t : Cid) (s : Session) (b : Bar) : Prop where
  tabs : ∀ id, id ∈ b.tabs ↔
    ∃ c ∈ s.joined, c ∉ s.left ∧ c ≠ t ∧ id = toString (s.wm.client c).id
  kbdfocus : b.kbdfocus = s.wm.holder t

/-- A bar that portrays `s` will portray `s'` when the toolbar has heard what is sent in between. -/
def Conveyed (tk : Bar.Tk) (t : Cid) (s s' : Session) : Prop :=
  ∃ l, s'.wm.out = s.wm.out ++ l ∧ (∀ e ∈ l.filterMap (mailed t), Steady tk e) ∧
    ∀ b, Portrays t s b → Portrays t s' (hears tk b (l.filterMap (mailed t)))

variable {tk : Bar.Tk} {env : Env} {t c : Cid} {s s' s'' : Session} {b : Bar} {e : Event}
  {who : Cid → Prop} {w : Wm}

theorem Conveyed.trans (h : Conveyed tk t s s') (h' : Conveyed tk t s' s'') :
    Conveyed tk t s s'' := by
  obtain ⟨l, hl, hsteady, hbar⟩ := h
  obtain ⟨l', hl', hsteady', hbar'⟩ := h'
  refine ⟨l ++ l', by rw [hl', hl, List.append_assoc], ?_, ?_⟩
  · intro e he
    rw [List.filterMap_append] at he
    rcases List.mem_append.mp he with he | he
    · exact hsteady e he
    · exact hsteady' e he
  · intro b hb
    rw [List.filterMap_append, hears_append]
    exact hbar' _ (hbar b hb)

/-- Whatever reports to the toolbar conveys the picture, as long as nobody joins or leaves. -/
theorem Conveyed.of_reports (h : Reports tk t who s.wm s'.wm) (hjoined : s'.joined = s.joined)
    (hleft : s'.left = s.left) : Conveyed tk t s s' := by
  obtain ⟨l, hout, hsteady, hsent⟩ := h.sent
  refine ⟨l, hout, hsteady, ?_⟩
  intro b hb
  obtain ⟨htabs, hkbd⟩ := hsent b hb.kbdfocus
  refine ⟨?_, hkbd⟩
  intro id
  rw [htabs, hb.tabs, hjoined, hleft]
  simp only [h.id]

/-- The toolbar is told about a client that leaves before anything else. -/
theorem conveyed_departing (h : Settled t s) (hc : s.Live c) (hjoined : c ∈ s.joined)
    (hct : c ≠ t) (hstarted : (s.wm.client t).controlstarted = true) :
    Conveyed tk t s { s with wm := s.wm.departing .tabswin c, left := c :: s.left } := by
  have hctlr : (s.wm.forgetting .tabswin c).controller = some t := by
    rw [← forget_of_ne hct, ← h.steered hstarted]
    rfl
  have hmail : ((s.wm.forgetting .tabswin c).event
      ("delclient " ++ toString (s.wm.client c).id)).filterMap (mailed t) =
        ["delclient " ++ toString (s.wm.client c).id] := by
    rw [mailed_event fun _ => hctlr]
    exact if_pos hstarted
  refine ⟨(s.wm.forgetting .tabswin c).event ("delclient " ++ toString (s.wm.client c).id), ?_,
    ?_, ?_⟩
  · rw [Wm.departing, controlevent_logged]
    rfl
  · intro e he
    rw [hmail] at he
    rw [List.mem_singleton.mp he]
    exact steady_delclient _
  · intro b hb
    have hhas : toString (s.wm.client c).id ∈ b.tabs :=
      (hb.tabs _).mpr ⟨c, hjoined, hc.2, hct, rfl⟩
    obtain ⟨hclient, hkbd, -⟩ := departing_frame .tabswin s.wm c
    rw [hmail, hears, List.foldl_cons, List.foldl_nil, hear_delclient, Bar.clientDel, if_pos hhas]
    refine ⟨?_, ?_⟩
    · intro id
      simp only [List.mem_filter, decide_eq_true_eq, hb.tabs, hclient, List.mem_cons, not_or]
      constructor
      · rintro ⟨⟨a, ha, hleft, hat, rfl⟩, hne⟩
        exact ⟨a, ha, ⟨fun hac => hne (hac ▸ rfl), hleft⟩, hat, rfl⟩
      · rintro ⟨a, ha, ⟨hac, hleft⟩, hat, rfl⟩
        refine ⟨⟨a, ha, hleft, hat, rfl⟩, ?_⟩
        exact fun hname => hac (h.name_injective ⟨h.joined a ha, hleft⟩ hc hname)
    · have hname : b.kbdfocus = s.wm.kbdfocus.map fun a => toString (s.wm.client a).id := by
        rw [hb.kbdfocus, holder, if_pos hstarted]
      rw [holder, hclient, if_pos hstarted, hkbd]
      dsimp only
      rw [hname]
      cases hold : s.wm.kbdfocus with
      | none => rfl
      | some a =>
        by_cases hac : a = c
        · subst hac
          rw [Option.map_some, if_pos rfl, forget, if_pos rfl, Option.map_none]
        · have hne : toString (s.wm.client a).id ≠ toString (s.wm.client c).id :=
            fun heq => hac (h.name_injective (h.kbdfocus a hold) hc heq)
          rw [Option.map_some, if_neg fun heq => hne (Option.some.inj heq), forget,
            if_neg fun heq => hac (Option.some.inj heq), Option.map_some]

/-- The toolbar makes a tab for a new client. -/
theorem conveyed_newclient (tk : Bar.Tk) (hsteered : Steered t s.wm)
    (hstarted : (s.wm.client t).controlstarted = true) (hleft : c ∉ s.left) (hct : c ≠ t) :
    Conveyed tk t s
      { s with
        wm := s.wm.controlevent ("newclient " ++ toString (s.wm.client c).id)
        joined := c :: s.joined } := by
  have hmail : (s.wm.event ("newclient " ++ toString (s.wm.client c).id)).filterMap (mailed t) =
      ["newclient " ++ toString (s.wm.client c).id] := by
    rw [mailed_event hsteered, if_pos hstarted]
  rw [controlevent_logged]
  refine ⟨_, rfl, ?_, ?_⟩
  · intro e he
    rw [hmail] at he
    rw [List.mem_singleton.mp he]
    exact steady_newclient _
  · intro b hb
    rw [hmail, hears, List.foldl_cons, List.foldl_nil, hear_newclient]
    have htabs : ∀ id, id ∈ (b.clientNew (toString (s.wm.client c).id)).tabs ↔
        id = toString (s.wm.client c).id ∨ id ∈ b.tabs := by
      intro id
      rw [Bar.clientNew]
      split_ifs with hhas
      · exact ⟨Or.inr, fun h => h.elim (fun heq => heq ▸ hhas) fun h => h⟩
      · exact List.mem_cons
    refine ⟨?_, ?_⟩
    · intro id
      rw [htabs, hb.tabs]
      constructor
      · rintro (rfl | ⟨a, ha, hrest⟩)
        · exact ⟨c, List.mem_cons_self, hleft, hct, rfl⟩
        · exact ⟨a, List.mem_cons_of_mem c ha, hrest⟩
      · rintro ⟨a, ha, hrest⟩
        rcases List.mem_cons.mp ha with rfl | ha
        · exact Or.inl hrest.2.2
        · exact Or.inr ⟨a, ha, hrest⟩
    · have hkbd : (b.clientNew (toString (s.wm.client c).id)).kbdfocus = b.kbdfocus := by
        rw [Bar.clientNew]
        split_ifs <;> rfl
      exact hkbd.trans hb.kbdfocus

/-- The toolbar is told about a client that joins. -/
theorem conveyed_join (h : Settled t s) (hc : s.Live c) (hnew : c ∉ s.joined)
    (hrule : c ≠ t → (s.wm.client t).controlstarted = true) :
    Conveyed tk t s { s with wm := s.wm.onJoin c, joined := c :: s.joined } := by
  have hrect : Reports tk t (fun _ => True) s.wm (s.wm.ctl c ("rect " ++ r2s s.wm.screen)) :=
    .logged (.ctl (neutral_rect _))
  by_cases hct : c = t
  · subst hct
    have hallow := h.allowed hnew
    have hflag : ∀ w : Wm, Reports tk c (fun _ => True) w
        (w.put c fun cl => { cl with controller := true }) := fun _ => .put fun _ => ⟨rfl, rfl⟩
    have hseat : ∀ w : Wm, Reports tk c (fun _ => True) w
        { w with controller := some c, allowcontrol := false } :=
      fun _ => .silent (fun _ => ⟨rfl, rfl⟩) rfl rfl
    have hreports : Reports tk c (fun _ => True) s.wm (s.wm.onJoin c) := by
      simp only [onJoin]
      split_ifs
      · exact ((hrect.trans (hflag _)).trans (hseat _)).trans (.put fun _ => ⟨rfl, rfl⟩)
      · exact absurd hallow ‹_›
    obtain ⟨l, hout, hsteady, hbar⟩ : Conveyed tk c s { s with wm := s.wm.onJoin c } :=
      .of_reports hreports rfl rfl
    refine ⟨l, hout, hsteady, ?_⟩
    intro b hb
    obtain ⟨htabs, hkbd⟩ := hbar b hb
    refine ⟨?_, hkbd⟩
    intro id
    rw [htabs]
    constructor
    · rintro ⟨a, ha, hrest⟩
      exact ⟨a, List.mem_cons_of_mem c ha, hrest⟩
    · rintro ⟨a, ha, hleft, hac, rfl⟩
      rcases List.mem_cons.mp ha with rfl | ha
      · exact absurd rfl hac
      · exact ⟨a, ha, hleft, hac, rfl⟩
  · have hstarted := hrule hct
    have hallow := Bool.eq_false_iff.mp (h.forbidden (h.steered hstarted))
    have hgreeted : Conveyed tk t s { s with wm := s.wm.ctl c ("rect " ++ r2s s.wm.screen) } :=
      .of_reports hrect rfl rfl
    have htab := conveyed_newclient tk
      (s := { s with wm := s.wm.ctl c ("rect " ++ r2s s.wm.screen) }) h.steered hstarted hc.2 hct
    have honJoin : s.wm.onJoin c =
        ((s.wm.ctl c ("rect " ++ r2s s.wm.screen)).controlevent
          ("newclient " ++ toString (s.wm.client c).id)).put c fun cl =>
            { cl with cursor := "cursor" } := by
      have hallow' : ¬ (s.wm.ctl c ("rect " ++ r2s s.wm.screen)).allowcontrol = true := hallow
      simp only [onJoin]
      rw [if_neg hallow']
      rfl
    have hcursor : Reports tk t (fun _ => True)
        ((s.wm.ctl c ("rect " ++ r2s s.wm.screen)).controlevent
          ("newclient " ++ toString (s.wm.client c).id)) (s.wm.onJoin c) := by
      rw [honJoin]
      exact .put fun _ => ⟨rfl, rfl⟩
    exact hgreeted.trans (htab.trans (.of_reports hcursor rfl rfl))

/-- A client that has not been there before changes nothing. -/
theorem conveyed_opened (h : Settled t s) (id : Nat) :
    Conveyed tk t s { s with wm := s.wm.addclient id } := by
  have hold : ∀ {a}, a < s.wm.z.refs → (s.wm.addclient id).client a = s.wm.client a :=
    fun ha => addclient_of_ne (Nat.ne_of_lt ha) id
  have hholder : (s.wm.addclient id).holder t = s.wm.holder t := by
    have hkbd : (s.wm.addclient id).kbdfocus = s.wm.kbdfocus := rfl
    have hname : s.wm.kbdfocus.map (fun a => toString ((s.wm.addclient id).client a).id) =
        s.wm.kbdfocus.map fun a => toString (s.wm.client a).id := by
      cases hfocus : s.wm.kbdfocus with
      | none => rfl
      | some a => rw [Option.map_some, Option.map_some, hold (h.kbdfocus a hfocus).1]
    rw [holder, holder, hkbd, hname]
    by_cases hbound : t < s.wm.z.refs
    · rw [hold hbound]
    · -- the toolbar has not been there before, or is not there yet
      have hbefore : (s.wm.client t).controlstarted ≠ true :=
        fun hst => hbound (h.governed.present t (h.steered hst)).1.1
      have hafter : ((s.wm.addclient id).client t).controlstarted ≠ true := by
        by_cases ht : t = s.wm.z.refs
        · subst ht
          rw [addclient_self]
          exact Bool.false_ne_true
        · rwa [addclient_of_ne ht]
      rw [if_neg hbefore, if_neg hafter]
  refine ⟨[], (List.append_nil _).symm, fun _ he => absurd he List.not_mem_nil, ?_⟩
  intro b hb
  refine ⟨?_, hb.kbdfocus.trans hholder.symm⟩
  intro name
  refine (hb.tabs name).trans (exists_congr fun a => and_congr_right fun ha => ?_)
  rw [hold (h.joined a ha)]

/-- Nobody but the toolbar has joined, until it has started control. -/
def Prompt (t : Cid) (s : Session) : Prop :=
  ∀ c ∈ s.joined, c ≠ t → (s.wm.client t).controlstarted = true

/-- A turn conveys the picture, if nobody joins too early, and nobody leaves that has not
joined. -/
theorem step_conveyed (h : Settled t s) (hprompt : Prompt t s) (htk : Harmless tk)
    (hrule : Orderly tk t s e)
    (hjoin : ∀ c, e = .join c → c ≠ t → (s.wm.client t).controlstarted = true)
    (hleave : ∀ c, e = .leave c → c ∈ s.joined) (hstep : s.step .tabswin env e = some s') :
    Conveyed tk t s s' := by
  cases e with
  | opened id =>
    obtain rfl := Option.some.inj hstep
    exact conveyed_opened h id
  | join c =>
    simp only [step] at hstep
    split_ifs at hstep with hc
    obtain rfl := Option.some.inj hstep
    exact conveyed_join h hc.1 hc.2 (hjoin c rfl)
  | leave c =>
    simp only [step] at hstep
    split_ifs at hstep with hc
    obtain rfl := Option.some.inj hstep
    have hjoined := hleave c rfl
    exact (conveyed_departing h hc hjoined hrule (hprompt c hjoined hrule)).trans
      (.of_reports (reports_election tk env h hc hrule) rfl rfl)
  | request c data ptr =>
    simp only [step] at hstep
    split_ifs at hstep with hc
    obtain ⟨⟨w, a⟩, hreq, rfl⟩ := Option.map_eq_some_iff.mp hstep
    exact .of_reports (h.handled htk hc hrule (Wm.handled hreq)) rfl rfl
  | key k =>
    obtain rfl := Option.some.inj hstep
    have hkey : Reports tk t s.Live s.wm (s.wm.onKey k) := .onKey k
    exact .of_reports hkey rfl rfl
  | pointer p taken =>
    obtain rfl := Option.some.inj hstep
    exact .of_reports (.onPointer h.steered h.live_of_mem p taken) rfl rfl
  | winctl e img =>
    obtain rfl := Option.some.inj hstep
    have hwinctl : Reports tk t s.Live s.wm (s.wm.onWinctl .tabswin env e img) := .onWinctl e img
    exact .of_reports hwinctl rfl rfl

/-- When somebody else joins, the toolbar has started control. -/
theorem step_prompt (h : Settled t s) (hprompt : Prompt t s) (hrule : Orderly tk t s e)
    (hjoin : ∀ c, e = .join c → c ≠ t → (s.wm.client t).controlstarted = true)
    (hstep : s.step .tabswin env e = some s') : Prompt t s' := by
  intro c hc hct
  apply step_started h hrule hstep
  rcases step_joined hstep with heq | ⟨a, rfl, -, heq⟩
  · exact hprompt c (heq ▸ hc) hct
  · rcases List.mem_cons.mp (heq ▸ hc) with rfl | hc
    · exact hjoin c rfl hct
    · exact hprompt c hc hct

end Session

namespace Desk

open Session Wm

/-- When the toolbar will have handled the messages for it, it has the right picture. -/
structure Synced (tk : Bar.Tk) (t : Cid) (d : Desk) : Prop where
  settled : Settled t d.session
  prompt : Prompt t d.session
  handled : d.handled ≤ (d.session.wm.mail t).length
  steady : ∀ e ∈ d.pending t, Steady tk e
  portrays : Portrays t d.session (hears tk d.bar (d.pending t))

variable {tk : Bar.Tk} {env : Env} {t : Cid} {d d' : Desk} {x : Happening} {xs : List Happening}
  {screen : Rect}

theorem start_synced : (start screen).Synced tk t where
  settled := settled_start t screen
  prompt := fun _ hc => absurd hc List.not_mem_nil
  handled := le_rfl
  steady := fun _ he => absurd he List.not_mem_nil
  portrays :=
    { tabs := fun _ => iff_of_false List.not_mem_nil fun ⟨_, hc, _⟩ => absurd hc List.not_mem_nil
      kbdfocus := rfl }

/-- The manager has taken a turn. -/
theorem Synced.turn (h : d.Synced tk t) (htk : Harmless tk) {e : Event} {s : Session}
    (todo : List Request) (hrule : Orderly tk t d.session e)
    (hjoin : ∀ c, e = .join c → c ≠ t → (d.session.wm.client t).controlstarted = true)
    (hleave : ∀ c, e = .leave c → c ∈ d.session.joined)
    (hstep : d.session.step .tabswin env e = some s) :
    Synced tk t { d with session := s, todo := todo } := by
  obtain ⟨l, hout, hsteady, hbar⟩ := step_conveyed h.settled h.prompt htk hrule hjoin hleave hstep
  have hmail := mail_append hout t
  have hpending : pending t { d with session := s, todo := todo } =
      d.pending t ++ l.filterMap (mailed t) := by
    rw [pending, pending, hmail, List.drop_append_of_le_length h.handled]
  refine ⟨step_settled h.settled htk hrule hstep, step_prompt h.settled h.prompt hrule hjoin hstep,
    ?_, ?_, ?_⟩
  · dsimp only
    rw [hmail, List.length_append]
    exact h.handled.trans (Nat.le_add_right _ _)
  · intro e he
    rw [hpending] at he
    rcases List.mem_append.mp he with he | he
    · exact h.steady e he
    · exact hsteady e he
  · rw [hpending, hears_append]
    exact hbar _ h.portrays

/-- The requests of the toolbar keep the rules. -/
theorem orderly_request (s : Session) (r : Request) (ptr : List Pointer) :
    Orderly tk t s (.request t r.text ptr) := by
  have hwords : unquoted r.text = "ctl" :: r.id :: r.order.words := by
    rw [Request.text, unquoted_quoted]
  refine ⟨fun _ => ⟨?_, ?_, ?_⟩, ?_⟩
  · intro id msg msgs hreq
    rw [hwords] at hreq
    have horder : r.order.words = msg :: msgs := (List.cons.inj (List.cons.inj hreq).2).2
    have htext : unquoted (quoted (msg :: msgs)) = msg :: msgs := unquoted_quoted _
    refine neutral_own htext ?_
    cases hr : r.order <;> rw [hr] at horder <;> rw [← (List.cons.inj horder).1] <;> decide
  · intro hend
    rw [hwords] at hend
    exact absurd (Option.some.inj hend) (by decide)
  · intro hreq
    rw [hwords] at hreq
    exact absurd (List.cons.inj hreq).1 (by decide)
  · intro icon hicon
    rw [Desk.icon, hwords] at hicon
    cases hicon

/-- What the rules ask of the turns of the manager. -/
theorem orderly_of_ruled {e : Event} (h : Settled t d.session) (hrule : Ruled t d (.turn e))
    (htame : Tame t d (.turn e)) : Orderly tk t d.session e := by
  cases e with
  | join c =>
    intro hct
    exact ((h.controller t).mp (h.steered (hrule hct))).2
  | leave c => exact hrule.1
  | request c data ptr =>
    refine ⟨?_, htame.2⟩
    intro hc
    obtain ⟨-, hctl, hend⟩ := hrule hc
    refine ⟨?_, hend, htame.1 hc⟩
    intro id msg msgs hreq
    exact absurd (congrArg List.head? hreq) hctl
  | opened | key | pointer | winctl => exact hrule

/-- Everything that happens keeps the picture right. -/
theorem step_synced (h : d.Synced tk t) (htk : Harmless tk) (hrule : Ruled t d x)
    (htame : Tame t d x) (hstep : step tk env t d x = some d') : d'.Synced tk t := by
  cases x with
  | turn e =>
    obtain ⟨s, hturn, rfl⟩ := Option.map_eq_some_iff.mp hstep
    refine h.turn htk d.todo (orderly_of_ruled h.settled hrule htame) ?_ ?_ hturn
    · rintro c rfl
      exact hrule
    · rintro c rfl
      exact hrule.2
  | take =>
    rw [step] at hstep
    split_ifs at hstep with htodo
    cases hpending : d.pending t with
    | nil =>
      rw [hpending] at hstep
      cases hstep
    | cons e es =>
      rw [hpending] at hstep
      obtain ⟨call, hcall, rfl⟩ := Option.map_eq_some_iff.mp hstep
      have hrest : (d.session.wm.mail t).drop (d.handled + 1) = es := by
        rw [← List.tail_drop]
        exact congrArg List.tail hpending
      -- the message leaves what is pending, and has been heard
      have hhear : (d.bar.call tk call).1 = hear tk d.bar e := by rw [hear, hcall]
      have hlen : d.handled + 1 ≤ (d.session.wm.mail t).length := by
        have hpos := congrArg List.length hpending
        rw [pending, List.length_drop, List.length_cons] at hpos
        omega
      have hsteady := h.steady
      have hportrays := h.portrays
      rw [hpending] at hsteady hportrays
      refine ⟨h.settled, h.prompt, hlen, ?_, ?_⟩
      · rw [pending, hrest]
        exact fun a ha => hsteady a (List.mem_cons_of_mem e ha)
      · rw [pending, hrest, hhear]
        exact hportrays
  | click id =>
    rw [step] at hstep
    split_ifs at hstep with hid
    obtain rfl := Option.some.inj hstep
    -- a click on a tab changes its looks only
    have halike : Alike (d.bar.clientFocus id).1 d.bar := by
      rw [Bar.clientFocus]
      split_ifs <;> exact ⟨rfl, rfl⟩
    obtain ⟨htabs, hkbd⟩ := hears_alike h.steady halike
    refine ⟨h.settled, h.prompt, h.handled, h.steady, ?_, ?_⟩
    · intro name
      exact (iff_of_eq (congrArg (name ∈ ·) htabs)).trans (h.portrays.tabs name)
    · exact hkbd.trans h.portrays.kbdfocus
  | close id =>
    rw [step] at hstep
    split_ifs at hstep
    obtain rfl := Option.some.inj hstep
    -- a request to leave waits for the manager to pass it on
    exact ⟨h.settled, h.prompt, h.handled, h.steady, h.portrays⟩
  | serve =>
    rw [step] at hstep
    split at hstep
    · cases hstep
    · rename_i r rs htodo
      obtain ⟨s, hturn, rfl⟩ := Option.map_eq_some_iff.mp hstep
      refine h.turn htk rs (orderly_request _ r []) ?_ ?_ hturn
      · rintro c ⟨⟩
      · rintro c ⟨⟩

/-- In every run in which nobody has the keyboard when the toolbar starts control, and in which no
icon has a name that makes Tk carry out another command, a toolbar that has handled all its
messages shows the clients that have joined and not left, and knows who has the keyboard. -/
theorem tabs_mirror (htk : Harmless tk)
    (h : Run (Guarded (fun d x => Ruled t d x ∧ Tame t d x) (StepOf (step tk env t)))
      (start screen) xs d) (hidle : Idle t d) : Mirrors t d.session d.bar := by
  have hsynced : d.Synced tk t := by
    refine h.invariant start_synced ?_
    rintro d x d' hd ⟨⟨hrule, htame⟩, hstep⟩
    exact step_synced hd htk hrule htame hstep
  have hportrays := hsynced.portrays
  rw [hidle.2] at hportrays
  refine ⟨hportrays.tabs, ?_⟩
  intro hstarted
  have hkbd := hportrays.kbdfocus
  rwa [holder, if_pos hstarted] at hkbd

/-- A Tk that can destroy frames and knows one bitmap. -/
def smallTk : Bar.Tk := fun b cmd =>
  if ∃ id ∈ b.tabs, cmd = "destroy .toolbar." ++ id then
    some { b with tabs := b.tabs.filter fun id => cmd ≠ "destroy .toolbar." ++ id }
  else if ∃ id ∈ b.tabs,
      cmd = ".toolbar." ++ id ++ ".icon configure -bitmap @/icons/aimsgui/window.bit" then some b
  else none

theorem harmless_smallTk : Harmless smallTk := by
  intro b id opts _
  have hdestroy : ¬ ∃ id' ∈ b.tabs,
      ".toolbar." ++ toString id ++ ".icon configure " ++ opts = "destroy .toolbar." ++ id' := by
    rintro ⟨id', -, heq⟩
    have hhead := congrArg (fun s => s.toList.head?) heq
    simp only [String.toList_append, List.append_assoc] at hhead
    exact absurd (Option.some.inj hhead) (by decide)
  rw [smallTk, if_neg hdestroy]
  split_ifs
  · exact Or.inr rfl
  · exact Or.inl rfl

/-- The toolbar starts control, two clients join, and the first one starts the keyboard. -/
def openTwo : List Happening :=
  [.turn (.opened 0), .turn (.join 0), .turn (.request 0 "start control" []), .take,
    .turn (.opened 1), .turn (.join 1), .turn (.opened 2), .turn (.join 2), .take, .take]

/-- The client with the keyboard leaves, and its tab is gone. -/
theorem tabs_mirror_leave :
    ∃ d, Run (Guarded (fun d x => Ruled 0 d x ∧ Tame 0 d x) (StepOf (step smallTk default 0)))
        (start ⟨⟨0, 0⟩, ⟨800, 600⟩⟩)
        (openTwo ++ [.turn (.request 1 "start kbd" []), .take, .turn (.leave 1), .take, .serve]) d ∧
      d.bar.tabs = ["2"] ∧ d.bar.kbdfocus = none ∧ Mirrors 0 d.session d.bar := by
  obtain ⟨d, hrun, hidle, htabs, hkbd⟩ : ∃ d,
      Run (Guarded (fun d x => Ruled 0 d x ∧ Tame 0 d x) (StepOf (step smallTk default 0)))
        (start ⟨⟨0, 0⟩, ⟨800, 600⟩⟩)
        (openTwo ++ [.turn (.request 1 "start kbd" []), .take, .turn (.leave 1), .take, .serve]) d ∧
      Idle 0 d ∧ d.bar.tabs = ["2"] ∧ d.bar.kbdfocus = none :=
    Run.exists_of_execGuarded (by decide +kernel)
  exact ⟨d, hrun, htabs, hkbd, tabs_mirror harmless_smallTk hrun hidle⟩

/-- The name of an icon makes Tk destroy the tab of another client. -/
theorem icon_destroys_tab :
    Harmless smallTk ∧ ∃ d, Run (Guarded (Ruled 0) (StepOf (step smallTk default 0)))
        (start ⟨⟨0, 0⟩, ⟨800, 600⟩⟩)
        (openTwo ++
          [.turn (.request 1 "clienticon 'window.bit;destroy .toolbar.2;'" []), .take]) d ∧
      Idle 0 d ∧ (d.session.wm.client 0).controlstarted = true ∧ ¬ Mirrors 0 d.session d.bar := by
  refine ⟨harmless_smallTk, ?_⟩
  obtain ⟨d, hrun, hidle, hstarted, hjoined, hleft, hname, htabs⟩ : ∃ d,
      Run (Guarded (Ruled 0) (StepOf (step smallTk default 0))) (start ⟨⟨0, 0⟩, ⟨800, 600⟩⟩)
        (openTwo ++
          [.turn (.request 1 "clienticon 'window.bit;destroy .toolbar.2;'" []), .take]) d ∧
      Idle 0 d ∧ (d.session.wm.client 0).controlstarted = true ∧ 2 ∈ d.session.joined ∧
        2 ∉ d.session.left ∧ "2" = toString (d.session.wm.client 2).id ∧ "2" ∉ d.bar.tabs :=
    Run.exists_of_execGuarded (by decide +kernel)
  refine ⟨d, hrun, hidle, hstarted, fun h => htabs ((h.tabs "2").mpr ?_)⟩
  exact ⟨2, hjoined, hleft, by decide, hname⟩

/-- A client has the keyboard before the toolbar starts control, and the toolbar does not hear
of it. -/
theorem early_focus_unheard :
    ∃ d, Run (Guarded (Ruled 0) (StepOf (step smallTk default 0))) (start ⟨⟨0, 0⟩, ⟨800, 600⟩⟩)
        [.turn (.opened 0), .turn (.join 0), .turn (.opened 1),
          .turn (.request 1 "start kbd" []), .turn (.request 0 "start control" []), .take] d ∧
      Idle 0 d ∧ (d.session.wm.client 0).controlstarted = true ∧ ¬ Mirrors 0 d.session d.bar := by
  obtain ⟨d, hrun, hidle, hstarted, hkbd, hbar⟩ : ∃ d,
      Run (Guarded (Ruled 0) (StepOf (step smallTk default 0))) (start ⟨⟨0, 0⟩, ⟨800, 600⟩⟩)
        [.turn (.opened 0), .turn (.join 0), .turn (.opened 1),
          .turn (.request 1 "start kbd" []), .turn (.request 0 "start control" []), .take] d ∧
      Idle 0 d ∧ (d.session.wm.client 0).controlstarted = true ∧
        d.session.wm.kbdfocus = some 1 ∧ d.bar.kbdfocus = none :=
    Run.exists_of_execGuarded (by decide +kernel)
  refine ⟨d, hrun, hidle, hstarted, fun h => ?_⟩
  have hsame := h.kbdfocus hstarted
  rw [hkbd, hbar] at hsame
  cases hsame

end Desk

end Aimsgui
