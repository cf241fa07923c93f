import Aimsgui.Stowing

/-!
# Buttons and windows match

What is left of the steps of a `Tray`: clients come and go, programs and the toolbar handle their
messages, and somebody clicks on a button. All steps keep the deals balanced (`step_fair`), and so
the buttons are those of the windows that have been put away whenever nobody has anything left to
do (`buttons_match`).
-/

namespace Aimsgui

open Topbar Transition
open Custody (Slip Deal final owed)
open Toolbar (Request)

namespace Tray

open Session Wm

variable {env : Env} {t c z : Cid} {d d' : Tray} {s s' : Session} {e id : String} {w : Wm}
  {screen : Rect} {f : Call} {x : Doing} {xs : List Doing}

/-! ## Clients come and go -/

/-- The news of a departure, for a toolbar that has started control. -/
theorem delivers_leave (env : Env) (h : Headed t d.session) (hct : c ≠ t) :
    Delivers d.session.wm (d.session.wm.onLeave .topwin env c)
      (if (d.session.wm.client t).controlstarted then
        some (t, "delclient " ++ toString (d.session.wm.client c).id) else none) := by
  have hhums : Hums (d.session.wm.departing .topwin c) (d.session.wm.onLeave .topwin env c) :=
    .onLeave _ _
  have hforget : (d.session.wm.forgetting .topwin c).controller = forget c d.session.wm.controller :=
    rfl
  rw [Wm.departing] at hhums
  cases hst : (d.session.wm.client t).controlstarted with
  | true =>
    rw [if_pos rfl]
    have hctlr : (d.session.wm.forgetting .topwin c).controller = some t := by
      rw [hforget, h.steered hst, forget_of_ne hct]
    have hevent : (d.session.wm.forgetting .topwin c).controlevent
        ("delclient " ++ toString (d.session.wm.client c).id) =
          (d.session.wm.forgetting .topwin c).ctl t
            ("delclient " ++ toString (d.session.wm.client c).id) := by
      simp only [controlevent, hctlr]
      exact if_pos hst
    rw [hevent] at hhums
    exact hhums.delivers_ctl
  | false =>
    rw [if_neg Bool.false_ne_true]
    have hevent : (d.session.wm.forgetting .topwin c).controlevent
        ("delclient " ++ toString (d.session.wm.client c).id) =
          d.session.wm.forgetting .topwin c := by
      rw [controlevent.eq_def]
      split
      · rename_i ctlr hctlr
        rw [hforget] at hctlr
        have hbefore : d.session.wm.controller = some ctlr := by
          rw [forget] at hctlr
          split_ifs at hctlr
          exact hctlr
        obtain rfl := ((h.controller ctlr).mp hbefore).1
        rw [if_neg]
        exact Bool.eq_false_iff.mp hst
      · rfl
    rw [hevent] at hhums
    exact hhums.delivers

/-- A client leaves. -/
theorem Fair.leave (h : Fair t d) (hct : c ≠ t)
    (hstep : d.session.step .topwin env (.leave c) = some s') : Fair t { d with session := s' } := by
  have hobeys : Obeys t d.session (.leave c) := hct
  have hturned := step_turned h.headed hobeys (fun _ => nofun) hstep
  have hheaded := step_headed h.headed hobeys hstep
  simp only [Session.step] at hstep
  split_ifs at hstep with hc
  obtain rfl := Option.some.inj hstep
  have hsent := delivers_leave env h.headed hct
  have hlive : ∀ z, Session.Live { d.session with
      wm := d.session.wm.onLeave .topwin env c, left := c :: d.session.left } z →
        d.session.Live z ∧ z ≠ c := by
    intro z hz
    refine ⟨⟨hturned.refs ▸ hz.1, fun hm => hz.2 (List.mem_cons_of_mem c hm)⟩, ?_⟩
    exact fun hzc => hz.2 (hzc ▸ List.mem_cons_self)
  -- what the toolbar is told concerns the button of the one that has left
  have hnote : ∀ id, (letterFor (if (d.session.wm.client t).controlstarted then
      some (t, "delclient " ++ toString (d.session.wm.client c).id) else none) t).filterMap
        (note id) = if (d.session.wm.client t).controlstarted = true ∧ d.name c = id then
          [.withdraw] else [] := by
    intro id
    cases (d.session.wm.client t).controlstarted with
    | true =>
      simp only [if_true, letterFor, List.filterMap_cons, note_delclient, List.filterMap_nil,
        true_and]
      change _ = if toString (d.session.wm.client c).id = id then _ else _
      split_ifs <;> rfl
    | false =>
      rw [if_neg Bool.false_ne_true, if_neg fun hst => Bool.false_ne_true hst.1]
      rfl
  have hletter : ∀ z, z ≠ t → letterFor (if (d.session.wm.client t).controlstarted then
      some (t, "delclient " ++ toString (d.session.wm.client c).id) else none) z = [] := by
    intro z hzt
    split_ifs
    · exact if_neg (Ne.symm hzt)
    · rfl
  -- so the others' deals stay
  have hdeal : ∀ z, d.session.Live z → z ≠ c → z ≠ t → deal t { d with session := { d.session with
      wm := d.session.wm.onLeave .topwin env c, left := c :: d.session.left } } z = d.deal t z := by
    intro z hz hzc hzt
    have hname : d.name c ≠ d.name z :=
      fun heq => hzc (name_injective h.headed hz hc heq.symm)
    have hd := deal_turn d.asks d.away h.toSound hturned hsent z
    rw [hnote, if_neg fun hst => hname hst.2, hletter z hzt] at hd
    simp only [List.append_nil, List.countP_nil, Nat.add_zero] at hd
    exact hd
  refine h.turned _ _ hturned hheaded hsent ?_ (fun _ => List.Subset.refl _)
    (fun z hz => (h.fresh z hz).1) ?_ ?_ ?_ ?_
  · intro y hy
    split_ifs at hy
    · obtain rfl := Option.some.inj hy
      exact .delclient _
    · cases hy
  · intro z hz hzt _
    obtain ⟨hz, hzc⟩ := hlive z hz
    rw [hdeal z hz hzc hzt]
    exact h.balanced z hz hzt
  · intro z hz hzt horder
    obtain ⟨hz, hzc⟩ := hlive z hz
    rw [hdeal z hz hzc hzt]
    exact h.hidden z hz hzt horder
  · intro n hn
    rw [hnote]
    -- the id of the one that has left is free from now on, and its button is on the way out
    by_cases hname : d.name c = toString n
    · by_cases hst : (d.session.wm.client t).controlstarted = true
      · rw [if_pos ⟨hst, hname⟩]
        exact Custody.final_snoc _
      · rw [if_neg fun h => hst h.1, ((h.early hst).1 n).1, ((h.early hst).1 n).2]
        rfl
    · rw [if_neg fun h => hname h.2, List.append_nil]
      refine h.absent n fun z hz hzt => ?_
      by_cases hzc : z = c
      · subst hzc
        exact fun heq => hname (congrArg toString heq)
      · exact hn z ⟨hturned.refs.symm ▸ hz.1, fun hm =>
          (List.mem_cons.mp hm).elim hzc hz.2⟩ hzt
  · intro hst
    have hbefore : ¬ (d.session.wm.client t).controlstarted = true :=
      fun hstarted => hst (hturned.started hstarted)
    exact ⟨fun n => by rw [hnote, if_neg fun h => hbefore h.1], rfl⟩

/-- A record is made. -/
theorem Fair.opened (h : Fair t d) {n : Nat} (hobeys : Obeys t d.session (.opened n)) :
    Fair t { d with session := { d.session with wm := d.session.wm.addclient n } } := by
  have hold : ∀ {z}, z < d.session.wm.z.refs →
      (d.session.wm.addclient n).client z = d.session.wm.client z :=
    fun hz => addclient_of_ne (Nat.ne_of_lt hz) n
  have hcases : ∀ {z}, Session.Live { d.session with wm := d.session.wm.addclient n } z →
      d.session.Live z ∨ z = d.session.wm.z.refs := by
    rintro z ⟨hz, hleft⟩
    rcases Nat.lt_succ_iff_lt_or_eq.mp hz with hz | hz
    · exact Or.inl ⟨hz, hleft⟩
    · exact Or.inr hz
  have hlive : ∀ {z}, d.session.Live z →
      Session.Live { d.session with wm := d.session.wm.addclient n } z :=
    fun hz => ⟨Nat.lt_succ_of_lt hz.1, hz.2⟩
  have horder : (d.session.wm.addclient n).order = d.session.wm.order := by
    obtain ⟨l, hl, -⟩ := h.headed.lists
    have hafter : (d.session.wm.addclient n).order = l := hl.opened.listed.order_eq
    have hbefore : d.session.wm.order = l := hl.listed.order_eq
    rw [hafter, hbefore]
  have hdeal : ∀ z, d.session.Live z →
      deal t { d with session := { d.session with wm := d.session.wm.addclient n } } z =
        d.deal t z := by
    intro z hz
    have hname : name { d with session := { d.session with wm := d.session.wm.addclient n } } z =
        d.name z := congrArg (fun cl : Client => toString cl.id) (hold hz.1)
    rw [deal, hname]
    rfl
  -- nobody has left anything under the new id
  have hclosed : d.session.wm.z.refs ≠ t → (deal t { d with
      session := { d.session with wm := d.session.wm.addclient n } } d.session.wm.z.refs).Closed := by
    intro _
    have hname : name { d with session := { d.session with wm := d.session.wm.addclient n } }
        d.session.wm.z.refs = toString n :=
      congrArg (fun cl : Client => toString cl.id) (addclient_self d.session.wm n)
    rw [Deal.Closed, deal, hname]
    dsimp only
    rw [(h.fresh _ le_rfl).2, List.filterMap_nil, List.append_nil]
    exact h.absent n fun z hz _ => hobeys.2 z hz.1 hz.2
  refine ⟨⟨headed_opened h.headed hobeys, h.heard, h.letters, h.passed, h.civil, h.keys,
    fun z hz => h.fresh z (Nat.le_of_succ_le hz)⟩, ?_, ?_, ?_, ?_⟩
  · intro z hz hzt
    rcases hcases hz with hz | rfl
    · rw [hdeal z hz]
      exact h.balanced z hz hzt
    · exact (hclosed hzt).balanced (congrArg (Option.map condenselabel) (h.fresh _ le_rfl).1)
  · intro z hz hzt hnot
    rcases hcases hz with hz | rfl
    · rw [hdeal z hz]
      exact h.hidden z hz hzt fun hm => hnot (horder.symm ▸ hm)
    · exact ⟨(h.fresh _ le_rfl).1, hclosed hzt⟩
  · intro k hk
    refine h.absent k fun z hz hzt => ?_
    rw [← hold hz.1]
    exact hk z (hlive hz) hzt
  · intro hst
    refine h.early fun hstarted => hst ?_
    have hbound := (h.headed.governed.present t (h.headed.steered hstarted)).1.1
    exact (congrArg Client.controlstarted (hold hbound)).trans hstarted

/-- Any turn of the manager. -/
theorem Fair.turn (h : Fair t d) {e : Event} (hrule : Ruled t d (.turn e))
    (hstep : d.session.step .topwin env e = some s') : Fair t { d with session := s' } := by
  -- a turn that says nothing about buttons
  have hcalm : Obeys t d.session e → (∀ id, e ≠ .opened id) → s'.left = d.session.left →
      Hums d.session.wm s'.wm → Fair t { d with session := s' } := by
    intro hobeys hopened hleft hhums
    exact h.hums d.asks (step_turned h.headed hobeys hopened hstep)
      (step_headed h.headed hobeys hstep) hleft hhums (fun _ => List.Subset.refl _)
      (fun _ _ => rfl) fun _ => rfl
  cases e with
  | opened n =>
    obtain rfl := Option.some.inj hstep
    exact h.opened hrule
  | join c =>
    have hobeys : Obeys t d.session (.join c) := hrule
    simp only [Session.step] at hstep
    split_ifs at hstep
    obtain rfl := Option.some.inj hstep
    exact hcalm hobeys (fun _ heq => by cases heq) rfl (.onJoin _ _)
  | leave c => exact h.leave hrule hstep
  | request c data ptr => exact h.request hrule hstep
  | key k =>
    obtain rfl := Option.some.inj hstep
    exact hcalm trivial (fun _ heq => by cases heq) rfl (.onKey _ _)
  | pointer p taken =>
    obtain rfl := Option.some.inj hstep
    exact hcalm trivial (fun _ heq => by cases heq) rfl (.onPointer _ _ _)
  | winctl e img =>
    obtain rfl := Option.some.inj hstep
    exact hcalm trivial (fun _ heq => by cases heq) rfl (.onWinctl _ _ _)

/-! ## Programs -/

section Passing

variable {heard : Cid → Nat}

/-- Nobody else is going to make another request. -/
theorem asks_passing (hzc : z ≠ c) :
    (passes { d with heard := heard } c e).asks z = d.asks z := Function.update_of_ne hzc _ _

/-- No other window is shown. -/
theorem away_passing (hzc : z ≠ c) :
    (passes { d with heard := heard } c e).away z = d.away z := by
  simp only [Tray.passes]
  split_ifs
  · exact Function.update_of_ne hzc _ _
  · rfl

/-- Nobody else has handled a message. -/
theorem pending_passing (hheard : heard z = d.heard z) :
    pending (passes { d with heard := heard } c e) z = d.pending z := by
  have heq : pending (passes { d with heard := heard } c e) z =
      (d.session.wm.mail z).drop (heard z) := rfl
  rw [heq, hheard]
  rfl

/-- The toolbar has as much news to handle as before. -/
theorem notes_passing (hheard : heard t = d.heard t) :
    notes t (passes { d with heard := heard } c e) id = d.notes t id := by
  rw [notes, pending_passing hheard]
  rfl

/-- What is under way about other windows stays. -/
theorem deal_passing_of_ne (hct : c ≠ t) (hheard : ∀ z, z ≠ c → heard z = d.heard z)
    (hzc : z ≠ c) : deal t (passes { d with heard := heard } c e) z = d.deal t z := by
  rw [deal, notes_passing (hheard t hct.symm), pending_passing (hheard z hzc), asks_passing hzc,
    asks_passing hct.symm, away_passing hzc]
  rfl

/-- If the message shows the window, the program tells the toolbar; if not, nothing changes. -/
theorem deal_passing_self (hct : c ≠ t) (hasks : d.asks c = []) (he : Letter e)
    (hheard : heard t = d.heard t)
    (hcount : Tkclient.qword e ≠ "untask" →
      ((d.session.wm.mail c).drop (heard c)).countP (fun e => Tkclient.qword e = "untask") =
        (d.pending c).countP (fun e => Tkclient.qword e = "untask")) :
    deal t (passes { d with heard := heard } c e) c =
      if Tkclient.qword e = "untask" then
        { left := none
          ticket := d.buttons.lookup (d.name c)
          notes := d.notes t (d.name c) ++ [.withdraw]
          returns := ((d.session.wm.mail c).drop (heard c)).countP
              (fun e => Tkclient.qword e = "untask") +
            (d.asks t).count (Request.text ⟨d.name c, .untask⟩) }
      else d.deal t c := by
  have hname : name (passes { d with heard := heard } c e) c = d.name c := rfl
  have hpassed : ((passes { d with heard := heard } c e).asks c).filterMap (asked (d.name c)) =
      if Tkclient.qword e = "untask" then [.withdraw] else [] := by
    simp only [Tray.passes, Function.update_self]
    exact he.passed
  rw [deal, hname, notes_passing hheard, hpassed, asks_passing hct.symm]
  split_ifs with huntask
  · simp only [Tray.passes, if_pos huntask, Function.update_self, Option.map_none]
    rfl
  · rw [deal, hasks, List.filterMap_nil, ← hcount huntask]
    simp only [Tray.passes, if_neg huntask]
    rfl

/-- A program shows its window, or handles another message, of those that it has. -/
theorem Fair.passing (h : Fair t d) (heard : Cid → Nat) (hct : c ≠ t) (hfree : d.Free c)
    (he : Letter e) (hheard : ∀ z, z ≠ c → heard z = d.heard z)
    (hle : heard c ≤ (d.session.wm.mail c).length)
    (hsub : (d.session.wm.mail c).drop (heard c) ⊆ d.pending c)
    (hcount : Tkclient.qword e ≠ "untask" →
      ((d.session.wm.mail c).drop (heard c)).countP (fun e => Tkclient.qword e = "untask") =
        (d.pending c).countP (fun e => Tkclient.qword e = "untask")) :
    Fair t (passes { d with heard := heard } c e) := by
  obtain ⟨hc, hasks⟩ := hfree
  have hheardt : heard t = d.heard t := hheard t hct.symm
  have hself := deal_passing_self hct hasks he hheardt hcount
  refine ⟨⟨h.headed, ?_, ?_, ?_, ?_, h.keys, ?_⟩, ?_, ?_, ?_, ?_⟩
  -- what has been handled has been sent
  · intro z
    by_cases hzc : z = c
    · exact hzc ▸ hle
    · exact (le_of_eq (hheard z hzc)).trans (h.heard z)
  -- the messages that are left are letters
  · intro z e' he'
    by_cases hzc : z = c
    · subst hzc
      exact h.letters z e' (hsub he')
    · rw [pending_passing (hheard z hzc)] at he'
      exact h.letters z e' he'
  -- and so is what `tkclient` passes back
  · intro z hzt r hr
    by_cases hzc : z = c
    · subst hzc
      simp only [Tray.passes, Function.update_self, Tkclient.wmctl] at hr
      split_ifs at hr
      · cases hr
      · rw [List.mem_singleton.mp hr]
        exact he.cut
    · rw [asks_passing hzc] at hr
      exact h.passed z hzt r hr
  · intro r hr
    rw [asks_passing hct.symm] at hr
    exact h.civil r hr
  -- a client that is yet to come is another one
  · intro z hz
    have hzc : z ≠ c := fun heq => Nat.not_lt.mpr hz (heq ▸ hc.1)
    rw [away_passing hzc, asks_passing hzc]
    exact h.fresh z hz
  -- after the news that the window is shown there is no button, whatever came before
  · intro z hz hzt
    by_cases hzc : z = c
    · subst hzc
      rw [hself]
      split_ifs
      · exact fun _ => Custody.final_snoc _
      · exact h.balanced z hz hzt
    · rw [deal_passing_of_ne hct hheard hzc]
      exact h.balanced z hz hzt
  · intro z hz hzt horder
    obtain ⟨hgone, hclosed⟩ := h.hidden z hz hzt horder
    by_cases hzc : z = c
    · subst hzc
      rw [hself]
      simp only [Tray.passes]
      split_ifs
      · exact ⟨Function.update_self .., Custody.final_snoc _⟩
      · exact ⟨hgone, hclosed⟩
    · rw [deal_passing_of_ne hct hheard hzc, away_passing hzc]
      exact ⟨hgone, hclosed⟩
  · intro n hn
    rw [notes_passing hheardt]
    exact h.absent n hn
  -- before the toolbar has control no window is away
  · intro hst
    obtain ⟨hnone, hgone⟩ := h.early hst
    refine ⟨fun n => ⟨(hnone n).1, (notes_passing hheardt).trans (hnone n).2⟩, fun z => ?_⟩
    by_cases hzc : z = c
    · subst hzc
      simp only [Tray.passes]
      split_ifs
      · exact Function.update_self ..
      · exact hgone z
    · rw [away_passing hzc]
      exact hgone z

end Passing

/-! ## The toolbar -/

theorem civil_deiconify {b : Buttons} : ∀ r ∈ (call b (.deiconify id)).2, Civil r := by
  intro r hr
  rw [call, deiconify_requests] at hr
  split_ifs at hr
  · rcases List.mem_cons.mp hr with rfl | hr
    · exact Or.inl ⟨id, _, Or.inl rfl, rfl⟩
    · rw [List.mem_singleton.mp hr]
      exact Or.inl ⟨id, _, Or.inr rfl, rfl⟩
  · cases hr

theorem keys_deiconify {b : Buttons} (hb : ∀ x ∈ b, ∃ n : Nat, x.1 = toString n) :
    ∀ x ∈ (call b (.deiconify id)).1, ∃ n : Nat, x.1 = toString n := by
  intro x hx
  rw [call, deiconify] at hx
  split_ifs at hx
  · exact hb x (List.mem_filter.mp hx).1
  · exact hb x hx

/-- The requests of the toolbar upon a message. -/
theorem civil_call (he : Letter e) (hf : Topbar.wmctl e = some f) {b : Buttons} :
    ∀ r ∈ (call b f).2, Civil r := by
  intro r hr
  cases f with
  | deiconify id => exact civil_deiconify r hr
  | layout c =>
    obtain ⟨s, hs⟩ := layout_begins c
    rw [List.mem_singleton.mp hr, hs]
    refine Or.inr ?_
    rw [unquoted_cons (by decide)]
    exact ⟨fun heq => absurd (Option.some.inj heq) (by decide),
      fun heq => absurd (Option.some.inj heq) (by decide)⟩
  | own c =>
    obtain rfl := eq_of_wmctl_own hf
    obtain ⟨hword, args, hargs⟩ := he.cut.word
    rw [call, Tkclient.wmctl] at hr
    split_ifs at hr
    · cases hr
    · rw [List.mem_singleton.mp hr, Civil, hargs]
      refine Or.inr ⟨fun heq => ?_, fun heq => ?_⟩ <;> rw [Option.some.inj heq] at hword <;>
        exact absurd hword (by decide)
  | ignore | refuse | iconify => cases hr

/-- The id of a client is a number. -/
theorem keys_call (he : Letter e) (hf : Topbar.wmctl e = some f) {b : Buttons}
    (hb : ∀ x ∈ b, ∃ n : Nat, x.1 = toString n) : ∀ x ∈ (call b f).1, ∃ n : Nat, x.1 = toString n := by
  intro x hx
  cases f with
  | iconify id label =>
    have hid : ∃ n : Nat, id = toString n := by
      have hnote : note id e = some (.deposit (condenselabel label)) := by
        rw [note, hf]
        exact if_pos rfl
      cases he with
      | routine he =>
        rw [he.note] at hnote
        cases hnote
      | untask =>
        rw [Topbar.wmctl, unquoted_plain (by decide)] at hf
        cases hf
      | kbdfocus =>
        have hkbd : "kbdfocus 1" = "kbdfocus" ++ " " ++ "1" := by decide
        rw [Topbar.wmctl, hkbd, unquoted_cons (by decide)] at hf
        cases hf
      | delclient n =>
        rw [note_delclient] at hnote
        split_ifs at hnote
        cases hnote
      | request n data =>
        rw [note_request] at hnote
        split_ifs at hnote with heq
        exact ⟨n, heq.symm⟩
    rw [call, iconify] at hx
    split_ifs at hx
    · obtain ⟨y, hy, rfl⟩ := List.mem_map.mp hx
      split_ifs
      · exact hid
      · exact hb y hy
    · rcases List.mem_append.mp hx with hx | hx
      · exact hb x hx
      · rw [List.mem_singleton.mp hx]
        exact hid
  | deiconify id => exact keys_deiconify hb x hx
  | ignore | refuse | layout | own => exact hb x hx

section Hearing

variable {es : List String}

/-- The toolbar has one message less to handle. -/
theorem pending_hears (hpending : d.pending t = e :: es) :
    pending ((d.told t).calls t f) t = es := by
  have heq : pending ((d.told t).calls t f) t =
      (d.session.wm.mail t).drop (Function.update d.heard t (d.heard t + 1) t) := rfl
  rw [heq, Function.update_self, ← List.tail_drop]
  exact congrArg List.tail hpending

/-- Nobody else has. -/
theorem pending_hears_of_ne (hzt : z ≠ t) : pending ((d.told t).calls t f) z = d.pending z := by
  have heq : pending ((d.told t).calls t f) z =
      (d.session.wm.mail z).drop (Function.update d.heard t (d.heard t + 1) z) := rfl
  rw [heq, Function.update_of_ne hzt]
  rfl

/-- Nobody else is going to make another request. -/
theorem asks_hears_of_ne (hzt : z ≠ t) : ((d.told t).calls t f).asks z = d.asks z :=
  Function.update_of_ne hzt _ _

/-- What the toolbar handles is the first of what it has to handle. -/
theorem notes_hears (hpending : d.pending t = e :: es) (hf : Topbar.wmctl e = some f) :
    d.notes t id = (f.note id).toList ++ notes t ((d.told t).calls t f) id := by
  have hnote : note id e = f.note id := by
    rw [note, hf]
    rfl
  rw [notes, hpending, notes, pending_hears hpending, List.filterMap_cons, hnote]
  cases f.note id <;> rfl

/-- What will be known of a button in the end stays. -/
theorem final_hears (hpending : d.pending t = e :: es) (hf : Topbar.wmctl e = some f) :
    final (((d.told t).calls t f).buttons.lookup id) (notes t ((d.told t).calls t f) id) =
      final (d.buttons.lookup id) (d.notes t id) := by
  have hticket : ((d.told t).calls t f).buttons.lookup id =
      (f.note id).elim (d.buttons.lookup id) Slip.ticket := lookup_call d.buttons f id
  rw [hticket, notes_hears hpending hf]
  cases f.note id <;> rfl

/-- The toolbar reads a note of the deal, or the message is about something else. -/
theorem balanced_hears (hfree : d.Free t) (he : Letter e) (hpending : d.pending t = e :: es)
    (hf : Topbar.wmctl e = some f) (hzt : z ≠ t) (hbalanced : Deal.Balanced (d.deal t z)) :
    Deal.Balanced (deal t ((d.told t).calls t f) z) := by
  have hname : name ((d.told t).calls t f) z = d.name z := rfl
  have haway : ((d.told t).calls t f).away = d.away := rfl
  have hticket : ((d.told t).calls t f).buttons.lookup (d.name z) =
      (f.note (d.name z)).elim (d.buttons.lookup (d.name z)) Slip.ticket :=
    lookup_call d.buttons f (d.name z)
  have hasked : ((d.told t).calls t f).asks t = (call d.buttons f).2 := Function.update_self ..
  rw [deal, hfree.2, List.count_nil, notes_hears hpending hf] at hbalanced
  rw [deal, hname, haway, hticket, pending_hears_of_ne hzt, asks_hears_of_ne hzt, hasked,
    count_call he hf]
  cases hn : f.note (d.name z) with
  | none =>
    rw [hn] at hbalanced
    exact hbalanced
  | some n =>
    rw [hn] at hbalanced
    exact Deal.Step.read.balanced hbalanced

/-- The toolbar handles a message. -/
theorem Fair.hears (h : Fair t d) (hfree : d.Free t) (hpending : d.pending t = e :: es)
    (hf : Topbar.wmctl e = some f) : Fair t ((d.told t).calls t f) := by
  have he : Letter e := h.letters t e (hpending ▸ List.mem_cons_self)
  have hasked : ((d.told t).calls t f).asks t = (call d.buttons f).2 := Function.update_self ..
  refine ⟨⟨h.headed, ?_, ?_, ?_, ?_, keys_call he hf h.keys, ?_⟩, ?_, ?_, ?_, ?_⟩
  -- the message that is handled has been sent
  · intro z
    by_cases hzt : z = t
    · subst hzt
      have hlen : d.heard z + 1 ≤ (d.session.wm.mail z).length := by
        have hpos := congrArg List.length hpending
        rw [pending, List.length_drop, List.length_cons] at hpos
        omega
      exact (le_of_eq (Function.update_self ..)).trans hlen
    · have heq : ((d.told t).calls t f).heard z = d.heard z := Function.update_of_ne hzt _ _
      rw [heq]
      exact h.heard z
  · intro z e' he'
    by_cases hzt : z = t
    · subst hzt
      rw [pending_hears hpending] at he'
      exact h.letters z e' (hpending ▸ List.mem_cons_of_mem e he')
    · rw [pending_hears_of_ne hzt] at he'
      exact h.letters z e' he'
  · intro z hzt r hr
    rw [asks_hears_of_ne hzt] at hr
    exact h.passed z hzt r hr
  -- its requests are those that the message calls for
  · rw [hasked]
    exact civil_call he hf
  · intro z hz
    have hzt : z ≠ t := fun heq => Nat.not_lt.mpr hz (heq ▸ hfree.1.1)
    rw [asks_hears_of_ne hzt]
    exact h.fresh z hz
  · intro z hz hzt
    exact balanced_hears hfree he hpending hf hzt (h.balanced z hz hzt)
  · intro z hz hzt horder
    obtain ⟨hgone, hclosed⟩ := h.hidden z hz hzt horder
    have hname : name ((d.told t).calls t f) z = d.name z := rfl
    refine ⟨hgone, ?_⟩
    rw [Deal.Closed, deal, Custody.final_append] at hclosed ⊢
    rw [hname, final_hears hpending hf, asks_hears_of_ne hzt]
    exact hclosed
  · intro n hn
    rw [final_hears hpending hf]
    exact h.absent n hn
  -- before the toolbar has control there is no button, and no message makes one
  · intro hst
    obtain ⟨hnone, hgone⟩ := h.early hst
    refine ⟨fun n => ?_, hgone⟩
    obtain ⟨hlookup, hempty⟩ := hnone n
    rw [notes_hears hpending hf] at hempty
    obtain ⟨hn, hrest⟩ := List.append_eq_nil_iff.mp hempty
    have hn' : f.note (toString n) = none := by
      cases hnote : f.note (toString n) with
      | none => rfl
      | some n =>
        rw [hnote] at hn
        cases hn
    refine ⟨(lookup_call d.buttons f (toString n)).trans ?_, hrest⟩
    rw [hn']
    exact hlookup

end Hearing

/-- Somebody has clicked on a button, if it is still there. -/
theorem Fair.select (h : Fair t d) (hfree : d.Free t) (clicks : List String) (id : String) :
    Fair t (calls t { d with clicks := clicks } (.deiconify id)) := by
  have hasks : ∀ z, z ≠ t →
      (calls t { d with clicks := clicks } (.deiconify id)).asks z = d.asks z :=
    fun z hzt => Function.update_of_ne hzt _ _
  have hasked : (calls t { d with clicks := clicks } (.deiconify id)).asks t =
      (call d.buttons (.deiconify id)).2 := Function.update_self ..
  have hticket : ∀ id', (calls t { d with clicks := clicks } (.deiconify id)).buttons.lookup id' =
      if id = id' then none else d.buttons.lookup id' := by
    intro id'
    refine (lookup_call d.buttons (.deiconify id) id').trans ?_
    rw [Call.note]
    split_ifs <;> rfl
  have hfinal : ∀ id' ns, final (d.buttons.lookup id') ns = none →
      final ((calls t { d with clicks := clicks } (.deiconify id)).buttons.lookup id') ns = none := by
    intro id' ns hnone
    rw [hticket]
    split_ifs
    · exact Custody.final_none hnone
    · exact hnone
  -- the toolbar takes the button away and has its client told
  have hdeal : ∀ z, z ≠ t → Deal.Balanced (d.deal t z) →
      Deal.Balanced (deal t (calls t { d with clicks := clicks } (.deiconify id)) z) := by
    intro z hzt hbalanced
    have hname : name (calls t { d with clicks := clicks } (.deiconify id)) z = d.name z := rfl
    have haway : (calls t { d with clicks := clicks } (.deiconify id)).away = d.away := rfl
    have hnotes : notes t (calls t { d with clicks := clicks } (.deiconify id)) (d.name z) =
      d.notes t (d.name z) := rfl
    have hpending : pending (calls t { d with clicks := clicks } (.deiconify id)) z = d.pending z :=
      rfl
    rw [deal, hfree.2, List.count_nil] at hbalanced
    rw [deal, hname, haway, hticket, hnotes, hpending, hasks z hzt, hasked, count_deiconify]
    -- a click on another button does not concern the client
    by_cases hid : id = d.name z
    · rw [if_pos hid, if_pos hid]
      cases hold : d.buttons.lookup (d.name z) with
      | none =>
        rw [hold] at hbalanced
        exact hbalanced
      | some l =>
        rw [hold] at hbalanced
        exact Deal.Step.claim.balanced hbalanced
    · rw [if_neg hid, if_neg hid]
      exact hbalanced
  refine ⟨⟨h.headed, h.heard, h.letters, ?_, ?_, ?_, ?_⟩, ?_, ?_, ?_, ?_⟩
  · intro z hzt r hr
    rw [hasks z hzt] at hr
    exact h.passed z hzt r hr
  · rw [hasked]
    exact civil_deiconify
  · exact keys_deiconify h.keys
  · intro z hz
    have hzt : z ≠ t := fun heq => Nat.not_lt.mpr hz (heq ▸ hfree.1.1)
    rw [hasks z hzt]
    exact h.fresh z hz
  · exact fun z hz hzt => hdeal z hzt (h.balanced z hz hzt)
  · intro z hz hzt horder
    obtain ⟨hgone, hclosed⟩ := h.hidden z hz hzt horder
    refine ⟨hgone, ?_⟩
    rw [Deal.Closed, deal, hasks z hzt]
    exact hfinal _ _ hclosed
  · exact fun n hn => hfinal _ _ (h.absent n hn)
  · intro hst
    obtain ⟨hnone, hgone⟩ := h.early hst
    refine ⟨fun n => ⟨?_, (hnone n).2⟩, hgone⟩
    rw [hticket, (hnone n).1]
    split_ifs <;> rfl

/-! ## Runs -/

/-- Everything that happens keeps the deals balanced. -/
theorem step_fair (h : Fair t d) (hrule : Ruled t d x) (hstep : step env t d x = some d') :
    Fair t d' := by
  cases x with
  | turn e =>
    obtain ⟨s, hturn, rfl⟩ := Option.map_eq_some_iff.mp hstep
    exact h.turn hrule hturn
  | task c title => exact h.task hrule hstep
  | untask c =>
    rw [step] at hstep
    split_ifs at hstep with hfree
    obtain rfl := Option.some.inj hstep
    exact h.passing d.heard hfree.2 hfree.1 .untask (fun _ _ => rfl) (h.heard c) (List.Subset.refl _)
      fun _ => rfl
  | hear c =>
    rw [step] at hstep
    split_ifs at hstep with hfree hct
    -- the toolbar handles a message
    · subst hct
      cases hpending : d.pending c with
      | nil =>
        rw [hpending] at hstep
        cases hstep
      | cons e es =>
        rw [hpending] at hstep
        obtain ⟨f, hf, rfl⟩ := Option.map_eq_some_iff.mp hstep
        exact h.hears hfree hpending hf
    · cases hpending : d.pending c with
      | nil =>
        rw [hpending] at hstep
        cases hstep
      | cons e es =>
        rw [hpending] at hstep
        obtain rfl := Option.some.inj hstep
        -- another client handles one
        have hrest : (d.session.wm.mail c).drop (Function.update d.heard c (d.heard c + 1) c) =
            es := by
          rw [Function.update_self, ← List.tail_drop]
          exact congrArg List.tail hpending
        have hlen := congrArg List.length hpending
        rw [pending, List.length_drop, List.length_cons] at hlen
        refine h.passing (Function.update d.heard c (d.heard c + 1)) hct hfree
          (h.letters c e (hpending ▸ List.mem_cons_self))
          (fun z hzc => Function.update_of_ne hzc _ _) ?_ ?_ ?_
        · rw [Function.update_self]
          omega
        · rw [hrest, hpending]
          exact List.subset_cons_self e es
        · intro huntask
          rw [hrest, hpending, List.countP_cons_of_neg (by simpa using huntask)]
  | click id =>
    rw [step] at hstep
    split_ifs at hstep
    obtain rfl := Option.some.inj hstep
    exact ⟨⟨h.headed, h.heard, h.letters, h.passed, h.civil, h.keys, h.fresh⟩, h.balanced, h.hidden,
      h.absent, h.early⟩
  | select =>
    rw [step] at hstep
    split_ifs at hstep with hfree
    cases hclicks : d.clicks with
    | nil =>
      rw [hclicks] at hstep
      cases hstep
    | cons id clicks =>
      rw [hclicks] at hstep
      obtain rfl := Option.some.inj hstep
      exact h.select hfree clicks id
  | serve c =>
    rw [step] at hstep
    cases hasks : d.asks c with
    | nil =>
      rw [hasks] at hstep
      cases hstep
    | cons r rs =>
      rw [hasks] at hstep
      obtain ⟨s, hturn, rfl⟩ := Option.map_eq_some_iff.mp hstep
      by_cases hct : c = t
      · subst hct
        exact h.served_toolbar hasks hturn
      · exact h.served hct hasks hturn

/-- The toolbar never makes a second button of one name. -/
theorem step_once (h : (d.buttons.map Prod.fst).Nodup) (hstep : step env t d x = some d') :
    (d'.buttons.map Prod.fst).Nodup := by
  cases x with
  | turn e =>
    obtain ⟨s, -, rfl⟩ := Option.map_eq_some_iff.mp hstep
    exact h
  | task c title =>
    rw [step] at hstep
    split_ifs at hstep
    obtain ⟨_, -, rfl⟩ := Option.map_eq_some_iff.mp hstep
    exact h
  | untask c | click id =>
    rw [step] at hstep
    split_ifs at hstep
    obtain rfl := Option.some.inj hstep
    exact h
  | hear c =>
    rw [step] at hstep
    split_ifs at hstep
    · split at hstep
      · cases hstep
      · obtain ⟨f, -, rfl⟩ := Option.map_eq_some_iff.mp hstep
        exact nodup_call f h
    · split at hstep
      · cases hstep
      · obtain rfl := Option.some.inj hstep
        exact h
  | select =>
    rw [step] at hstep
    split_ifs at hstep
    split at hstep
    · cases hstep
    · obtain rfl := Option.some.inj hstep
      exact nodup_call _ h
  | serve c =>
    rw [step] at hstep
    split at hstep
    · cases hstep
    · obtain ⟨s, -, rfl⟩ := Option.map_eq_some_iff.mp hstep
      exact h

/-- In every run, whatever programs and users do and whatever is under way at any time: when
nobody has anything left to do, the toolbar has one button for each window that has been put
away, with its title, and no other buttons. -/
theorem buttons_match (h : Run (Guarded (Ruled t) (StepOf (step env t))) (start screen) xs d)
    (hidle : Idle d) (ht : d.session.Live t) : Matched t d := by
  have hfair : Fair t d := by
    refine h.invariant start_fair ?_
    rintro d x d' hd ⟨hrule, hstep⟩
    exact step_fair hd hrule hstep
  have honce : (d.buttons.map Prod.fst).Nodup := by
    refine h.invariant (I := fun d => (d.buttons.map Prod.fst).Nodup) List.nodup_nil ?_
    rintro d x d' hd ⟨-, hstep⟩
    exact step_once hd hstep
  obtain ⟨hasks, hpending⟩ := hidle t ht
  have hnotes : ∀ id, d.notes t id = [] := by
    intro id
    rw [notes, hpending, List.filterMap_nil]
  have hshown : ∀ c, d.session.Live c → c ≠ t →
      d.buttons.lookup (d.name c) = (d.away c).map condenselabel := by
    intro c hc hct
    obtain ⟨hcasks, hcpending⟩ := hidle c hc
    refine (hfair.balanced c hc hct).agree ?_ ?_
    · rw [deal, hnotes, hcasks]
      rfl
    · rw [deal, hcpending, hasks]
      rfl
  refine ⟨honce, hshown, ?_⟩
  intro x hx
  obtain ⟨n, hn⟩ := hfair.keys x hx
  by_contra hnobody
  have hnone := hfair.absent n fun c hc hct hid => hnobody ⟨c, hc, hct, hn.trans (hid ▸ rfl)⟩
  have hsome := mem_keys.mp (List.mem_map_of_mem (f := Prod.fst) hx)
  rw [hnotes, ← hn, final] at hnone
  rw [hnone] at hsome
  cases hsome

/-- A program puts its window away, and the toolbar has heard of it. -/
theorem buttons_match_task :
    ∃ d, Run (Guarded (Ruled 0) (StepOf (step default 0))) (start ⟨⟨0, 0⟩, ⟨80, 60⟩⟩)
        [.turn (.opened 0), .turn (.join 0), .turn (.request 0 "start control" []),
          .turn (.opened 1), .turn (.join 1), .turn (.request 1 "!reshape . -1 0 0 10 10" []),
          .hear 0, .serve 0, .hear 0, .hear 1, .task 1 "mail", .hear 0] d ∧
      d.away 1 = some "mail" ∧ Matched 0 d := by
  obtain ⟨d, hrun, hidle, hlive, haway⟩ : ∃ d,
      Run (Guarded (Ruled 0) (StepOf (step default 0))) (start ⟨⟨0, 0⟩, ⟨80, 60⟩⟩)
        [.turn (.opened 0), .turn (.join 0), .turn (.request 0 "start control" []),
          .turn (.opened 1), .turn (.join 1), .turn (.request 1 "!reshape . -1 0 0 10 10" []),
          .hear 0, .serve 0, .hear 0, .hear 1, .task 1 "mail", .hear 0] d ∧
        Idle d ∧ d.session.Live 0 ∧ d.away 1 = some "mail" :=
    Run.exists_of_execGuarded (by decide +kernel)
  exact ⟨d, hrun, haway, buttons_match hrun hidle hlive⟩

/-- A click on the button of a window that is back by itself, and is put away again before the
toolbar handles the click: that brings it back once more. -/
example : (exec (step default 0) (start ⟨⟨0, 0⟩, ⟨80, 60⟩⟩)
    [.turn (.opened 0), .turn (.join 0), .turn (.request 0 "start control" []),
      .turn (.opened 1), .turn (.join 1), .turn (.request 1 "!reshape . -1 0 0 10 10" []),
      .hear 0, .serve 0, .hear 0, .hear 1, .task 1 "mail", .hear 0, .click "1",
      .untask 1, .serve 1, .task 1 "news", .select, .serve 0, .serve 0, .hear 0, .hear 0,
      .hear 1, .serve 1, .hear 1, .hear 0, .serve 0, .serve 0, .serve 1, .hear 1, .serve 1,
      .hear 1, .serve 1, .hear 0]).any
    fun d => Idle d ∧ d.buttons = [] ∧ d.away 1 = none := by
  decide +kernel

end Tray

end Aimsgui
