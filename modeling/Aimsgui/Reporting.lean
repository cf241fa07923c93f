import Aimsgui.TabBar

/-!
# What the toolbar is told

The toolbar makes its picture of the clients out of the messages that it is sent. `Reports`
says of an operation of the manager that it sends the toolbar what has become of the
keyboard, and nothing about tabs. Every operation does, apart from a client's joining and
leaving, which are reported by an event of their own.
-/

namespace Aimsgui

open Toolbar Transition

/-- What the toolbar keeps after it has handled some messages. -/
def hears (tk : Bar.Tk) (b : Bar) (es : List String) : Bar := es.foldl (hear tk) b

/-- The bar hears the messages one after the other. -/
theorem hears_append {tk : Bar.Tk} (b : Bar) (es es' : List String) :
    hears tk b (es ++ es') = hears tk (hears tk b es) es' := List.foldl_append

/-- Messages that say nothing about tabs or the keyboard leave both as they are. -/
theorem hears_neutral {tk : Bar.Tk} {es : List String} (h : ∀ e ∈ es, Neutral tk e) (b : Bar) :
    (hears tk b es).tabs = b.tabs ∧ (hears tk b es).kbdfocus = b.kbdfocus := by
  induction es generalizing b with
  | nil => exact ⟨rfl, rfl⟩
  | cons e es ih =>
    obtain ⟨he, hes⟩ := List.forall_mem_cons.mp h
    obtain ⟨htabs, hkbd⟩ := ih hes (hear tk b e)
    exact ⟨htabs.trans (he b).1, hkbd.trans (he b).2⟩

/-- Two bars with the same tabs and the same idea of who has the keyboard. -/
def Alike (b b' : Bar) : Prop := b.tabs = b'.tabs ∧ b.kbdfocus = b'.kbdfocus

/-- What the message makes of the tabs and of the keyboard depends on nothing else. -/
def Steady (tk : Bar.Tk) (e : String) : Prop :=
  ∀ b b', Alike b b' → Alike (hear tk b e) (hear tk b' e)

section Steady

variable {tk : Bar.Tk} {e : String} {es : List String} {b b' : Bar}

theorem Alike.trans {b'' : Bar} (h : Alike b b') (h' : Alike b' b'') : Alike b b'' :=
  ⟨h.1.trans h'.1, h.2.trans h'.2⟩

theorem Alike.symm (h : Alike b b') : Alike b' b := ⟨h.1.symm, h.2.symm⟩

/-- A message that changes neither does not depend on the rest of the bar. -/
theorem Neutral.steady (h : Neutral tk e) : Steady tk e :=
  fun b b' hb => (Alike.trans (h b) hb).trans (Alike.symm (h b'))

/-- Whether a new tab is made depends on the tabs only. -/
theorem steady_newclient (n : Nat) : Steady tk ("newclient " ++ toString n) := by
  rintro b b' ⟨htabs, hkbd⟩
  rw [hear_newclient, hear_newclient, Bar.clientNew, Bar.clientNew, htabs]
  split_ifs
  · exact ⟨htabs, hkbd⟩
  · exact ⟨rfl, hkbd⟩

/-- What becomes of a tab that goes depends on the tabs and on who has the keyboard. -/
theorem steady_delclient (n : Nat) : Steady tk ("delclient " ++ toString n) := by
  rintro b b' ⟨htabs, hkbd⟩
  rw [hear_delclient, hear_delclient, Bar.clientDel, Bar.clientDel, htabs, hkbd]
  by_cases htab : toString n ∈ b'.tabs
  · rw [if_pos htab, if_pos htab]
    exact ⟨rfl, rfl⟩
  · rw [if_neg htab, if_neg htab]
    exact ⟨htabs, hkbd⟩

/-- The holder of the keyboard is what the message says. -/
theorem steady_kbdfocuschange {w : String} (hw : Plain w) :
    Steady tk ("kbdfocuschange " ++ w) := by
  rintro b b' ⟨htabs, -⟩
  rw [hear_kbdfocuschange hw, hear_kbdfocuschange hw]
  exact ⟨htabs, rfl⟩

/-- Bars that are alike stay alike, whatever they hear of such messages. -/
theorem hears_alike (h : ∀ e ∈ es, Steady tk e) (hb : Alike b b') :
    Alike (hears tk b es) (hears tk b' es) := by
  induction es generalizing b b' with
  | nil => exact hb
  | cons e es ih =>
    obtain ⟨he, hes⟩ := List.forall_mem_cons.mp h
    exact ih hes (he b b' hb)

end Steady

namespace Wm

/-- Who has the keyboard, as far as the client `t` has been told: nobody, before it has started
control. -/
def holder (t : Cid) (w : Wm) : Option String :=
  if (w.client t).controlstarted then w.kbdfocus.map fun c => toString (w.client c).id else none

/-- If the client `t` has started control, it is the controller. -/
def Steered (t : Cid) (w : Wm) : Prop := (w.client t).controlstarted = true → w.controller = some t

/-- A request of the toolbar `t`: it passes on messages only that say nothing to the toolbar
itself, it does not end control, and it starts control while nobody has the keyboard. -/
structure Polite (tk : Bar.Tk) (t : Cid) (w : Wm) (req : String) : Prop where
  ctl : ∀ id msg msgs, unquoted req = "ctl" :: id :: msg :: msgs →
    Neutral tk (quoted (msg :: msgs))
  endcontrol : (unquoted req).head? ≠ some "endcontrol"
  control : unquoted req = ["start", "control"] →
    (w.client t).controlstarted = true ∨ w.kbdfocus = none

/-- What happens between `w` and `w'` gives the keyboard to a client `who` at most, and the client
`t` hears of it. -/
structure Reports (tk : Bar.Tk) (t : Cid) (who : Cid → Prop) (w w' : Wm) : Prop where
  id : ∀ a, (w'.client a).id = (w.client a).id
  kbdfocus : ∀ a, w'.kbdfocus = some a → w.kbdfocus = some a ∨ who a
  sent : ∃ l, w'.out = w.out ++ l ∧ (∀ e ∈ l.filterMap (mailed t), Steady tk e) ∧
    ∀ b : Bar, b.kbdfocus = w.holder t →
      (hears tk b (l.filterMap (mailed t))).tabs = b.tabs ∧
        (hears tk b (l.filterMap (mailed t))).kbdfocus = w'.holder t

variable {tk : Bar.Tk} {env : Env} {t c : Cid} {who : Cid → Prop} {w w' w'' : Wm} {new : Option Cid}
  {l : List Send} {e : String}

/-- A message that is sent is not for the client `t`, or neutral. -/
def Quiet (tk : Bar.Tk) (t : Cid) (l : List Send) : Prop :=
  ∀ e ∈ l.filterMap (mailed t), Neutral tk e

/-- A log is quiet if every message in it is. -/
theorem Quiet.of_forall (h : ∀ x ∈ l, ∀ e ∈ mailed t x, Neutral tk e) : Quiet tk t l := by
  intro e he
  obtain ⟨x, hx, he⟩ := List.mem_filterMap.mp he
  exact h x hx e he

/-- What the manager sends to nobody in particular is not sent to the toolbar. -/
theorem Quiet.own (h : Own l) : Quiet tk t l := by
  refine .of_forall fun x hx e he => ?_
  obtain ⟨s, rfl⟩ := h x hx
  cases he

theorem mailed_self (c : Cid) (e : String) : mailed c (.ctl c e) = some e := if_pos rfl

theorem mailed_of_ne {a : Cid} (h : a ≠ c) (e : String) : mailed c (.ctl a e) = none := if_neg h

/-- Only the text of a `ctl` message is mailed. -/
theorem mailed_ctl {a : Cid} {e' : String} (h : e' ∈ mailed t (.ctl a e)) : e' = e := by
  by_cases ha : a = t
  · subst ha
    rw [mailed_self] at h
    exact (Option.some.inj h).symm
  · rw [mailed_of_ne ha] at h
    cases h

/-- One neutral message, to whomever it goes. -/
theorem Quiet.ctl (h : Neutral tk e) : Quiet tk t [.ctl c e] := by
  refine .of_forall fun x hx e' he => ?_
  rw [List.mem_singleton.mp hx] at he
  rwa [mailed_ctl he]

/-- The event for the controller reaches the client `t` if it has started control. -/
theorem mailed_event (h : Steered t w) (e : String) :
    (w.event e).filterMap (mailed t) = if (w.client t).controlstarted then [e] else [] := by
  have hother : w.controller ≠ some t → (w.client t).controlstarted = false :=
    fun hne => Bool.eq_false_iff.mpr fun hstarted => hne (h hstarted)
  cases hctlr : w.controller with
  | none =>
    simp only [event, hctlr, hother (hctlr.trans_ne (Option.some_ne_none t).symm)]
    rfl
  | some ctlr =>
    simp only [event, hctlr]
    by_cases hct : ctlr = t
    · subst hct
      split_ifs
      · rw [List.filterMap_cons_some (mailed_self _ _), List.filterMap_nil]
      · rfl
    · have hunstarted := hother fun heq => hct (Option.some.inj (hctlr.symm.trans heq))
      simp only [hunstarted, Bool.false_eq_true, if_false]
      split_ifs
      · rw [List.filterMap_cons_none (mailed_of_ne hct _), List.filterMap_nil]
      · rfl

/-- The name of the client that gets the keyboard, in the event. -/
def newholder (w : Wm) (new : Option Cid) : String :=
  (new.map fun c => toString (w.client c).id).getD "none"

/-- The bar takes over the id that `setfocus` names, or that nobody has the keyboard. -/
theorem clientKbdfocuschange_newholder (b : Bar) (w : Wm) (new : Option Cid) :
    (b.clientKbdfocuschange (w.newholder new)).kbdfocus = new.map fun c => toString (w.client c).id := by
  cases new with
  | none => rfl
  | some c => exact if_neg (toString_ne_none _)

/-- What `setfocus` names is a word, so `str->unquoted` reads it back. -/
theorem plain_newholder (w : Wm) (new : Option Cid) : Plain (w.newholder new) := by
  cases new with
  | none =>
    have hnone : Plain "none" := by decide
    exact hnone
  | some c => exact plain_id _

/-- What `setfocus` sends, with the event for the controller in the middle. -/
theorem notices_eq (w : Wm) (new : Option Cid) : ∃ l', Quiet tk t w.farewell ∧ Quiet tk t l' ∧
    w.notices .tabswin new =
      w.farewell ++ (w.event ("kbdfocuschange " ++ w.newholder new) ++ l') := by
  have hhas : ∀ {c s}, s = "haskbdfocus 0" ∨ s = "haskbdfocus 1" → Quiet tk t [.ctl c s] := by
    have hloses : "haskbdfocus 0" = "haskbdfocus" ++ " " ++ "0" := by decide
    have hgets : "haskbdfocus 1" = "haskbdfocus" ++ " " ++ "1" := by decide
    rintro c s (rfl | rfl)
    · rw [hloses]
      exact .ctl (neutral_haskbdfocus (by decide))
    · rw [hgets]
      exact .ctl (neutral_haskbdfocus (by decide))
  have hfarewell : Quiet tk t w.farewell := by
    rw [farewell]
    split
    · exact hhas (Or.inl rfl)
    · exact fun _ he => absurd he List.not_mem_nil
  cases new with
  | none => exact ⟨[], hfarewell, fun _ he => absurd he List.not_mem_nil, by rw [List.append_nil]; rfl⟩
  | some c =>
    refine ⟨[.ctl c "raise", .ctl c "haskbdfocus 1"], hfarewell, ?_, rfl⟩
    have hraise : Quiet tk t [.ctl c "raise"] := .ctl (neutral_plain (by decide) (by decide))
    intro e he
    have happend : ([.ctl c "raise", .ctl c "haskbdfocus 1"] : List Send).filterMap (mailed t) =
        [Send.ctl c "raise"].filterMap (mailed t) ++
          [Send.ctl c "haskbdfocus 1"].filterMap (mailed t) := by
      rw [← List.filterMap_append]
      rfl
    rw [happend] at he
    rcases List.mem_append.mp he with he | he
    · exact hraise e he
    · exact hhas (Or.inr rfl) e he

/-- The toolbar keeps control while a record changes in something else. -/
theorem Steered.put {f : Client → Client} (h : Steered t w)
    (hf : ∀ cl, (f cl).controlstarted = cl.controlstarted) : Steered t (w.put c f) := by
  intro hst
  by_cases htc : t = c
  · subst htc
    rw [put_self, hf] at hst
    exact h hst
  · rw [put_of_ne htc] at hst
    exact h hst

namespace Reports

/-- What two operations report, one after the other. -/
theorem trans (h : Reports tk t who w w') (h' : Reports tk t who w' w'') :
    Reports tk t who w w'' := by
  obtain ⟨l, hl, hsteady, hsent⟩ := h.sent
  obtain ⟨l', hl', hsteady', hsent'⟩ := h'.sent
  refine ⟨fun a => (h'.id a).trans (h.id a), ?_, l ++ l', ?_, ?_, ?_⟩
  · intro a ha
    rcases h'.kbdfocus a ha with ha | ha
    · exact h.kbdfocus a ha
    · exact Or.inr ha
  · rw [hl', hl, List.append_assoc]
  · intro e he
    rw [List.filterMap_append] at he
    rcases List.mem_append.mp he with he | he
    · exact hsteady e he
    · exact hsteady' e he
  · intro b hb
    obtain ⟨htabs, hkbd⟩ := hsent b hb
    obtain ⟨htabs', hkbd'⟩ := hsent' _ hkbd
    rw [List.filterMap_append, hears_append]
    exact ⟨htabs'.trans htabs, hkbd'⟩

/-- The keyboard stays where it is, and nothing is said about it. -/
theorem hushed (hid : ∀ a, (w'.client a).id = (w.client a).id) (hkbd : w'.kbdfocus = w.kbdfocus)
    (hstarted : (w'.client t).controlstarted = (w.client t).controlstarted)
    (hout : w'.out = w.out ++ l) (hl : Quiet tk t l) : Reports tk t who w w' := by
  have hholder : w'.holder t = w.holder t := by
    rw [holder, holder, hstarted, hkbd]
    simp only [hid]
  refine ⟨hid, fun a ha => Or.inl (hkbd ▸ ha), l, hout, fun e he => (hl e he).steady, ?_⟩
  intro b hb
  obtain ⟨htabs, hsame⟩ := hears_neutral hl b
  exact ⟨htabs, hsame.trans (hb.trans hholder.symm)⟩

/-- Quiet messages report nothing, and nothing has happened that should be. -/
theorem logged (hl : Quiet tk t l) : Reports tk t who w (w.logged l) :=
  hushed (fun _ => rfl) rfl rfl rfl hl

/-- Nothing is sent. -/
theorem silent (hclient : ∀ a, (w'.client a).id = (w.client a).id ∧
      (w'.client a).controlstarted = (w.client a).controlstarted)
    (hkbd : w'.kbdfocus = w.kbdfocus) (hout : w'.out = w.out) : Reports tk t who w w' :=
  hushed (fun a => (hclient a).1) hkbd (hclient t).2 (hout.trans (List.append_nil _).symm)
    fun _ he => absurd he List.not_mem_nil

theorem rfl' : Reports tk t who w w := silent (fun _ => ⟨rfl, rfl⟩) rfl rfl

/-- A record changes, but not its id or who has control. -/
theorem put {f : Client → Client}
    (hf : ∀ cl, (f cl).id = cl.id ∧ (f cl).controlstarted = cl.controlstarted) :
    Reports tk t who w (w.put c f) := by
  refine silent ?_ rfl rfl
  intro a
  by_cases ha : a = c
  · subst ha
    rw [put_self]
    exact hf _
  · rw [put_of_ne ha]
    exact ⟨rfl, rfl⟩

/-- Windows are placed: nothing about that concerns the toolbar. -/
theorem placing {who' : Cid → Prop} (h : Placing who' c w w') : Reports tk t who w w' := by
  obtain ⟨l, hout, hsent⟩ := h.sent
  refine hushed (fun a => (h.client a).id) h.kbdfocus (h.client t).controlstarted hout ?_
  refine .of_forall fun x hx e he => ?_
  cases hsent x hx with
  | reshape =>
    rw [mailed_ctl he]
    exact neutral_reshapeMsg _ _
  | rect =>
    rw [mailed_ctl he]
    exact neutral_rect _
  | image | ptr | origin | wmctl | fakekbd => cases he

/-- `setfocus` tells the toolbar. -/
theorem setfocus (h : Steered t w) (hnew : ∀ c ∈ new, who c) :
    Reports tk t who w (w.setfocus .tabswin new) := by
  obtain ⟨l, hown, ⟨heq, -⟩ | ⟨-, -, heq⟩⟩ := setfocus_logged .tabswin w new
  · rw [heq]
    exact logged (.own hown)
  · rw [heq]
    obtain ⟨l', hfarewell, hl', hnotices⟩ := @notices_eq tk t w new
    have hmail : (l ++ w.notices .tabswin new).filterMap (mailed t) =
        l.filterMap (mailed t) ++ (w.farewell.filterMap (mailed t) ++
          ((if (w.client t).controlstarted then ["kbdfocuschange " ++ w.newholder new] else []) ++
            l'.filterMap (mailed t))) := by
      rw [hnotices, List.filterMap_append, List.filterMap_append, List.filterMap_append,
        mailed_event h]
    refine ⟨fun _ => rfl, fun a ha => Or.inr (hnew a ha), _, rfl, ?_, ?_⟩
    · intro e he
      rw [hmail] at he
      simp only [List.mem_append] at he
      rcases he with he | he | he | he
      · exact (Quiet.own hown e he).steady
      · exact (hfarewell e he).steady
      · split_ifs at he
        · rw [List.mem_singleton.mp he]
          exact steady_kbdfocuschange (plain_newholder w new)
        · cases he
      · exact (hl' e he).steady
    intro b hb
    rw [hmail, hears_append, hears_append, hears_append]
    have hholder : ∀ out, ({ w.logged out with kbdfocus := new } : Wm).holder t =
        if (w.client t).controlstarted then new.map fun c => toString (w.client c).id else none :=
      fun _ => rfl
    rw [hholder]
    -- before the event nothing changes, and after it neither
    obtain ⟨htabs₁, hkbd₁⟩ := hears_neutral (Quiet.own hown) b
    obtain ⟨htabs₂, hkbd₂⟩ := hears_neutral hfarewell (hears tk b (l.filterMap (mailed t)))
    generalize hears tk (hears tk b _) _ = b₂ at htabs₂ hkbd₂ ⊢
    obtain ⟨htabs₃, hkbd₃⟩ := hears_neutral hl' (hears tk b₂
      (if (w.client t).controlstarted then ["kbdfocuschange " ++ w.newholder new] else []))
    rw [htabs₃, hkbd₃]
    cases hstarted : (w.client t).controlstarted with
    | false =>
      have hnone : w.holder t = none := by rw [holder, hstarted, if_neg Bool.false_ne_true]
      refine ⟨htabs₂.trans htabs₁, ?_⟩
      exact (hkbd₂.trans hkbd₁).trans (hb.trans hnone)
    | true =>
      have hevent : hears tk b₂ ["kbdfocuschange " ++ w.newholder new] =
          b₂.clientKbdfocuschange (w.newholder new) := hear_kbdfocuschange (plain_newholder w new)
      rw [if_pos rfl, if_pos rfl, hevent, clientKbdfocuschange_newholder]
      exact ⟨htabs₂.trans htabs₁, rfl⟩

/-- The toolbar starts control. -/
theorem control (h : (w.client t).controlstarted = true ∨ w.kbdfocus = none) :
    Reports tk t who w (w.put t fun cl => { cl with controlstarted := true }) := by
  have hid : ∀ a, ((w.put t fun cl => { cl with controlstarted := true }).client a).id =
      (w.client a).id := by
    intro a
    by_cases ha : a = t
    · subst ha
      rw [put_self]
    · rw [put_of_ne ha]
  refine ⟨hid, fun a ha => Or.inl ha, [], (List.append_nil _).symm,
    fun _ he => absurd he List.not_mem_nil, ?_⟩
  intro b hb
  refine ⟨rfl, hb.trans ?_⟩
  have hkbd : (w.put t fun cl => { cl with controlstarted := true }).kbdfocus = w.kbdfocus := rfl
  rw [holder, holder, put_self, hkbd]
  rcases h with h | h
  · simp only [h, if_true, hid]
  · simp only [h, Option.map_none, ite_self]

/-- A request. -/
theorem handled {req : String} {ptr : List Pointer} (htk : Harmless tk) (h : Steered t w)
    (hctlr : ∀ a, w.controller = some a → a = t)
    (hflag : (w.client c).controller = true → w.controller = some c)
    (hstarted : (w.client c).controlstarted = true → w.controller = some c) (hc : who c)
    (hpolite : c = t → Polite tk t w req)
    (hicon : ∀ s ∈ Desk.icon req, Desk.OneCommand s)
    (hreq : Handled .tabswin env w c req ptr w') : Reports tk t who w w' := by
  have hwin : Own [.wmctl req] := own_wmctl req
  have hquiet : ∀ {x}, mailed t x = none → Quiet tk t [x] := by
    intro x hx
    refine .of_forall fun y hy e he => ?_
    rw [List.mem_singleton.mp hy, hx] at he
    cases he
  have hsend : ∀ {w₁ : Wm} {x}, mailed t x = none → Reports tk t who w₁ (w₁.send x) :=
    fun hx => logged (hquiet hx)
  have hasks : ∀ {w₁ : Wm}, Reports tk t who w₁ (w₁.wmctl' env req).1 := by
    intro w₁
    exact hushed (l := [.wmctl req]) (fun _ => rfl) rfl rfl rfl (.own hwin)
  have hmarks : ∀ {f : Client → Client}, Marks f → Reports tk t who w (w.put c f) :=
    fun hf => put fun cl => ⟨hf.id cl, hf.controlstarted cl⟩
  have hnew : ∀ a ∈ some c, who a := by
    rintro a ⟨⟩
    exact hc
  have hnone : ∀ a ∈ (none : Option Cid), who a := by rintro a ⟨⟩
  cases hreq with
  | answered => exact rfl'
  | key s => exact hsend rfl
  | wmctl => exact hasks
  | cursor f hf => exact (hmarks hf).trans hasks
  | pointer p => exact (hasks.trans (hsend rfl)).trans (hsend rfl)
  | marked f hf => exact hmarks hf
  | kbd =>
    have hput : Reports tk t who w (w.put c fun cl => { cl with kbdstarted := true }) :=
      put fun _ => ⟨rfl, rfl⟩
    exact hput.trans (setfocus (h.put fun _ => rfl) hnew)
  | control hflagged hreq =>
    obtain rfl := hctlr c (hflag hflagged)
    exact control ((hpolite rfl).control hreq)
  | reshape w₁ tag r hcall =>
    have hplaced : Placing (fun _ => True) c w₁ (Wm.reshape .tabswin env w₁ c tag r).1 :=
      .reshape fun _ _ _ => trivial
    have hcalled : Placing (fun _ => True) c w w₁ := .reshapeCall hcall
    exact placing (hcalled.trans hplaced)
  | dragged win off w₁ e hdrag =>
    have hplaced : Placing (fun _ => True) c w w' := .drag hdrag
    exact placing hplaced
  | delete tag args =>
    have hdrop : Reports tk t who w (w.put c (·.dropwin tag)) :=
      put fun _ => ⟨(Client.Same.dropwin tag).id, (Client.Same.dropwin tag).controlstarted⟩
    rw [deleteRequest]
    split_ifs
    · exact hdrop.trans
        (setfocus (h.put fun _ => (Client.Same.dropwin tag).controlstarted) hnone)
    · exact hdrop
  | top hm =>
    have hplaced : Placing (fun _ => True) c w (w.top .tabswin c) := .top c
    exact placing hplaced
  | bottom hm =>
    have hplaced : Placing (fun _ => True) c w (w.bottom .tabswin c) := .bottom c
    exact placing hplaced
  | focus => exact setfocus h hnew
  | unfocus => exact setfocus h hnone
  | message id msg msgs z hreq hcs =>
    obtain rfl := hctlr c (hstarted hcs)
    exact logged (.ctl ((hpolite rfl).ctl id msg msgs hreq))
  | endcontrol args hreq =>
    rw [endcontrolRequest]
    split_ifs with hnot
    · exact rfl'
    · obtain rfl := hctlr c (not_not.mp hnot)
      exact absurd (congrArg List.head? hreq) (hpolite rfl).endcontrol
  | forward ctlr hctlr' hne => exact logged (.ctl (neutral_request htk _ hicon))

/-- A key goes to the holder of the keyboard and to nobody else. -/
theorem onKey (k : Int) : Reports tk t who w (w.onKey k) := by
  rw [Wm.onKey]
  split
  · rename_i a ha
    refine logged (l := [.kbd a k]) (.of_forall fun x hx e he => ?_)
    rw [List.mem_singleton.mp hx] at he
    cases he
  · exact rfl'

/-- A button that goes down gives the keyboard to the client under the pointer. -/
theorem onPointer (h : Steered t w) (hwho : ∀ c ∈ w.order, who c) (p : Pointer) (taken : Bool) :
    Reports tk t who w (w.onPointer .tabswin p taken) := by
  have hptr : ∀ {w₁ w₂ : Wm} (c : Cid), w₂.client = w₁.client → w₂.kbdfocus = w₁.kbdfocus →
      w₂.out = w₁.out ++ [.ptr c (some p)] → Reports tk t who w₁ w₂ := by
    intro w₁ w₂ c hclient hkbd hout
    refine hushed (fun a => by rw [hclient]) hkbd (by rw [hclient]) hout ?_
    refine .of_forall fun x hx e he => ?_
    rw [List.mem_singleton.mp hx] at he
    cases he
  have hsame : ∀ {w₁ w₂ : Wm}, w₂.client = w₁.client → w₂.kbdfocus = w₁.kbdfocus →
      w₂.out = w₁.out → Reports tk t who w₁ w₂ :=
    fun hclient => silent fun a => by rw [hclient]; exact ⟨rfl, rfl⟩
  have hat : ∀ c, w.find p.xy = some c → Reports tk t who w (w.pointAt .tabswin c p) := by
    intro c hc
    have hnew : ∀ a ∈ some c, who a := by
      rintro a ⟨⟩
      exact hwho c (List.mem_of_find?_eq_some hc)
    simp only [pointAt]
    split_ifs
    · split
      · split_ifs
        · exact hptr _ rfl rfl rfl
        · exact hsame rfl rfl rfl
      · exact hsame rfl rfl rfl
    · exact rfl'
    · have hraise : Reports tk t who w (w.ctl c "raise") :=
        logged (.ctl (neutral_plain (by decide) (by decide)))
      exact hraise.trans (setfocus h hnew)
    · exact setfocus h hnew
  rw [onPointer_eq]
  split_ifs
  · exact rfl'
  · have haimed : Reports tk t who w (w.aimed .tabswin p) := by
      rw [aimed]
      split
      · exact hat _ ‹_›
      · exact rfl'
    refine haimed.trans ?_
    rw [deliver]
    split
    · split_ifs
      · exact hptr _ rfl rfl rfl
      · exact hsame rfl rfl rfl
    · exact hsame rfl rfl rfl

/-- Control messages for the manager's own window. -/
theorem onWinctl (e : String) (img : Option Rect) :
    Reports tk t who w (w.onWinctl .tabswin env e img) := by
  have hall : ∀ (cs : List Cid) (w : Wm), Reports tk t who w (ctlAll "exit" cs w) := by
    intro cs
    induction cs with
    | nil => exact fun _ => rfl'
    | cons c cs ih =>
      intro w
      have hexit : Reports tk t who w (w.ctl c "exit") :=
        logged (.ctl (neutral_plain (by decide) (by decide)))
      exact hexit.trans (ih _)
  have htold : Reports tk t who w (w.told e) := by
    have hown : ∀ {w₁ : Wm}, Reports tk t who w₁ (w₁.wmctl e) :=
      logged (l := [.wmctl e]) (.own (own_wmctl e))
    rw [told]
    split_ifs
    · exact (hall _ _).trans hown
    · exact hown
  cases img with
  | some newr =>
    have hscreen : Placing (fun _ => True) 0 (w.told e) ((w.told e).reshaped .tabswin env newr) :=
      .rescreened fun _ _ => trivial
    exact htold.trans (placing hscreen)
  | none => exact htold

end Reports

end Wm

end Aimsgui
