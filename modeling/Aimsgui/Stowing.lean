import Aimsgui.Tray

/-!
# Buttons and windows agree
-/

namespace Aimsgui

open Topbar Transition
open Custody (Slip Deal final owed)
open Toolbar (Request)

/-- A request of the toolbar. -/
def Topbar.Civil (r : String) : Prop :=
  (∃ id o, (o = .untask ∨ o = .kbdfocus) ∧ r = Request.text ⟨id, o⟩) ∨
    (unquoted r).head? ≠ some "ctl" ∧ (unquoted r).head? ≠ some "endcontrol"

/-- The letter that a client gets. -/
def letterFor (x : Option (Cid × String)) (c : Cid) : List String :=
  match x with
  | some (z, e) => if z = c then [e] else []
  | none => []

namespace Wm

variable {w w' w'' : Wm} {x : Option (Cid × String)} {z : Cid} {e : String}

/-- Between `w` and `w'` the letter `x` is sent, and routine messages. -/
def Delivers (w w' : Wm) (x : Option (Cid × String)) : Prop :=
  ∃ es : Cid → List String, (∀ c, ∀ e ∈ es c, Routine e) ∧
    ∀ c, w'.mail c = w.mail c ++ (letterFor x c ++ es c)

theorem Hums.delivers (h : Hums w w') : Delivers w w' none := by
  obtain ⟨l, hout, hsent⟩ := h
  refine ⟨fun c => l.filterMap (mailed c), ?_, fun c => mail_append hout c⟩
  intro c e he
  obtain ⟨y, hy, hmailed⟩ := List.mem_filterMap.mp he
  cases y with
  | ctl a e' =>
    by_cases hac : a = c
    · subst hac
      rw [mailed_self] at hmailed
      obtain rfl := Option.some.inj hmailed
      exact hsent a e' hy
    · rw [mailed_of_ne hac] at hmailed
      cases hmailed
  | kbd | ptr | image | stop | fakekbd | wmctl | origin => cases hmailed

theorem mail_ctl (w : Wm) (z c : Cid) (e : String) :
    (w.ctl z e).mail c = w.mail c ++ letterFor (some (z, e)) c := by
  rw [mail_append (l := [.ctl z e]) rfl, letterFor]
  by_cases hzc : z = c
  · subst hzc
    rw [if_pos rfl, List.filterMap_cons_some (mailed_self _ _), List.filterMap_nil]
  · rw [if_neg hzc, List.filterMap_cons_none (mailed_of_ne hzc _), List.filterMap_nil]

/-- A letter, and then routine messages. -/
theorem Hums.delivers_ctl (h : Hums (w.ctl z e) w') : Delivers w w' (some (z, e)) := by
  obtain ⟨es, hes, hmail⟩ := h.delivers
  refine ⟨es, hes, fun c => ?_⟩
  rw [hmail, mail_ctl, List.append_assoc]
  rfl

end Wm

namespace Tray

open Session Wm

/-- What is under way is well formed. -/
structure Sound (t : Cid) (d : Tray) : Prop where
  headed : Headed t d.session
  heard : ∀ c, d.heard c ≤ (d.session.wm.mail c).length
  letters : ∀ c, ∀ e ∈ d.pending c, Letter e
  passed : ∀ c, c ≠ t → ∀ r ∈ d.asks c, Letter r
  civil : ∀ r ∈ d.asks t, Civil r
  keys : ∀ x ∈ d.buttons, ∃ n : Nat, x.1 = toString n
  fresh : ∀ c, d.session.wm.z.refs ≤ c → d.away c = none ∧ d.asks c = []

/-- The deals of all clients are balanced; a client that is not on the screen, or has left, has no
button and gets none; and before the toolbar has started control there are no buttons. -/
structure Fair (t : Cid) (d : Tray) : Prop extends Sound t d where
  balanced : ∀ c, d.session.Live c → c ≠ t → (d.deal t c).Balanced
  hidden : ∀ c, d.session.Live c → c ≠ t → c ∉ d.session.wm.order →
    d.away c = none ∧ (d.deal t c).Closed
  absent : ∀ n : Nat, (∀ c, d.session.Live c → c ≠ t → (d.session.wm.client c).id ≠ n) →
    final (d.buttons.lookup (toString n)) (d.notes t (toString n)) = none
  early : (d.session.wm.client t).controlstarted ≠ true →
    (∀ n : Nat, d.buttons.lookup (toString n) = none ∧ d.notes t (toString n) = []) ∧
      ∀ c, d.away c = none

variable {env : Env} {t c z : Cid} {d d' : Tray} {s s' : Session} {e : Event} {w : Wm} {screen : Rect}
  (asks : Cid → List String) (away : Cid → Option String) {x : Option (Cid × String)} {a : Doing}

theorem start_fair : Fair t (start screen) where
  headed := headed_start t screen
  heard := fun _ => le_rfl
  letters := fun _ _ he => absurd he List.not_mem_nil
  passed := fun _ _ _ hr => absurd hr List.not_mem_nil
  civil := fun _ hr => absurd hr List.not_mem_nil
  keys := fun _ hx => absurd hx List.not_mem_nil
  fresh := fun _ _ => ⟨rfl, rfl⟩
  balanced := fun _ hc => absurd hc.1 (Nat.not_lt_zero _)
  hidden := fun _ hc => absurd hc.1 (Nat.not_lt_zero _)
  absent := fun _ _ => rfl
  early := fun _ => ⟨fun _ => ⟨rfl, rfl⟩, fun _ => rfl⟩

/-! ## Turns of the manager -/

/-- The messages that a client has not handled after a turn. -/
theorem pending_turn (h : Sound t d) {es : List String}
    (hmail : s'.wm.mail c = d.session.wm.mail c ++ es) :
    pending { d with session := s', asks := asks, away := away } c = d.pending c ++ es := by
  rw [pending, pending, hmail, List.drop_append_of_le_length (h.heard c)]

/-- A turn in which no record is made, and a letter is sent perhaps. -/
theorem Sound.turned (h : Sound t d) (hturned : Turned t d.session s') (hheaded : Headed t s')
    (hsent : Delivers d.session.wm s'.wm x) (hx : ∀ y ∈ x, Letter y.2)
    (hasks : ∀ c, asks c ⊆ d.asks c)
    (haway : ∀ c, d.session.wm.z.refs ≤ c → away c = none) :
    Sound t { d with session := s', asks := asks, away := away } := by
  obtain ⟨es, hes, hmail⟩ := hsent
  refine ⟨hheaded, ?_, ?_, ?_, ?_, h.keys, ?_⟩
  · intro c
    dsimp only
    rw [hmail, List.length_append]
    exact (h.heard c).trans (Nat.le_add_right _ _)
  · intro c e he
    rw [pending_turn _ _ h (hmail c)] at he
    rcases List.mem_append.mp he with he | he
    · exact h.letters c e he
    · rcases List.mem_append.mp he with he | he
      · rw [letterFor.eq_def] at he
        split at he
        · split_ifs at he
          · rw [List.mem_singleton.mp he]
            exact hx _ rfl
          · cases he
        · cases he
      · exact .routine (hes c e he)
  · exact fun c hct r hr => h.passed c hct r (hasks c hr)
  · exact fun r hr => h.civil r (hasks t hr)
  · intro c hc
    have hbound : d.session.wm.z.refs ≤ c := hturned.refs ▸ hc
    refine ⟨haway c hbound, List.eq_nil_iff_forall_not_mem.mpr fun r hr => ?_⟩
    have hmem := hasks c hr
    rw [(h.fresh c hbound).2] at hmem
    cases hmem

/-- What the letter means for the button of one client. -/
theorem notes_turn (h : Sound t d) (hsent : Delivers d.session.wm s'.wm x) (id : String) :
    notes t { d with session := s', asks := asks, away := away } id =
      d.notes t id ++ (letterFor x t).filterMap (note id) := by
  obtain ⟨es, hes, hmail⟩ := hsent
  have hroutine : (es t).filterMap (note id) = [] :=
    List.filterMap_eq_nil_iff.mpr fun e he => (hes t e he).note
  rw [notes, notes, pending_turn _ _ h (hmail t), List.filterMap_append, List.filterMap_append, hroutine,
    List.append_nil]

/-- How a turn changes a deal. -/
theorem deal_turn (h : Sound t d) (hturned : Turned t d.session s')
    (hsent : Delivers d.session.wm s'.wm x) (c : Cid) :
    deal t { d with session := s', asks := asks, away := away } c =
      { left := (away c).map condenselabel
        ticket := d.buttons.lookup (d.name c)
        notes := d.notes t (d.name c) ++ (letterFor x t).filterMap (note (d.name c)) ++
          (asks c).filterMap (asked (d.name c))
        returns := (d.pending c).countP (fun e => Tkclient.qword e = "untask") +
          (letterFor x c).countP (fun e => Tkclient.qword e = "untask") +
            (asks t).count (Request.text ⟨d.name c, .untask⟩) } := by
  have hname : name { d with session := s', asks := asks, away := away } c = d.name c :=
    congrArg toString (hturned.id c)
  have hnotes := notes_turn asks away h hsent (d.name c)
  obtain ⟨es, hes, hmail⟩ := hsent
  have hroutine : (es c).countP (fun e => Tkclient.qword e = "untask") = 0 :=
    List.countP_eq_zero.mpr fun e he => by simpa using (hes c e he).qword_ne
  rw [deal, hname, hnotes, pending_turn _ _ h (hmail c), List.countP_append, List.countP_append, hroutine,
    Nat.add_zero]

/-- A turn in which no record is made keeps the balance, if it does so for each deal. -/
theorem Fair.turned (h : Fair t d) (hturned : Turned t d.session s') (hheaded : Headed t s')
    (hsent : Delivers d.session.wm s'.wm x) (hx : ∀ y ∈ x, Letter y.2)
    (hasks : ∀ c, asks c ⊆ d.asks c)
    (hnew : ∀ c, d.session.wm.z.refs ≤ c → away c = none)
    (hbalanced : ∀ c, s'.Live c → c ≠ t → c ∈ d.session.wm.order →
      (deal t { d with session := s', asks := asks, away := away } c).Balanced)
    (hhidden : ∀ c, s'.Live c → c ≠ t → c ∉ d.session.wm.order → away c = none ∧
      (deal t { d with session := s', asks := asks, away := away } c).Closed)
    (habsent : ∀ n : Nat, (∀ c, s'.Live c → c ≠ t → (d.session.wm.client c).id ≠ n) →
      final (d.buttons.lookup (toString n))
        (d.notes t (toString n) ++ (letterFor x t).filterMap (note (toString n))) = none)
    (hearly : (s'.wm.client t).controlstarted ≠ true →
      (∀ n : Nat, (letterFor x t).filterMap (note (toString n)) = []) ∧ away = d.away) :
    Fair t { d with session := s', asks := asks, away := away } where
  toSound := h.toSound.turned asks away hturned hheaded hsent hx hasks hnew
  balanced c hc hct := by
    by_cases horder : c ∈ d.session.wm.order
    · exact hbalanced c hc hct horder
    · obtain ⟨haway, hclosed⟩ := hhidden c hc hct horder
      exact hclosed.balanced (congrArg (Option.map condenselabel) haway)
  hidden c hc hct horder :=
    hhidden c hc hct fun hbefore => horder (hturned.stays c hbefore hc.2)
  absent n hn := by
    rw [notes_turn _ _ h.toSound hsent]
    refine habsent n fun c hc hct => ?_
    rw [← hturned.id]
    exact hn c hc hct
  early hst := by
    have hbefore := h.early fun hstarted => hst (hturned.started hstarted)
    obtain ⟨hnone, hsame⟩ := hearly hst
    refine ⟨fun n => ⟨(hbefore.1 n).1, ?_⟩, fun c => ?_⟩
    · rw [notes_turn _ _ h.toSound hsent, (hbefore.1 n).2, hnone]
      rfl
    · dsimp only
      rw [hsame]
      exact hbefore.2 c

/-- A turn in which nobody leaves, and routine messages are sent. A client may have one request
less to make that means nothing. -/
theorem Fair.hums (h : Fair t d) (hturned : Turned t d.session s') (hheaded : Headed t s')
    (hleft : s'.left = d.session.left) (hhums : Hums d.session.wm s'.wm)
    (hasks : ∀ c, asks c ⊆ d.asks c)
    (hasked : ∀ c, c ≠ t →
      (asks c).filterMap (asked (d.name c)) = (d.asks c).filterMap (asked (d.name c)))
    (hcount : ∀ id, (asks t).count (Request.text ⟨id, .untask⟩) =
      (d.asks t).count (Request.text ⟨id, .untask⟩)) :
    Fair t { d with session := s', asks := asks } := by
  have hlive : ∀ {c}, s'.Live c ↔ d.session.Live c := by
    intro c
    rw [Live, Live, hturned.refs, hleft]
  have hdeal : ∀ c, c ≠ t → deal t { d with session := s', asks := asks } c = d.deal t c := by
    intro c hct
    have hd := deal_turn asks d.away h.toSound hturned hhums.delivers c
    simp only [letterFor, List.filterMap_nil, List.append_nil, List.countP_nil, Nat.add_zero,
      hasked c hct, hcount] at hd
    exact hd
  refine h.turned _ _ hturned hheaded hhums.delivers (by rintro y ⟨⟩) hasks
    (fun c hc => (h.fresh c hc).1) ?_ ?_ ?_ fun _ => ⟨fun _ => rfl, rfl⟩
  · intro c hc hct _
    rw [hdeal c hct]
    exact h.balanced c (hlive.mp hc) hct
  · intro c hc hct horder
    rw [hdeal c hct]
    exact h.hidden c (hlive.mp hc) hct horder
  · intro n hn
    rw [letterFor, List.filterMap_nil, List.append_nil]
    exact h.absent n fun c hc hct => hn c (hlive.mpr hc) hct

/-- The same, before the toolbar has started control, whatever the requests are. -/
theorem Fair.untold (h : Fair t d) (hturned : Turned t d.session s') (hheaded : Headed t s')
    (hleft : s'.left = d.session.left) (hhums : Hums d.session.wm s'.wm)
    (hasks : ∀ c, asks c ⊆ d.asks c)
    (hstarted : (d.session.wm.client t).controlstarted ≠ true) :
    Fair t { d with session := s', asks := asks } := by
  obtain ⟨hnone, haway⟩ := h.early hstarted
  have hclosed : ∀ c, c ≠ t → (deal t { d with session := s', asks := asks } c).Closed := by
    intro c hct
    have hd := deal_turn asks d.away h.toSound hturned hhums.delivers c
    have hwithdraws : ∀ n ∈ (asks c).filterMap (asked (d.name c)), n = .withdraw := by
      intro n hn
      obtain ⟨r, hr, hasked⟩ := List.mem_filterMap.mp hn
      rw [(h.passed c hct r (hasks c hr)).asked] at hasked
      split_ifs at hasked
      exact (Option.some.inj hasked).symm
    rw [Deal.Closed, hd]
    simp only [letterFor, List.filterMap_nil, List.append_nil, name, hnone, List.nil_append]
    exact Custody.final_withdraws hwithdraws
  have hlive : ∀ {c}, s'.Live c ↔ d.session.Live c := by
    intro c
    rw [Live, Live, hturned.refs, hleft]
  refine h.turned _ _ hturned hheaded hhums.delivers (by rintro y ⟨⟩) hasks
    (fun c hc => (h.fresh c hc).1) ?_ ?_ ?_ fun _ => ⟨fun _ => rfl, rfl⟩
  · intro c hc hct _
    exact (hclosed c hct).balanced (congrArg (Option.map condenselabel) (haway c))
  · exact fun c hc hct _ => ⟨haway c, hclosed c hct⟩
  · intro n hn
    rw [letterFor, List.filterMap_nil, List.append_nil]
    exact h.absent n fun c hc hct => hn c (hlive.mpr hc) hct

/-! ## Requests -/

/-- A request for a button, as it reaches the toolbar. -/
def forwarded (d : Tray) (c : Cid) (data : String) : String :=
  "request " ++ toString (d.session.wm.client c).id ++ " " ++ data

variable {data : String}

theorem name_injective (h : Headed t d.session) (hc : d.session.Live c) (hz : d.session.Live z)
    (hname : d.name c = d.name z) : c = z :=
  h.unique c z hc hz (toString_injective hname)

/-- A request of a client that is not the toolbar is forwarded. -/
theorem Fair.forwarded (h : Fair t d) (hturned : Turned t d.session s') (hheaded : Headed t s')
    (hleft : s'.left = d.session.left) (hstarted : (s'.wm.client t).controlstarted = true)
    (hc : d.session.Live c) (hct : c ≠ t)
    (hsent : Delivers d.session.wm s'.wm (some (t, d.forwarded c data)))
    (hasks : asks c ⊆ d.asks c) (hother : ∀ z, z ≠ c → asks z = d.asks z ∧ away z = d.away z)
    (hbalanced : c ∈ d.session.wm.order → Deal.Balanced
      { left := (away c).map condenselabel
        ticket := d.buttons.lookup (d.name c)
        notes := d.notes t (d.name c) ++ (asked (d.name c) data).toList ++
          (asks c).filterMap (asked (d.name c))
        returns := (d.deal t c).returns })
    (hhidden : c ∉ d.session.wm.order → away c = none ∧
      final (d.buttons.lookup (d.name c)) (d.notes t (d.name c) ++
        (asked (d.name c) data).toList ++ (asks c).filterMap (asked (d.name c))) = none) :
    Fair t { d with session := s', asks := asks, away := away } := by
  have hlive : ∀ {z}, s'.Live z ↔ d.session.Live z := by
    intro z
    rw [Live, Live, hturned.refs, hleft]
  -- the toolbar gets one more note, about the client
  have hnote : ∀ id, (letterFor (some (t, d.forwarded c data)) t).filterMap (note id) =
      if d.name c = id then (asked id data).toList else [] := by
    intro id
    rw [letterFor, if_pos rfl, List.filterMap_cons, Tray.forwarded, note_request, List.filterMap_nil]
    change _ = if toString (d.session.wm.client c).id = id then _ else _
    split_ifs
    · cases asked id data <;> rfl
    · rfl
  have hletter : ∀ z, z ≠ t → letterFor (some (t, d.forwarded c data)) z = [] :=
    fun z hzt => if_neg (Ne.symm hzt)
  have hself : deal t { d with session := s', asks := asks, away := away } c =
      { left := (away c).map condenselabel
        ticket := d.buttons.lookup (d.name c)
        notes := d.notes t (d.name c) ++ (asked (d.name c) data).toList ++
          (asks c).filterMap (asked (d.name c))
        returns := (d.deal t c).returns } := by
    rw [deal_turn _ _ h.toSound hturned hsent, hnote, if_pos rfl, hletter c hct, (hother t hct.symm).1]
    rfl
  -- which is not about anybody else
  have hrest : ∀ z, d.session.Live z → z ≠ t → z ≠ c →
      deal t { d with session := s', asks := asks, away := away } z = d.deal t z := by
    intro z hz hzt hzc
    have hname : d.name c ≠ d.name z :=
      fun heq => hzc (name_injective h.headed hz hc heq.symm)
    rw [deal_turn _ _ h.toSound hturned hsent, hnote, if_neg hname, hletter z hzt, (hother t hct.symm).1,
      (hother z hzc).1, (hother z hzc).2, List.append_nil]
    rfl
  refine h.turned _ _ hturned hheaded hsent ?_ ?_ ?_ ?_ ?_ ?_ fun hst => absurd hstarted hst
  · rintro y ⟨⟩
    exact .request _ _
  · intro z
    by_cases hzc : z = c
    · exact hzc ▸ hasks
    · rw [(hother z hzc).1]
      exact List.Subset.refl _
  · intro z hz
    have hzc : z ≠ c := fun heq => Nat.not_lt.mpr hz (heq ▸ hc.1)
    rw [(hother z hzc).2]
    exact (h.fresh z hz).1
  · intro z hz hzt horder
    by_cases hzc : z = c
    · subst hzc
      rw [hself]
      exact hbalanced horder
    · rw [hrest z (hlive.mp hz) hzt hzc]
      exact h.balanced z (hlive.mp hz) hzt
  · intro z hz hzt horder
    by_cases hzc : z = c
    · subst hzc
      rw [hself]
      exact hhidden horder
    · rw [hrest z (hlive.mp hz) hzt hzc, (hother z hzc).2]
      exact h.hidden z (hlive.mp hz) hzt horder
  -- nor about an id that nobody has
  · intro n hn
    have hname : d.name c ≠ toString n :=
      fun heq => hn c (hlive.mpr hc) hct (toString_injective heq)
    rw [hnote, if_neg hname, List.append_nil]
    exact h.absent n fun z hz hzt => hn z (hlive.mpr hz) hzt

/-- What a request means that does not ask for a button. -/
theorem asked_of_head (hdata : (unquoted data).head? ≠ some "task") (id : String) :
    asked id data = none ∨ asked id data = some .withdraw := by
  rw [asked.eq_def]
  split
  · exact Or.inl rfl
  · rename_i cmd args heq
    rw [heq] at hdata
    rw [Topbar.handlerequest.eq_def]
    split
    · exact absurd rfl hdata
    · exact Or.inr (if_pos rfl)
    · exact Or.inr (if_pos rfl)
    · exact Or.inl rfl

/-- The effect of a request on the session. -/
theorem request_step {ptr : List Pointer} {answer : Answer} (hc : d.session.Live c)
    (hreq : d.session.wm.handlerequest .topwin env c data ptr = some (w, answer)) :
    d.session.step .topwin env (.request c data ptr) = some { d.session with wm := w } := by
  simp only [Session.step, if_pos hc, hreq, Option.map_some]

/-- A request that a program makes of its own accord, and not by `tkclient`. -/
theorem Fair.request (h : Fair t d) {ptr : List Pointer}
    (hrule : Ruled t d (.turn (.request c data ptr)))
    (hstep : d.session.step .topwin env (.request c data ptr) = some s') :
    Fair t { d with session := s' } := by
  obtain ⟨hfree, hrule⟩ := hrule
  have hobeys : Obeys t d.session (.request c data ptr) := by
    intro hct
    rw [if_pos hct] at hrule
    exact hrule.2
  have hturned := step_turned h.headed hobeys (fun _ => nofun) hstep
  have hheaded := step_headed h.headed hobeys hstep
  simp only [Session.step] at hstep
  split_ifs at hstep with hc
  obtain ⟨⟨w, answer⟩, hreq, rfl⟩ := Option.map_eq_some_iff.mp hstep
  rcases Hums.handled (Wm.handled hreq) with
    hhums | ⟨ctlr, hctlr, hne, hstarted, rfl⟩ | ⟨id, msg, msgs, z, hdata, hstarted, -, -⟩
  · exact h.hums d.asks hturned hheaded rfl hhums (fun _ => List.Subset.refl _)
      (fun _ _ => rfl) fun _ => rfl
  · obtain rfl := ((h.headed.controller ctlr).mp hctlr).1
    rw [if_neg hne.symm] at hrule
    have hsent : Delivers d.session.wm (d.session.wm.ctl ctlr (d.forwarded c data))
        (some (ctlr, d.forwarded c data)) := Hums.delivers_ctl .rfl'
    refine h.forwarded d.asks d.away hturned hheaded rfl hstarted hc hne.symm hsent
      (List.Subset.refl _) (fun _ _ => ⟨rfl, rfl⟩) ?_ ?_
    · intro _
      have hbalanced := h.balanced c hc hne.symm
      have hdeal : d.deal ctlr c = ⟨(d.away c).map condenselabel, d.buttons.lookup (d.name c),
          d.notes ctlr (d.name c), (d.deal ctlr c).returns⟩ := by
        simp only [deal, hfree, List.filterMap_nil, List.append_nil]
      rw [hdeal] at hbalanced
      rw [hfree, List.filterMap_nil, List.append_nil]
      -- a program may withdraw its button, but not ask for one in this way
      rcases asked_of_head hrule (d.name c) with hnone | hwithdraw
      · rw [hnone, Option.toList_none, List.append_nil]
        exact hbalanced
      · rw [hwithdraw, Option.toList_some]
        exact Deal.Step.ask.balanced hbalanced
    · intro horder
      obtain ⟨haway, hclosed⟩ := h.hidden c hc hne.symm horder
      have hfinal : final (d.buttons.lookup (d.name c)) (d.notes ctlr (d.name c)) = none := by
        have heq : (d.deal ctlr c).notes = d.notes ctlr (d.name c) := by
          simp only [deal, hfree, List.filterMap_nil, List.append_nil]
        rw [Deal.Closed, heq] at hclosed
        exact hclosed
      refine ⟨haway, ?_⟩
      rw [hfree, List.filterMap_nil, List.append_nil]
      rcases asked_of_head hrule (d.name c) with hnone | hwithdraw
      · rw [hnone, Option.toList_none, List.append_nil]
        exact hfinal
      · rw [hwithdraw, Option.toList_some]
        exact Custody.final_snoc _
  -- only the toolbar has messages passed on, and does so by requests of its own
  · obtain rfl := h.headed.started hc hstarted
    rw [if_pos rfl] at hrule
    exact absurd (congrArg List.head? hdata) hrule.1

/-- What becomes of a request for a button. -/
theorem handlerequest_passed (env : Env) (h : Headed t d.session) (hct : c ≠ t) {cmd : String}
    {args : List String} (hreq : unquoted data = cmd :: args) (hcmd : cmd = "task" ∨ cmd = "untask")
    (hhead : data.toList.head? ≠ some '!') (ptr : List Pointer) :
    d.session.wm.handlerequest .topwin env c data ptr =
      some (if (d.session.wm.client t).controlstarted then
          (d.session.wm.ctl t (d.forwarded c data), none)
        else (d.session.wm, some "unknown control request")) := by
  have hmove : ¬ (cmd = "!move" ∨ cmd = "!size") := by
    rcases hcmd with rfl | rfl <;> decide
  have hother : d.session.wm.handlerequest .topwin env c data ptr =
      some (d.session.wm.otherRequest c data) := by
    rw [handlerequest_cons hreq, if_neg fun hshort => hhead hshort.1, if_neg hmove]
    rcases hcmd with rfl | rfl <;> rfl
  rw [hother, otherRequest.eq_def]
  split
  · rename_i hctlr
    rw [if_neg fun hstarted => ?_]
    cases hctlr.symm.trans (h.steered hstarted)
  · rename_i ctlr hctlr
    obtain rfl := ((h.controller ctlr).mp hctlr).1
    cases hstarted : (d.session.wm.client ctlr).controlstarted with
    | true => rw [if_neg (by simp [hct.symm]), if_pos rfl, Tray.forwarded]
    | false => rw [if_pos (Or.inr rfl), if_neg Bool.false_ne_true]

theorem update_subset {rs : List String} (hsub : rs ⊆ d.asks c) (z : Cid) :
    Function.update d.asks c rs z ⊆ d.asks z := by
  by_cases hzc : z = c
  · subst hzc
    rw [Function.update_self]
    exact hsub
  · rw [Function.update_of_ne hzc]
    exact List.Subset.refl _

/-- A message that a program has passed back reaches the manager. -/
theorem Fair.served (h : Fair t d) (hct : c ≠ t) {r : String} {rs : List String}
    (hr : d.asks c = r :: rs) (hstep : d.session.step .topwin env (.request c r []) = some s') :
    Fair t { d with session := s', asks := Function.update d.asks c rs } := by
  have hobeys : Obeys t d.session (.request c r []) := fun heq => absurd heq hct
  have hturned := step_turned h.headed hobeys (fun _ => nofun) hstep
  have hheaded := step_headed h.headed hobeys hstep
  have hrs : rs ⊆ d.asks c := hr ▸ List.subset_cons_self r rs
  have hsub := update_subset hrs
  have hletter : Letter r := h.passed c hct r (hr ▸ List.mem_cons_self)
  simp only [Session.step] at hstep
  split_ifs at hstep with hc
  obtain ⟨⟨w, answer⟩, hreq, rfl⟩ := Option.map_eq_some_iff.mp hstep
  -- a request that is forwarded goes on to be a message of the toolbar
  have hforward : (d.session.wm.client t).controlstarted = true →
      w = d.session.wm.ctl t (d.forwarded c r) →
        Fair t { d with session := { d.session with wm := w }
                        asks := Function.update d.asks c rs } := by
    rintro hstarted rfl
    have hsent : Delivers d.session.wm (d.session.wm.ctl t (d.forwarded c r))
        (some (t, d.forwarded c r)) := Hums.delivers_ctl .rfl'
    have hnotes : d.notes t (d.name c) ++ (asked (d.name c) r).toList ++
        rs.filterMap (asked (d.name c)) = (d.deal t c).notes := by
      rw [deal, hr, List.filterMap_cons]
      cases asked (d.name c) r with
      | none => rw [Option.toList_none, List.append_nil]
      | some n => rw [Option.toList_some, List.append_assoc, List.singleton_append]
    refine h.forwarded _ d.away hturned hheaded rfl hstarted hc hct hsent (hsub c) ?_ ?_ ?_
    · exact fun z hzc => ⟨Function.update_of_ne hzc _ _, rfl⟩
    · intro _
      rw [Function.update_self, hnotes]
      exact h.balanced c hc hct
    · intro horder
      rw [Function.update_self, hnotes]
      exact h.hidden c hc hct horder
  by_cases huntask : Tkclient.qword r = "untask"
  -- `untask` is forwarded, or dropped before the toolbar has control
  · obtain rfl := hletter.eq_untask huntask
    rw [handlerequest_passed env h.headed hct (unquoted_plain (by decide)) (Or.inr rfl) (by decide)]
      at hreq
    split_ifs at hreq with hstarted
    · exact hforward hstarted (congrArg Prod.fst (Option.some.inj hreq)).symm
    · obtain rfl := (congrArg Prod.fst (Option.some.inj hreq)).symm
      exact h.untold _ hturned hheaded rfl .rfl' hsub hstarted
  -- other messages that a program passes back say nothing about its button
  · rcases Hums.handled (Wm.handled hreq) with
      hhums | ⟨ctlr, hctlr, hne, hstarted, hw⟩ | ⟨id, msg, msgs, z, hdata, hstarted, -, -⟩
    · refine h.hums _ hturned hheaded rfl hhums hsub ?_ ?_
      · intro z _
        by_cases hzc : z = c
        · subst hzc
          rw [Function.update_self, hr, List.filterMap_cons, hletter.asked, if_neg huntask]
        · rw [Function.update_of_ne hzc]
      · intro id
        rw [Function.update_of_ne hct.symm]
    · obtain rfl := ((h.headed.controller ctlr).mp hctlr).1
      exact hforward hstarted hw
    · exact absurd (h.headed.started hc hstarted) hct

/-- The toolbar has a client told something, or tries to. No client that is on the screen and has a
return due is passed over. -/
theorem Fair.addressed (h : Fair t d) (hturned : Turned t d.session s') (hheaded : Headed t s')
    (hleft : s'.left = d.session.left) (hsent : Delivers d.session.wm s'.wm x)
    (hx : ∀ y ∈ x, y.2 = "untask" ∨ y.2 = "kbdfocus 1") {r : String} {rs : List String}
    (hr : d.asks t = r :: rs)
    (hcount : ∀ c, d.session.Live c → c ≠ t → c ∈ d.session.wm.order →
      (d.asks t).count (Request.text ⟨d.name c, .untask⟩) ≤
        (letterFor x c).countP (fun e => Tkclient.qword e = "untask") +
          rs.count (Request.text ⟨d.name c, .untask⟩)) :
    Fair t { d with session := s', asks := Function.update d.asks t rs } := by
  have hlive : ∀ {c}, s'.Live c ↔ d.session.Live c := by
    intro c
    rw [Live, Live, hturned.refs, hleft]
  have hrs : rs ⊆ d.asks t := hr ▸ List.subset_cons_self r rs
  -- these messages do not mean anything to the toolbar
  have hnote : ∀ id, (letterFor x t).filterMap (note id) = [] := by
    intro id
    refine List.filterMap_eq_nil_iff.mpr fun e he => ?_
    rw [letterFor.eq_def] at he
    split at he
    · split_ifs at he
      · rw [List.mem_singleton.mp he]
        rcases hx _ rfl with heq | heq
        · dsimp only at heq
          rw [heq, note, Topbar.wmctl, unquoted_plain (by decide)]
          rfl
        · have hkbd : "kbdfocus 1" = "kbdfocus" ++ " " ++ "1" := by decide
          dsimp only at heq
          rw [heq, note, Topbar.wmctl, hkbd, unquoted_cons (by decide)]
          rfl
      · cases he
    · cases he
  have hdeal : ∀ c, c ≠ t →
      deal t { d with session := s', asks := Function.update d.asks t rs } c =
        { d.deal t c with
          returns := (d.pending c).countP (fun e => Tkclient.qword e = "untask") +
            (letterFor x c).countP (fun e => Tkclient.qword e = "untask") +
              rs.count (Request.text ⟨d.name c, .untask⟩) } := by
    intro c hct
    have hd := deal_turn (Function.update d.asks t rs) d.away h.toSound hturned
      hsent c
    simp only [hnote, List.append_nil, Function.update_self, Function.update_of_ne hct] at hd
    exact hd
  refine h.turned _ _ hturned hheaded hsent ?_ (update_subset hrs) (fun c hc => (h.fresh c hc).1)
    ?_ ?_ ?_ fun _ => ⟨fun n => hnote _, rfl⟩
  · intro y hy
    rcases hx y hy with heq | heq <;> rw [heq]
    · exact .untask
    · exact .kbdfocus
  · intro c hc hct horder
    have hbalanced := h.balanced c (hlive.mp hc) hct
    have hle := hcount c (hlive.mp hc) hct horder
    -- the client has as many reasons to answer as before, or more
    obtain ⟨k, hk⟩ : ∃ k, (d.pending c).countP (fun e => Tkclient.qword e = "untask") +
        (letterFor x c).countP (fun e => Tkclient.qword e = "untask") +
          rs.count (Request.text ⟨d.name c, .untask⟩) = (d.deal t c).returns + k := by
      refine Nat.exists_eq_add_of_le ?_
      simp only [deal]
      omega
    rw [hdeal c hct, hk]
    exact (Deal.Step.gift k).balanced hbalanced
  · intro c hc hct horder
    obtain ⟨haway, hclosed⟩ := h.hidden c (hlive.mp hc) hct horder
    rw [hdeal c hct]
    exact ⟨haway, hclosed⟩
  · intro n hn
    rw [hnote, List.append_nil]
    exact h.absent n fun c hc hct => hn c (hlive.mpr hc) hct

/-- A "ctl" request of the toolbar goes to the client on the screen that has the id, if there is
one. -/
theorem Fair.served_ctl (h : Fair t d) {id : String} {o : Toolbar.Order}
    (ho : o = .untask ∨ o = .kbdfocus) {rs : List String}
    (hr : d.asks t = Request.text ⟨id, o⟩ :: rs)
    (hstarted : (d.session.wm.client t).controlstarted = true) {answer : Answer}
    (hturned : Turned t d.session { d.session with wm := w })
    (hheaded : Headed t { d.session with wm := w })
    (hreq : d.session.wm.handlerequest .topwin env t (Request.text ⟨id, o⟩) [] =
      some (w, answer)) :
    Fair t { d with session := { d.session with wm := w }, asks := Function.update d.asks t rs } := by
  rw [Ledger.handlerequest_text d.session.wm ⟨id, o⟩ hstarted] at hreq
  have hcount : ∀ c, Request.text ⟨d.name c, .untask⟩ ≠ Request.text ⟨id, o⟩ →
      (d.asks t).count (Request.text ⟨d.name c, .untask⟩) =
        rs.count (Request.text ⟨d.name c, .untask⟩) := by
    intro c hne
    rw [hr, List.count_cons_of_ne hne.symm]
  -- the request is for the client of that name, of which there is only one
  have hid : ∀ c, d.session.Live c → Request.text ⟨d.name c, .untask⟩ = Request.text ⟨id, o⟩ →
      ((d.session.wm.client c).id : Int) = int id := by
    intro c hc heq
    have hname : d.name c = id := congrArg Request.id (text_injective heq)
    rw [← hname]
    exact (Ledger.int_id (h.headed.small c hc.1)).symm
  cases hfind : d.session.wm.order.find? fun z => ((d.session.wm.client z).id : Int) = int id with
  | none =>
    rw [hfind] at hreq
    obtain rfl := (congrArg Prod.fst (Option.some.inj hreq)).symm
    -- nobody has the id: the request is refused, and it was not about a client on the screen
    refine h.addressed (x := none) hturned hheaded rfl Hums.rfl'.delivers (by rintro y ⟨⟩) hr ?_
    intro c hc hct horder
    have hne : Request.text ⟨d.name c, .untask⟩ ≠ Request.text ⟨id, o⟩ := by
      intro heq
      have hnot := List.find?_eq_none.mp hfind c horder
      exact hnot (decide_eq_true (hid c hc heq))
    rw [hcount c hne]
    exact Nat.le_add_left _ _
  | some z =>
    rw [hfind] at hreq
    obtain rfl := (congrArg Prod.fst (Option.some.inj hreq)).symm
    have hsent : Delivers d.session.wm (d.session.wm.ctl z (quoted o.words))
        (some (z, quoted o.words)) := Hums.delivers_ctl .rfl'
    refine h.addressed hturned hheaded rfl hsent ?_ hr ?_
    · rintro y ⟨⟩
      have huntask : quoted Toolbar.Order.untask.words = "untask" := by decide
      have hkbd : quoted Toolbar.Order.kbdfocus.words = "kbdfocus 1" := by decide
      rcases ho with rfl | rfl
      · exact Or.inl huntask
      · exact Or.inr hkbd
    · intro c hc hct horder
      by_cases heq : Request.text ⟨d.name c, .untask⟩ = Request.text ⟨id, o⟩
      · obtain ⟨rfl, rfl⟩ := Request.mk.inj (text_injective heq)
        have hzid := of_decide_eq_true (List.find?_some
          (p := fun z => decide (((d.session.wm.client z).id : Int) = int (d.name c))) hfind)
        have hcid := hid c hc heq
        have hz := h.headed.live_of_mem (List.mem_of_find?_eq_some hfind)
        -- the client is told what the request was about: one message more and one request less
        obtain rfl : z = c := h.headed.unique z c hz hc (by exact_mod_cast hzid.trans hcid.symm)
        have hword : quoted Toolbar.Order.untask.words = "untask" := by decide
        rw [letterFor, if_pos rfl, hr, List.count_cons_self, hword, List.countP_singleton,
          Tkclient.qword_plain (by decide)]
        simp only [decide_true, if_true]
        omega
      · rw [hcount c heq]
        exact Nat.le_add_left _ _

/-- A request of the toolbar reaches the manager. -/
theorem Fair.served_toolbar (h : Fair t d) {r : String} {rs : List String}
    (hr : d.asks t = r :: rs) (hstep : d.session.step .topwin env (.request t r []) = some s') :
    Fair t { d with session := s', asks := Function.update d.asks t rs } := by
  have hcivil := h.civil r (hr ▸ List.mem_cons_self)
  have hobeys : Obeys t d.session (.request t r []) := by
    intro _
    rcases hcivil with ⟨id, o, -, rfl⟩ | ⟨-, hend⟩
    · rw [Ledger.head?_text]
      decide
    · exact hend
  have hturned := step_turned h.headed hobeys (fun _ => nofun) hstep
  have hheaded := step_headed h.headed hobeys hstep
  have hrs : rs ⊆ d.asks t := hr ▸ List.subset_cons_self r rs
  have hsub := update_subset hrs
  simp only [Session.step] at hstep
  split_ifs at hstep with hc
  obtain ⟨⟨w, answer⟩, hreq, rfl⟩ := Option.map_eq_some_iff.mp hstep
  have hnotforward : ∀ ctlr, d.session.wm.controller = some ctlr → ctlr = t :=
    fun ctlr hctlr => ((h.headed.controller ctlr).mp hctlr).1
  by_cases hstarted : (d.session.wm.client t).controlstarted = true
  · rcases hcivil with ⟨id, o, ho, rfl⟩ | ⟨hctl, -⟩
    -- its requests are those for a client, or about its own window
    · exact h.served_ctl ho hr hstarted hturned hheaded hreq
    · rcases Hums.handled (Wm.handled hreq) with
        hhums | ⟨ctlr, hctlr, hne, -, -⟩ | ⟨id, msg, msgs, z, hdata, -, -, -⟩
      · refine h.hums _ hturned hheaded rfl hhums hsub ?_ ?_
        · intro z hzt
          rw [Function.update_of_ne hzt]
        · intro id
          have hne : r ≠ Request.text ⟨id, .untask⟩ := by
            rintro rfl
            exact hctl (Ledger.head?_text _)
          rw [Function.update_self, hr, List.count_cons_of_ne hne]
      -- the toolbar does not get its own requests back
      · exact absurd (hnotforward ctlr hctlr) hne
      · exact absurd (congrArg List.head? hdata) hctl
  · rcases Hums.handled (Wm.handled hreq) with
      hhums | ⟨ctlr, hctlr, hne, -, -⟩ | ⟨id, msg, msgs, z, -, hst, -, -⟩
    · exact h.untold _ hturned hheaded rfl hhums hsub hstarted
    · exact absurd (hnotforward ctlr hctlr) hne
    · exact absurd hst hstarted

/-- A program puts its window away. -/
theorem Fair.task (h : Fair t d) {title : String} (hrule : c ∈ d.session.wm.order)
    (hstep : step env t d (.task c title) = some d') : Fair t d' := by
  rw [step] at hstep
  split_ifs at hstep with hfree
  obtain ⟨⟨hc, hasks⟩, hct⟩ := hfree
  have hwords : unquoted (Tkclient.task title) = ["task", title] := by
    have hblank : Tkclient.task title = "task" ++ " " ++ quoted [title] := rfl
    rw [hblank, unquoted_cons (by decide), unquoted_quoted]
  have hhead : (Tkclient.task title).toList.head? ≠ some '!' := by
    have ht : (Tkclient.task title).toList.head? = some 't' := by
      rw [Tkclient.task, String.toList_append]
      rfl
    rw [ht]
    decide
  have hreq := handlerequest_passed env h.headed hct hwords (Or.inl rfl) hhead []
  obtain ⟨⟨w, answer⟩, hanswer, rfl⟩ := Option.map_eq_some_iff.mp hstep
  have hobeys : Obeys t d.session (.request c (Tkclient.task title) []) :=
    fun heq => absurd heq hct
  have hturn := request_step hc hanswer
  have hturned := step_turned h.headed hobeys (fun _ => nofun) hturn
  have hheaded := step_headed h.headed hobeys hturn
  rw [hreq] at hanswer
  split_ifs at hanswer with hstarted
  · obtain ⟨rfl, rfl⟩ := Prod.mk.inj (Option.some.inj hanswer)
    have hsent : Delivers d.session.wm (d.session.wm.ctl t (d.forwarded c (Tkclient.task title)))
        (some (t, d.forwarded c (Tkclient.task title))) := Hums.delivers_ctl .rfl'
    have hasked : asked (d.name c) (Tkclient.task title) = some (.deposit (condenselabel title)) := by
      rw [asked, hwords]
      exact if_pos rfl
    refine h.forwarded d.asks _ hturned hheaded rfl hstarted hc hct hsent
      (List.Subset.refl _) ?_ ?_ fun hnot => absurd hrule hnot
    · intro z hzc
      refine ⟨rfl, ?_⟩
      rw [if_pos rfl, Function.update_of_ne hzc]
    · intro _
      rw [if_pos rfl, Function.update_self, hasked, hasks, List.filterMap_nil, List.append_nil,
        Option.toList_some]
      exact fun _ => Custody.final_snoc _
  · obtain ⟨rfl, rfl⟩ := Prod.mk.inj (Option.some.inj hanswer)
    dsimp only
    rw [if_neg (Option.some_ne_none _)]
    exact h.hums d.asks hturned hheaded rfl .rfl' (fun _ => List.Subset.refl _)
      (fun _ _ => rfl) fun _ => rfl

end Tray

end Aimsgui
