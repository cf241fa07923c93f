import Aimsgui.Control
import Aimsgui.Listing
import Aimsgui.Repacking
import Aimsgui.Titles

/-!
# The tab bar

`Desk` is `tabswin` together with its toolbar, which is the client `t` and the controller. The
toolbar handles the control messages that have been sent to it one at a time, and waits for
the answer to each of its requests before it goes on. In between the manager takes its turns.
A message that has been sent and not handled is `pending`; what the toolbar will show when it
has handled them all is what the manager knows by then (`tabs_mirror`), because every
operation of the manager sends what makes the difference (`Reports`).
-/

namespace Aimsgui

open Toolbar Transition

/-- A window manager and its toolbar. -/
structure Desk where
  session : Session
  bar : Bar := {}
  /-- the number of messages that the toolbar has handled -/
  handled : Nat := 0
  /-- the requests that it is going to send before it goes on -/
  todo : List Request := []

/-- Something that happens at a `Desk`. -/
inductive Happening where
  /-- a turn of the main loop of the manager -/
  | turn (e : Event)
  /-- the toolbar handles a message -/
  | take
  /-- somebody clicks on a tab -/
  | click (id : String)
  /-- somebody clicks on the button in a tab -/
  | close (id : String)
  /-- the manager handles a request of the toolbar -/
  | serve
  deriving DecidableEq, Repr

namespace Desk

/-- A manager without clients. -/
def start (screen : Rect) : Desk := { session := .start screen }

/-- The messages that the toolbar has not handled yet. -/
def pending (t : Cid) (d : Desk) : List String := (d.session.wm.mail t).drop d.handled

/-- A turn of the manager, or a message that the toolbar takes or sends. -/
def step (tk : Bar.Tk) (env : Env) (t : Cid) (d : Desk) : Happening → Option Desk
  | .turn e => (d.session.step .tabswin env e).map fun s => { d with session := s }
  | .take =>
    if d.todo = [] then
      match d.pending t with
      | [] => none
      | e :: _ => (wmctl e).map fun call =>
        { d with
          bar := (d.bar.call tk call).1
          handled := d.handled + 1
          todo := (d.bar.call tk call).2 }
    else none
  | .click id =>
    if d.todo = [] ∧ id ∈ d.bar.tabs then
      some { d with bar := (d.bar.clientFocus id).1, todo := (d.bar.clientFocus id).2 }
    else none
  | .close id =>
    if d.todo = [] ∧ id ∈ d.bar.tabs then some { d with todo := [⟨id, .exit⟩] } else none
  | .serve =>
    match d.todo with
    | [] => none
    | r :: rs => (d.session.step .tabswin env (.request t r.text [])).map fun s =>
      { d with session := s, todo := rs }

/-- The toolbar has handled all messages. -/
def Idle (t : Cid) (d : Desk) : Prop := d.todo = [] ∧ d.pending t = []

instance (t : Cid) (d : Desk) : Decidable (Idle t d) := inferInstanceAs (Decidable (_ ∧ _))

/-- The icon that the request asks for. -/
def icon (data : String) : Option String :=
  match unquoted data with
  | "clienticon" :: icon :: _ => some icon
  | _ => none

/-- The id of a client that has not left is no other client's; the toolbar is the first to join
and has started control before anybody else joins; it does not leave, and neither does a
client that has not joined. All requests of the toolbar for which it needs control are those
that `Bar` sends, and while it waits for one of them it makes no other. -/
def Ruled (t : Cid) (d : Desk) : Happening → Prop
  | .turn (.opened id) =>
    ∀ c < d.session.wm.z.refs, c ∉ d.session.left → (d.session.wm.client c).id ≠ id
  | .turn (.join c) => c ≠ t → (d.session.wm.client t).controlstarted = true
  | .turn (.leave c) => c ≠ t ∧ c ∈ d.session.joined
  | .turn (.request c data _) =>
    c = t → d.todo = [] ∧ (unquoted data).head? ≠ some "ctl" ∧
      (unquoted data).head? ≠ some "endcontrol"
  | _ => True

instance (t : Cid) (d : Desk) : ∀ x, Decidable (Ruled t d x)
  | .turn (.opened _) => inferInstanceAs (Decidable (∀ c < _, _ → _))
  | .turn (.join _) | .turn (.request _ _ _) => inferInstanceAs (Decidable (_ → _))
  | .turn (.leave _) => inferInstanceAs (Decidable (_ ∧ _))
  | .turn (.key _) | .turn (.pointer _ _) | .turn (.winctl _ _) => inferInstanceAs (Decidable True)
  | .take | .click _ | .close _ | .serve => inferInstanceAs (Decidable True)

/-- Tk finds one command at most where the name of the icon stands, as far as it sees it. -/
def OneCommand (icon : String) : Prop :=
  (tkcommands none [] (cstring (icon ++ ".bit")).toList).length ≤ 1 ∧ '[' ∉ (cstring icon).toList

instance (icon : String) : Decidable (OneCommand icon) := inferInstanceAs (Decidable (_ ∧ _))

/-- When the toolbar starts control nobody has the keyboard yet, and the name of an icon is not
a command of Tk as well. -/
def Tame (t : Cid) (d : Desk) : Happening → Prop
  | .turn (.request c data _) =>
    (c = t → unquoted data = ["start", "control"] →
        (d.session.wm.client t).controlstarted = true ∨ d.session.wm.kbdfocus = none) ∧
      ∀ s ∈ icon data, OneCommand s
  | _ => True

instance (t : Cid) (d : Desk) : ∀ x, Decidable (Tame t d x)
  | .turn (.request _ data _) =>
    inferInstanceAs (Decidable ((_ → _ → _) ∧ ∀ s ∈ icon data, _))
  | .turn (.opened _) | .turn (.join _) | .turn (.leave _) => inferInstanceAs (Decidable True)
  | .turn (.key _) | .turn (.pointer _ _) | .turn (.winctl _ _) => inferInstanceAs (Decidable True)
  | .take | .click _ | .close _ | .serve => inferInstanceAs (Decidable True)

end Desk

/-- The options of a label are no business of the frames, as long as no command is carried out
to find out what they are. -/
def Harmless (tk : Bar.Tk) : Prop :=
  ∀ (b : Bar) (id : Nat) (opts : String), '[' ∉ opts.toList →
    tk b (".toolbar." ++ toString id ++ ".icon configure " ++ opts) = none ∨
      tk b (".toolbar." ++ toString id ++ ".icon configure " ++ opts) = some b

/-- The tabs are those of the clients that have joined and not left, apart from the toolbar, and
a toolbar that has started control knows who has the keyboard. -/
structure Mirrors (t : Cid) (s : Session) (b : Bar) : Prop where
  tabs : ∀ id, id ∈ b.tabs ↔
    ∃ c ∈ s.joined, c ∉ s.left ∧ c ≠ t ∧ id = toString (s.wm.client c).id
  kbdfocus : (s.wm.client t).controlstarted = true →
    b.kbdfocus = s.wm.kbdfocus.map fun c => toString (s.wm.client c).id

/-! ## What the toolbar hears -/

/-- What the toolbar keeps after it has handled a message. -/
def hear (tk : Bar.Tk) (b : Bar) (e : String) : Bar :=
  match wmctl e with
  | some call => (b.call tk call).1
  | none => b

/-- The message is neither about the tabs nor about the keyboard. -/
def Neutral (tk : Bar.Tk) (e : String) : Prop :=
  ∀ b, (hear tk b e).tabs = b.tabs ∧ (hear tk b e).kbdfocus = b.kbdfocus

variable {tk : Bar.Tk} {e cmd : String} {args : List String} {b : Bar}

theorem digits_toString (n : Nat) : digits (toString n).toList = n := digits_repr n

theorem toString_injective {m n : Nat} (h : toString m = toString n) : m = n := by
  have hm := digits_toString m
  rw [h, digits_toString] at hm
  exact_mod_cast hm.symm

theorem toString_ne_none (n : Nat) : toString n ≠ "none" := by
  intro h
  have hn := digits_toString n
  rw [h] at hn
  have hzero : digits "none".toList = 0 := by decide
  rw [hzero] at hn
  obtain rfl : n = 0 := by exact_mod_cast hn.symm
  exact absurd h (by decide)

/-- The message is for the toolbar's own window. -/
theorem wmctl_own (h : unquoted e = cmd :: args)
    (hcmd : cmd ∉ ["request", "newclient", "delclient", "kbdfocuschange"]) :
    wmctl e = some (.own e) := by
  rw [wmctl, h]
  dsimp only
  split
  · exact absurd (by decide) hcmd
  · exact absurd (by decide) hcmd
  · exact absurd (by decide) hcmd
  · exact absurd (by decide) hcmd
  · rfl

theorem neutral_own (h : unquoted e = cmd :: args)
    (hcmd : cmd ∉ ["request", "newclient", "delclient", "kbdfocuschange"]) : Neutral tk e := by
  intro b
  rw [hear, wmctl_own h hcmd]
  exact ⟨rfl, rfl⟩

theorem neutral_reshapeMsg (tag : String) (r : Rect) : Neutral tk (Wm.reshapeMsg tag r) := by
  exact neutral_own (Wm.unquoted_reshapeMsg tag r) (by decide)

theorem neutral_rect (r : Rect) : Neutral tk ("rect " ++ Wm.r2s r) := by
  have hblank : "rect " = "rect" ++ " " := by decide
  rw [hblank]
  exact neutral_own (unquoted_cons (by decide) _) (by decide)

/-- An event of two words. -/
theorem unquoted_event {p w : String} (hp : Plain p) (hw : Plain w) :
    unquoted (p ++ " " ++ w) = [p, w] := by
  have hword := unquoted_quoted [w]
  rw [quoted_singleton_of_plain hw] at hword
  rw [unquoted_cons hp, hword]

theorem neutral_plain {w : String} (hw : Plain w)
    (hcmd : w ∉ ["request", "newclient", "delclient", "kbdfocuschange"]) : Neutral tk w := by
  have hword := unquoted_quoted [w]
  rw [quoted_singleton_of_plain hw] at hword
  exact neutral_own hword hcmd

theorem neutral_haskbdfocus {w : String} (hw : Plain w) : Neutral tk ("haskbdfocus" ++ " " ++ w) :=
  neutral_own (unquoted_event (by decide) hw) (by decide)

theorem hear_newclient (n : Nat) :
    hear tk b ("newclient " ++ toString n) = b.clientNew (toString n) := by
  have hwords : unquoted ("newclient " ++ toString n) = ["newclient", toString n] := by
    have hblank : "newclient " = "newclient" ++ " " := by decide
    rw [hblank, unquoted_event (by decide) (plain_id n)]
  rw [hear, wmctl, hwords]
  rfl

theorem hear_delclient (n : Nat) :
    hear tk b ("delclient " ++ toString n) = (b.clientDel (toString n)).1 := by
  have hwords : unquoted ("delclient " ++ toString n) = ["delclient", toString n] := by
    have hblank : "delclient " = "delclient" ++ " " := by decide
    rw [hblank, unquoted_event (by decide) (plain_id n)]
  rw [hear, wmctl, hwords]
  rfl

theorem hear_kbdfocuschange {w : String} (hw : Plain w) :
    hear tk b ("kbdfocuschange " ++ w) = b.clientKbdfocuschange w := by
  have hwords : unquoted ("kbdfocuschange " ++ w) = ["kbdfocuschange", w] := by
    have hblank : "kbdfocuschange " = "kbdfocuschange" ++ " " := by decide
    rw [hblank, unquoted_event (by decide) hw]
  rw [hear, wmctl, hwords]
  rfl

/-! ## Requests that are passed on -/

/-- Where the commands end does not depend on what stands before them. -/
theorem length_tkcommands (bracket : Option Bracket) (cmd cmd' cs : List Char) :
    (tkcommands bracket cmd cs).length = (tkcommands bracket cmd' cs).length := by
  induction cs generalizing bracket cmd cmd' with
  | nil => cases bracket <;> rfl
  | cons c cs ih =>
    rw [tkcommands.eq_def, tkcommands.eq_def bracket cmd']
    cases bracket with
    | some b =>
      dsimp only
      split_ifs <;> exact ih _ _ _
    | none =>
      dsimp only
      split_ifs
      · exact ih _ _ _
      · exact ih _ _ _
      · rfl
      · rfl
      · exact ih _ _ _

/-- A text that is one command at most. -/
theorem tkcommands_single {cs : List Char} {bracket : Option Bracket} {cmd : List Char}
    (h : (tkcommands bracket cmd cs).length ≤ 1) :
    tkcommands bracket cmd cs = [] ∨
      ∃ p, p <+: cs ∧ tkcommands bracket cmd cs = [cmd.reverse ++ p] := by
  induction cs generalizing bracket cmd with
  | nil =>
    cases bracket with
    | none => exact Or.inr ⟨[], List.prefix_refl _, by rw [tkcommands, List.append_nil]⟩
    | some b => exact Or.inl rfl
  | cons c cs ih =>
    have hnext : ∀ bracket, (tkcommands bracket (c :: cmd) cs).length ≤ 1 →
        tkcommands bracket (c :: cmd) cs = [] ∨
          ∃ p, p <+: c :: cs ∧ tkcommands bracket (c :: cmd) cs = [cmd.reverse ++ p] := by
      intro bracket hlen
      refine (ih hlen).imp id ?_
      rintro ⟨p, hp, heq⟩
      refine ⟨c :: p, List.cons_prefix_cons.mpr ⟨rfl, hp⟩, ?_⟩
      rwa [List.reverse_cons, List.append_assoc, List.singleton_append] at heq
    rw [tkcommands.eq_def] at h ⊢
    cases bracket with
    | some b =>
      dsimp only at h ⊢
      split_ifs at h ⊢ <;> exact hnext _ h
    | none =>
      dsimp only at h ⊢
      split_ifs at h ⊢
      · exact hnext _ h
      · exact hnext _ h
      · -- what follows a semicolon is not carried out
        rw [List.length_cons] at h
        have hrest := List.eq_nil_of_length_eq_zero (Nat.le_zero.mp (Nat.le_of_succ_le_succ h))
        exact Or.inr ⟨[], List.nil_prefix, by rw [hrest, List.append_nil]⟩
      · exact Or.inr ⟨c :: cs, List.prefix_refl _, rfl⟩
      · exact hnext _ h

/-- Nothing happens where there is no special character. -/
theorem tkcommands_append {p : List Char} (hp : ∀ c ∈ p, c ∉ ['[', '{', ';', '\''])
    (cmd cs : List Char) :
    tkcommands none cmd (p ++ cs) = tkcommands none (p.reverse ++ cmd) cs := by
  induction p generalizing cmd with
  | nil => rfl
  | cons c p ih =>
    obtain ⟨hc, hp⟩ := List.forall_mem_cons.mp hp
    simp only [List.mem_cons, List.not_mem_nil, or_false, not_or] at hc
    rw [List.cons_append, tkcommands, if_neg hc.1, if_neg hc.2.1, if_neg hc.2.2.1,
      if_neg hc.2.2.2, ih hp, List.reverse_cons, List.append_assoc, List.singleton_append]

/-- An icon whose name is no command only changes the label. -/
theorem clientIcon_of_oneCommand (h : Harmless tk) (b : Bar) (n : Nat) {icon : String}
    (hicon : Desk.OneCommand icon) : b.clientIcon tk (toString n) icon = b := by
  let start := ".toolbar." ++ toString n ++ ".icon configure -bitmap @/icons/aimsgui/"
  have hdigits : ∀ c ∈ (toString n).toList, c ∉ ['[', '{', ';', '\''] := by
    intro c hc hm
    rw [← toString_natCast] at hc
    simp only [List.mem_cons, List.not_mem_nil, or_false] at hm
    rcases mem_toString hc with hdigit | hminus
    · rcases hm with rfl | rfl | rfl | rfl <;> cases hdigit
    · rcases hm with rfl | rfl | rfl | rfl <;> cases hminus
  have hstart : ∀ c ∈ start.toList, c ∉ ['[', '{', ';', '\''] := by
    simp only [start, String.toList_append, List.mem_append]
    have hall : ∀ s : String, (s.toList.all fun c => decide (c ∉ ['[', '{', ';', '\''])) = true →
        ∀ c ∈ s.toList, c ∉ ['[', '{', ';', '\''] :=
      fun s hs c hc => of_decide_eq_true (List.all_eq_true.mp hs c hc)
    rintro c ((hc | hc) | hc)
    · exact hall ".toolbar." (by decide +kernel) c hc
    · exact hdigits c hc
    · exact hall ".icon configure -bitmap @/icons/aimsgui/" (by decide +kernel) c hc
  have hnul : '\x00' ∉ start.toList := by
    refine cstring_eq_self_iff.mp (cstring_append_of_eq (cstring_append_of_eq ?_ ?_) ?_)
    · decide
    · exact toString_natCast n ▸ cstring_toString n
    · decide
  have hsplit : ∀ s, start ++ s = ".toolbar." ++ toString n ++ ".icon configure " ++
      ("-bitmap @/icons/aimsgui/" ++ s) := by
    intro s
    have hwords : ".icon configure -bitmap @/icons/aimsgui/" =
        ".icon configure " ++ "-bitmap @/icons/aimsgui/" := by decide
    simp only [start, hwords, String.append_assoc]
  have hlen : (tkcommands none start.toList.reverse (cstring (icon ++ ".bit")).toList).length
      ≤ 1 := by
    rw [length_tkcommands none _ []]
    exact hicon.1
  have hcommands : tkcommands none [] (cstring (start ++ icon ++ ".bit")).toList =
      tkcommands none start.toList.reverse (cstring (icon ++ ".bit")).toList := by
    rw [String.append_assoc, cstring_append hnul, String.toList_append, tkcommands_append hstart,
      List.append_nil]
  rw [Bar.clientIcon, Bar.cmd]
  change b.run tk ((tkcommands none [] (cstring (start ++ icon ++ ".bit")).toList).map
    String.ofList) = b
  rw [hcommands]
  rcases tkcommands_single hlen with hnone | ⟨p, hp, hone⟩
  · rw [hnone]
    rfl
  · have hopen : '[' ∉ ("-bitmap @/icons/aimsgui/" ++ String.ofList p).toList := by
      have hlist : (String.ofList p).toList = p := String.toList_ofList
      rw [String.toList_append, List.mem_append, hlist]
      rintro (hm | hm)
      · exact absurd hm (by decide)
      · have hm' := hp.subset hm
        exact (mem_cstring_append hm').elim hicon.2 (by decide)
    have hcmd : String.ofList (start.toList ++ p) = ".toolbar." ++ toString n ++
        ".icon configure " ++ ("-bitmap @/icons/aimsgui/" ++ String.ofList p) := by
      rw [← hsplit, String.ofList_append, String.ofList_toList]
    rw [hone, List.reverse_reverse, List.map_singleton, hcmd]
    rcases h b n _ hopen with hfail | hsame
    · rw [Bar.run, hfail]
    · rw [Bar.run, hsame]
      rfl

theorem call_handlerequest (h : Harmless tk) (b : Bar) (n : Nat)
    (hicon : ∀ icon rest, cmd = "clienticon" → args = icon :: rest → Desk.OneCommand icon) :
    (b.call tk (handlerequest (toString n) cmd args)).1.tabs = b.tabs ∧
      (b.call tk (handlerequest (toString n) cmd args)).1.kbdfocus = b.kbdfocus := by
  have hfocus : (b.clientFocus (toString n)).1.tabs = b.tabs ∧
      (b.clientFocus (toString n)).1.kbdfocus = b.kbdfocus := by
    rw [Bar.clientFocus]
    split_ifs <;> exact ⟨rfl, rfl⟩
  rw [handlerequest.eq_def]
  split
  · split
    · rw [Bar.call, Bar.clientIconify]
      split_ifs <;> exact ⟨rfl, rfl⟩
    · exact ⟨rfl, rfl⟩
  · exact hfocus
  · exact hfocus
  · split <;> exact ⟨rfl, rfl⟩
  · split
    · rename_i icon rest
      rw [Bar.call, clientIcon_of_oneCommand h b n (hicon icon rest rfl rfl)]
      exact ⟨rfl, rfl⟩
    · exact ⟨rfl, rfl⟩
  · exact ⟨rfl, rfl⟩

/-- A request that is passed on changes no tab and no focus, unless the name of an icon says so. -/
theorem neutral_request (h : Harmless tk) (n : Nat) {req : String}
    (hicon : ∀ s ∈ Desk.icon req, Desk.OneCommand s) :
    Neutral tk ("request " ++ toString n ++ " " ++ req) := by
  intro b
  have hwords : unquoted ("request " ++ toString n ++ " " ++ req) =
      "request" :: toString n :: unquoted req := by
    have hblank : "request " = "request" ++ " " := by decide
    have hmsg : "request " ++ toString n ++ " " ++ req =
        "request" ++ " " ++ (toString n ++ " " ++ req) := by
      rw [hblank]
      simp only [String.append_assoc]
    rw [hmsg, unquoted_cons (by decide), unquoted_cons (plain_id n)]
  rw [hear, wmctl, hwords]
  cases hreq : unquoted req with
  | nil => exact ⟨rfl, rfl⟩
  | cons cmd args =>
    refine call_handlerequest h b n ?_
    rintro icon rest rfl rfl
    refine hicon icon ?_
    rw [Desk.icon, hreq]
    rfl

end Aimsgui
