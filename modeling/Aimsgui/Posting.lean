import Aimsgui.Addressing
import Aimsgui.Topbar

/-!
# What `topwin` sends

Most messages of the manager are `Routine`: they tell a client about its windows, the screen or the
keyboard, and the toolbar about nothing. In every turn the manager sends one other message at most
(`Mails`): a request that it forwards, what the toolbar wants a client to be told, or the news that
a client has left. A `Letter` is any of these.
-/

namespace Aimsgui

open Toolbar (Request)

namespace Tkclient

/-- The first word of a text that begins with a plain word. -/
theorem qword_of_plain {p : List Char} (hne : p ≠ []) (hp : PlainChars p) {cs : List Char}
    (hcs : ∀ c ∈ cs.head?, c = ' ') {s : String} (hs : s.toList = p ++ cs) :
    qword s = String.ofList p := by
  obtain ⟨c, p, rfl⟩ := List.exists_cons_of_ne_nil hne
  have hblank : ∀ a ∈ c :: p, a ≠ ' ' := by
    rintro a ha rfl
    exact absurd (hp _ ha).1 (by decide)
  have hquote : c ≠ '\'' := (hp c List.mem_cons_self).2
  have hdrop : s.toList.dropWhile (fun a => decide (a = ' ')) = c :: (p ++ cs) := by
    rw [hs, List.cons_append, List.dropWhile_cons_of_neg]
    simpa using hblank c List.mem_cons_self
  have htake : (c :: (p ++ cs)).takeWhile (fun a => decide (a ≠ ' ')) = c :: p := by
    rw [← List.cons_append, List.takeWhile_append_of_pos (by simpa using hblank)]
    cases cs with
    | nil => rw [List.takeWhile_nil, List.append_nil]
    | cons a cs =>
      obtain rfl := hcs a rfl
      rw [List.takeWhile_cons_of_neg (by decide), List.append_nil]
  rw [qword, hdrop]
  split
  · rename_i heq
    exact absurd (List.cons.inj heq).1 hquote
  · exact congrArg String.ofList htake

theorem qword_cons {p : String} (hp : Plain p) (s : String) : qword (p ++ " " ++ s) = p := by
  obtain ⟨hne, hchars⟩ := needsQuote_eq_false.mp hp
  have hlist : (p ++ " " ++ s).toList = p.toList ++ ' ' :: s.toList := by
    rw [String.toList_append, String.toList_append, List.append_assoc]
    rfl
  refine (qword_of_plain hne hchars ?_ hlist).trans String.ofList_toList
  rintro c ⟨⟩
  rfl

theorem qword_plain {p : String} (hp : Plain p) : qword p = p := by
  obtain ⟨hne, hchars⟩ := needsQuote_eq_false.mp hp
  refine (qword_of_plain hne hchars ?_ (List.append_nil _).symm).trans String.ofList_toList
  rintro c ⟨⟩

end Tkclient

theorem unquoted_plain {p : String} (hp : Plain p) : unquoted p = [p] := by
  have hword := unquoted_quoted [p]
  rwa [quoted_singleton_of_plain hp] at hword

namespace Topbar

open Custody

/-- A message of the manager that has nothing to do with buttons. -/
inductive Routine : String → Prop where
  | reshape (tag : String) (r : Rect) : Routine (Wm.reshapeMsg tag r)
  | rect (r : Rect) : Routine ("rect " ++ Wm.r2s r)
  | raise : Routine "raise"
  | loses : Routine "haskbdfocus 0"
  | gets : Routine "haskbdfocus 1"
  | exit : Routine "exit"
  | newclient (n : Nat) : Routine ("newclient " ++ toString n)

/-- A message of the manager. -/
inductive Letter : String → Prop where
  | routine {e} : Routine e → Letter e
  | untask : Letter "untask"
  | kbdfocus : Letter "kbdfocus 1"
  | delclient (n : Nat) : Letter ("delclient " ++ toString n)
  | request (n : Nat) (data : String) : Letter ("request " ++ toString n ++ " " ++ data)

variable {b : Buttons} {id e : String} {f : Call}

/-- The first words of routine messages. -/
def routines : List String := ["!reshape", "rect", "raise", "haskbdfocus", "exit", "newclient"]

/-- A text that begins with one of these words. -/
def Begins (words : List String) (e : String) : Prop :=
  ∃ p ∈ words, e = p ∨ ∃ s, e = p ++ " " ++ s

/-- The word is found by `qword` and by `unquoted`. -/
theorem Begins.word {words : List String} (h : Begins words e) (hwords : ∀ p ∈ words, Plain p) :
    Tkclient.qword e ∈ words ∧ ∃ args, unquoted e = Tkclient.qword e :: args := by
  obtain ⟨p, hp, rfl | ⟨s, rfl⟩⟩ := h
  · rw [Tkclient.qword_plain (hwords _ hp)]
    exact ⟨hp, [], unquoted_plain (hwords _ hp)⟩
  · rw [Tkclient.qword_cons (hwords p hp)]
    exact ⟨hp, _, unquoted_cons (hwords p hp) s⟩

theorem Routine.begins (h : Routine e) : Begins routines e := by
  cases h with
  | reshape tag r =>
    refine ⟨"!reshape", by decide, Or.inr ⟨sprintq tag ++ " -1 " ++ Wm.r2s r, ?_⟩⟩
    have hblank : "!reshape " = "!reshape" ++ " " := by decide
    rw [Wm.reshapeMsg, hblank]
    simp only [String.append_assoc]
  | rect r => exact ⟨"rect", by decide, Or.inr ⟨Wm.r2s r, rfl⟩⟩
  | raise => exact ⟨"raise", by decide, Or.inl rfl⟩
  | loses => exact ⟨"haskbdfocus", by decide, Or.inr ⟨"0", rfl⟩⟩
  | gets => exact ⟨"haskbdfocus", by decide, Or.inr ⟨"1", rfl⟩⟩
  | exit => exact ⟨"exit", by decide, Or.inl rfl⟩
  | newclient n => exact ⟨"newclient", by decide, Or.inr ⟨toString n, rfl⟩⟩

theorem Letter.begins (h : Letter e) :
    Begins (routines ++ ["untask", "kbdfocus", "delclient", "request"]) e := by
  cases h with
  | routine h =>
    obtain ⟨p, hp, he⟩ := h.begins
    exact ⟨p, List.mem_append_left _ hp, he⟩
  | untask => exact ⟨"untask", by decide, Or.inl rfl⟩
  | kbdfocus => exact ⟨"kbdfocus", by decide, Or.inr ⟨"1", rfl⟩⟩
  | delclient n => exact ⟨"delclient", by decide, Or.inr ⟨toString n, rfl⟩⟩
  | request n data =>
    refine ⟨"request", by decide, Or.inr ⟨toString n ++ " " ++ data, ?_⟩⟩
    simp only [String.append_assoc]
    rfl

theorem cstring_r2s (r : Rect) : cstring (Wm.r2s r) = Wm.r2s r := by
  have hblank : cstring " " = " " := by decide
  rw [Wm.r2s]
  iterate 6 refine cstring_append_of_eq ?_ ?_
  all_goals first | exact cstring_toString _ | exact hblank

theorem Routine.cstring_eq (h : Routine e) : cstring e = e := by
  cases h with
  | reshape tag r =>
    refine cstring_append_of_eq (cstring_append_of_eq ?_ (by decide)) (cstring_r2s r)
    exact cstring_append_of_eq (by decide) (cstring_sprintq tag)
  | rect r => exact cstring_append_of_eq (by decide) (cstring_r2s r)
  | raise | loses | gets | exit => decide
  | newclient n => exact cstring_append_of_eq (by decide) (toString_natCast n ▸ cstring_toString n)

/-- What is written of a message with `fprint("%s")` is a message. -/
theorem Letter.cut (h : Letter e) : Letter (cstring e) := by
  have hid : ∀ n : Nat, cstring (toString n) = toString n := by
    intro n
    exact toString_natCast n ▸ cstring_toString n
  cases h with
  | routine h => exact h.cstring_eq.symm ▸ .routine h
  | untask => exact .untask
  | kbdfocus => exact .kbdfocus
  | delclient n =>
    rw [cstring_append_of_eq (by decide) (hid n)]
    exact .delclient n
  | request n data =>
    have hfront : cstring ("request " ++ toString n ++ " ") = "request " ++ toString n ++ " " :=
      cstring_append_of_eq (cstring_append_of_eq (by decide) (hid n)) (by decide)
    rw [cstring_append (cstring_eq_self_iff.mp hfront)]
    exact .request n _

/-- The first word of a message, as the client and the manager find it. -/
theorem Letter.word (h : Letter e) :
    Tkclient.qword e ∈ routines ++ ["untask", "kbdfocus", "delclient", "request"] ∧
      ∃ args, unquoted e = Tkclient.qword e :: args :=
  h.begins.word (by decide)

theorem Routine.word (h : Routine e) :
    Tkclient.qword e ∈ routines ∧ ∃ args, unquoted e = Tkclient.qword e :: args :=
  h.begins.word (by decide)

/-- A routine message means nothing for any button, -/
theorem Routine.note (h : Routine e) : Topbar.note id e = none := by
  obtain ⟨hword, args, hargs⟩ := h.word
  rw [Topbar.note, wmctl, hargs]
  simp only [routines, List.mem_cons, List.not_mem_nil, or_false] at hword
  rcases hword with hword | hword | hword | hword | hword | hword <;> rw [hword] <;> rfl

/-- and shows no window. -/
theorem Routine.qword_ne (h : Routine e) : Tkclient.qword e ≠ "untask" := by
  intro heq
  exact absurd (heq ▸ h.word.1) (by decide)

/-- The only message that shows a window. -/
theorem Letter.eq_untask (h : Letter e) (heq : Tkclient.qword e = "untask") : e = "untask" := by
  have hother : ∀ {p : String}, Plain p → p ≠ "untask" →
      ∀ s, Tkclient.qword (p ++ " " ++ s) ≠ "untask" := by
    intro p hp hne s
    rwa [Tkclient.qword_cons hp]
  cases h with
  | routine h => exact absurd heq h.qword_ne
  | untask => rfl
  | kbdfocus => exact absurd heq (hother (p := "kbdfocus") (by decide) (by decide) "1")
  | delclient n => exact absurd heq (hother (p := "delclient") (by decide) (by decide) (toString n))
  | request n data =>
    have hmsg : "request " ++ toString n ++ " " ++ data =
        "request" ++ " " ++ (toString n ++ " " ++ data) := by
      simp only [String.append_assoc]
      rfl
    rw [hmsg] at heq
    exact absurd heq (hother (by decide) (by decide) _)

/-- It is the first word of what is written of the message, too. -/
theorem Letter.qword_cstring (h : Letter e) : Tkclient.qword (cstring e) = Tkclient.qword e := by
  have hwords : ∀ p ∈ routines ++ ["untask", "kbdfocus", "delclient", "request"],
      Plain p ∧ cstring p = p := by decide
  obtain ⟨p, hp, he | ⟨s, rfl⟩⟩ := h.begins
  · rw [he, (hwords p hp).2]
  · obtain ⟨hplain, hnul⟩ := hwords p hp
    have hfront := cstring_append_of_eq hnul (t := " ") (by decide)
    rw [cstring_append (cstring_eq_self_iff.mp hfront), Tkclient.qword_cons hplain,
      Tkclient.qword_cons hplain]

/-- When a client passes a message back, this is what it means for its button. -/
theorem Letter.asked (h : Letter e) :
    Topbar.asked id e = if Tkclient.qword e = "untask" then some .withdraw else none := by
  obtain ⟨hword, args, hargs⟩ := h.word
  rw [Topbar.asked, hargs]
  simp only [routines, List.cons_append, List.nil_append, List.mem_cons, List.not_mem_nil,
    or_false] at hword
  rcases hword with hword | hword | hword | hword | hword | hword | hword | hword | hword | hword <;>
    rw [hword] <;> simp [handlerequest, Call.note]

/-- A client passes "untask" back. -/
theorem Letter.passed (h : Letter e) : (Tkclient.wmctl e).toList.filterMap (Topbar.asked id) =
    if Tkclient.qword e = "untask" then [.withdraw] else [] := by
  rw [Tkclient.wmctl]
  split_ifs with hown huntask
  · rw [huntask] at hown
    exact absurd hown (by decide)
  · rfl
  · rw [Option.toList_some, List.filterMap_cons, h.cut.asked, h.qword_cstring, if_pos ‹_›,
      List.filterMap_nil]
  · rw [Option.toList_some, List.filterMap_cons, h.cut.asked, h.qword_cstring, if_neg ‹_›,
      List.filterMap_nil]

theorem layout_begins (c : String) : ∃ s, layout c = "!reshape" ++ " " ++ s := by
  have hfront : ∀ t, "!reshape . -1 " ++ t ++ " exact" =
      "!reshape" ++ " " ++ (". -1 " ++ t ++ " exact") := by
    intro t
    simp only [String.append_assoc]
    rfl
  exact ⟨_, hfront _⟩

/-- A message for the toolbar's own window is handled as it is. -/
theorem eq_of_wmctl_own {c : String} (h : wmctl e = some (.own c)) : c = e := by
  have hrequest : ∀ id cmd args, handlerequest id cmd args ≠ .own c := by
    intro id cmd args heq
    rw [handlerequest.eq_def] at heq
    split at heq
    · split at heq <;> cases heq
    all_goals cases heq
  rw [wmctl.eq_def] at h
  split at h
  · cases h
  · split at h
    · split at h
      · exact absurd (Option.some.inj h) (hrequest _ _ _)
      · cases h
    · cases h
    · obtain ⟨_, _, heq⟩ := Option.map_eq_some_iff.mp h
      cases heq
    · cases h
    · exact (Call.own.inj (Option.some.inj h)).symm

/-- A client is told to show its window if it has a button. -/
theorem count_deiconify (b : Buttons) (id id' : String) :
    (call b (.deiconify id')).2.count (Request.text ⟨id, .untask⟩) =
      if id' = id then Slip.due (b.lookup id) .withdraw else 0 := by
  have hkbd : (Request.text ⟨id', .kbdfocus⟩ == Request.text ⟨id, .untask⟩) = false := by
    refine beq_false_of_ne fun heq => ?_
    cases text_injective heq
  rw [call, deiconify_requests]
  by_cases hid : id' = id
  · subst hid
    rw [if_pos rfl, Slip.due]
    split_ifs
    · simp only [List.map_cons, List.map_nil, List.count_cons_self, List.count_cons, hkbd,
        List.count_nil]
      rfl
    · rfl
  · have hne : (Request.text ⟨id', .untask⟩ == Request.text ⟨id, .untask⟩) = false := by
      refine beq_false_of_ne fun heq => hid ?_
      exact congrArg Request.id (text_injective heq)
    rw [if_neg hid]
    split_ifs
    · simp only [List.map_cons, List.map_nil, List.count_cons, hkbd, hne, List.count_nil]
      rfl
    · rfl

/-- The number of clients of that id that are told to show their window upon a call. -/
theorem count_call (h : Letter e) (hf : wmctl e = some f) :
    (call b f).2.count (Request.text ⟨id, .untask⟩) =
      (f.note id).elim 0 (Slip.due (b.lookup id)) := by
  have hhead : (unquoted (Request.text ⟨id, .untask⟩)).head? = some "ctl" := by
    rw [Request.text, unquoted_quoted]
    rfl
  have hother : ∀ {r : String}, (unquoted r).head? ≠ some "ctl" →
      [r].count (Request.text ⟨id, .untask⟩) = 0 := by
    intro r hr
    refine List.count_eq_zero.mpr fun hmem => hr ?_
    rw [← List.mem_singleton.mp hmem]
    exact hhead
  cases f with
  | iconify id' label =>
    rw [call, Call.note]
    split_ifs <;> rfl
  | deiconify id' =>
    rw [count_deiconify, Call.note]
    split_ifs <;> rfl
  | layout c =>
    obtain ⟨s, hs⟩ := layout_begins c
    refine hother ?_
    rw [hs, unquoted_cons (by decide)]
    exact fun heq => absurd (Option.some.inj heq) (by decide)
  | own c =>
    obtain rfl := eq_of_wmctl_own hf
    obtain ⟨hword, args, hargs⟩ := h.cut.word
    rw [call, Tkclient.wmctl]
    split_ifs
    · rfl
    · refine hother ?_
      rw [hargs]
      intro heq
      rw [Option.some.inj heq] at hword
      exact absurd hword (by decide)
  | ignore | refuse => rfl

end Topbar

namespace Wm

open Topbar

/-- Nothing is sent between `w` and `w'` but routine messages. -/
def Hums (w w' : Wm) : Prop :=
  ∃ l, w'.out = w.out ++ l ∧ ∀ c e, Send.ctl c e ∈ l → Routine e

variable {env : Env} {who : Cid → Prop} {left : List Cid} {w w' w'' : Wm} {a c : Cid} {e req : String}
  {ptr : List Pointer} {l : List Send}

namespace Hums

theorem trans (h : Hums w w') (h' : Hums w' w'') : Hums w w'' := by
  obtain ⟨l, hl, hsent⟩ := h
  obtain ⟨l', hl', hsent'⟩ := h'
  refine ⟨l ++ l', by rw [hl', hl, List.append_assoc], ?_⟩
  intro c e hx
  rcases List.mem_append.mp hx with hx | hx
  · exact hsent c e hx
  · exact hsent' c e hx

/-- Nothing is sent. -/
theorem silent (hout : w'.out = w.out) : Hums w w' :=
  ⟨[], hout.trans (List.append_nil _).symm, fun _ _ hx => absurd hx List.not_mem_nil⟩

theorem rfl' : Hums w w := silent rfl

theorem logged (hl : ∀ c e, Send.ctl c e ∈ l → Routine e) : Hums w (w.logged l) := ⟨l, rfl, hl⟩

theorem ctl (he : Routine e) : Hums w (w.ctl c e) := by
  refine logged (l := [.ctl c e]) fun a e' hx => ?_
  obtain ⟨rfl, rfl⟩ := Send.ctl.inj (List.mem_singleton.mp hx)
  exact he

/-- What is sent is not a control message. -/
theorem send {x : Send} (hx : ∀ c e, x ≠ .ctl c e) : Hums w (w.send x) :=
  logged (l := [x]) fun c e hmem => absurd (List.mem_singleton.mp hmem).symm (hx c e)

theorem wmctl' (s : String) : Hums w (w.wmctl' env s).1 := send (x := .wmctl s) fun _ _ => nofun

theorem placing (h : Placing who c w w') : Hums w w' := by
  obtain ⟨l, hout, hsent⟩ := h.sent
  refine ⟨l, hout, fun a e hx => ?_⟩
  cases hsent _ hx with
  | reshape => exact .reshape _ _
  | rect => exact .rect _

/-- `topwin` tells nobody about the keyboard but those who lose and get it. -/
theorem setfocus (new : Option Cid) : Hums w (w.setfocus .topwin new) := by
  have hnotices : ∀ c e, Send.ctl c e ∈ w.notices .topwin new → Routine e := by
    intro c e hx
    rcases List.mem_append.mp hx with hx | hx
    · rw [farewell.eq_def] at hx
      split at hx
      · obtain ⟨-, rfl⟩ := Send.ctl.inj (List.mem_singleton.mp hx)
        exact .loses
      · cases hx
    · cases new with
      | none => cases hx
      | some new =>
        rcases List.mem_cons.mp hx with heq | hx
        · obtain ⟨-, rfl⟩ := Send.ctl.inj heq
          exact .raise
        · obtain ⟨-, rfl⟩ := Send.ctl.inj (List.mem_singleton.mp hx)
          exact .gets
  have hown : ∀ {l}, Own l → ∀ c e, Send.ctl c e ∈ l → Routine e := by
    intro l hl c e hx
    obtain ⟨s, heq⟩ := hl _ hx
    cases heq
  obtain ⟨l, hl, ⟨heq, -⟩ | ⟨-, -, heq⟩⟩ := setfocus_logged .topwin w new
  · rw [heq]
    exact logged (hown hl)
  · rw [heq]
    refine ⟨_, rfl, fun c e hx => ?_⟩
    rcases List.mem_append.mp hx with hx | hx
    · exact hown hl c e hx
    · exact hnotices c e hx

/-- A request is forwarded, has a client told something, or causes routine messages only. -/
theorem handled (h : Handled .topwin env w c req ptr w') : Hums w w' ∨
    (∃ ctlr, w.controller = some ctlr ∧ ctlr ≠ c ∧ (w.client ctlr).controlstarted = true ∧
      w' = w.ctl ctlr ("request " ++ toString (w.client c).id ++ " " ++ req)) ∨
    ∃ id msg msgs z, unquoted req = "ctl" :: id :: msg :: msgs ∧
      (w.client c).controlstarted = true ∧
      w.order.find? (fun z => ((w.client z).id : Int) = int id) = some z ∧
      w' = w.ctl z (quoted (msg :: msgs)) := by
  cases h with
  | forward ctlr hctlr hne hstarted => exact Or.inr (Or.inl ⟨ctlr, hctlr, hne, hstarted, rfl⟩)
  | message id msg msgs z hreq hstarted hfind =>
    exact Or.inr (Or.inr ⟨id, msg, msgs, z, hreq, hstarted, hfind, rfl⟩)
  | answered => exact Or.inl .rfl'
  | key s => exact Or.inl (.send fun _ _ => nofun)
  | wmctl => exact Or.inl (.wmctl' req)
  | cursor f hf =>
    have hput : Hums w (w.put c f) := .silent rfl
    exact Or.inl (hput.trans (.wmctl' req))
  | pointer p hfocus =>
    have hflush : Hums (w.wmctl' env req).1 ((w.wmctl' env req).1.send (.ptr c none)) :=
      .send fun _ _ => nofun
    exact Or.inl (((wmctl' req).trans hflush).trans (.send fun _ _ => nofun))
  | marked f hf => exact Or.inl (.silent rfl)
  | kbd hstart =>
    have hput : Hums w (w.put c fun cl => { cl with kbdstarted := true }) := .silent rfl
    exact Or.inl (hput.trans (.setfocus _))
  | control hflag hreq => exact Or.inl (.silent rfl)
  | reshape w₁ tag r hcall =>
    have hcalled : Placing (fun _ => True) c w w₁ := .reshapeCall hcall
    have hplaced : Placing (fun _ => True) c w₁ (Wm.reshape .topwin env w₁ c tag r).1 :=
      .reshape fun _ _ _ => trivial
    exact Or.inl (.placing (hcalled.trans hplaced))
  | dragged win off w₁ e hdrag =>
    have hplaced : Placing (fun _ => True) c w w' := .drag hdrag
    exact Or.inl (.placing hplaced)
  | delete tag args hreq =>
    have hput : Hums w (w.put c (·.dropwin tag)) := .silent rfl
    refine Or.inl ?_
    rw [deleteRequest]
    split_ifs
    · exact hput.trans (.setfocus none)
    · exact hput
  | top hm hraise => exact Or.inl (.silent rfl)
  | bottom hm hlower => exact Or.inl (.silent rfl)
  | focus => exact Or.inl (.setfocus _)
  | unfocus => exact Or.inl (.setfocus _)
  | endcontrol args hreq =>
    refine Or.inl (.silent ?_)
    rw [endcontrolRequest]
    split_ifs <;> rfl

theorem controlevent (he : Routine e) : Hums w (w.controlevent e) := by
  rw [Wm.controlevent.eq_def]
  split
  · split_ifs
    · exact .ctl he
    · exact .rfl'
  · exact .rfl'

/-- The toolbar of `topwin` has no use for the news of a client. -/
theorem onJoin (w : Wm) (c : Cid) : Hums w (w.onJoin c) := by
  have hrect : Hums w (w.ctl c ("rect " ++ r2s w.screen)) := .ctl (.rect _)
  simp only [Wm.onJoin]
  refine hrect.trans (Hums.trans ?_ (.silent rfl))
  split_ifs
  · exact .silent rfl
  · exact .controlevent (.newclient _)

theorem onKey (w : Wm) (k : Int) : Hums w (w.onKey k) := by
  rw [Wm.onKey]
  split
  · exact .send fun _ _ heq => by cases heq
  · exact .rfl'

theorem onPointer (w : Wm) (p : Pointer) (taken : Bool) : Hums w (w.onPointer .topwin p taken) := by
  have hat : ∀ c, Hums w (w.pointAt .topwin c p) := by
    intro c
    simp only [Wm.pointAt]
    split_ifs
    · split
      · split_ifs
        · have hleave : ∀ old, Hums w (w.send (.ptr old (some p))) :=
            fun old => .send fun _ _ heq => by cases heq
          exact (hleave _).trans (.silent rfl)
        · exact .silent rfl
      · exact .silent rfl
    · exact .rfl'
    · have hraise : Hums w (w.ctl c "raise") := .ctl .raise
      exact hraise.trans (.setfocus _)
    · exact .setfocus _
  rw [onPointer_eq]
  split_ifs
  · exact .rfl'
  · have haimed : Hums w (w.aimed .topwin p) := by
      rw [aimed]
      split
      · exact hat _
      · exact .rfl'
    refine haimed.trans ?_
    rw [deliver]
    split
    · split_ifs
      · have hbuttons : Hums (w.aimed .topwin p)
            { w.aimed .topwin p with buttons := p.buttons } := .silent rfl
        exact hbuttons.trans (.send fun _ _ heq => by cases heq)
      · exact .silent rfl
    · exact .silent rfl

theorem ctlAll (he : Routine e) (cs : List Cid) (w : Wm) : Hums w (Wm.ctlAll e cs w) := by
  induction cs generalizing w with
  | nil => exact .rfl'
  | cons c cs ih =>
    have hctl : Hums w (w.ctl c e) := .ctl he
    exact hctl.trans (ih _)

theorem onWinctl (w : Wm) (e : String) (img : Option Rect) :
    Hums w (w.onWinctl .topwin env e img) := by
  have htold : Hums w (w.told e) := by
    rw [told]
    split_ifs
    · exact (ctlAll .exit w.order w).trans (.send fun _ _ heq => by cases heq)
    · exact .send fun _ _ heq => by cases heq
  cases img with
  | some newr =>
    have hplaced : Placing (fun _ => True) 0 (w.told e) ((w.told e).rescreened .topwin env newr) :=
      .rescreened fun _ _ => trivial
    exact htold.trans (.placing hplaced)
  | none => exact htold

/-- A departure, after the controller has been told. -/
theorem onLeave (w : Wm) (c : Cid) : Hums (w.departing .topwin c) (w.onLeave .topwin env c) := by
  rw [onLeave_eq]
  exact (setfocus _).trans (.send fun _ _ => nofun)

end Hums

/-! ## Who stays on the screen -/

namespace Lists

theorem stays_top (h : Lists left who w) (hc : c < w.z.refs) (hleft : c ∉ left)
    (ha : a ∈ w.order) : a ∈ (w.top .topwin c).order := by
  obtain ⟨l, hl, -⟩ := h
  have hmem : a ∈ l := hl.listed.order_eq ▸ ha
  have horder : (w.top .topwin c).order = c :: l.erase c := (hl.top hc hleft).listed.order_eq
  rw [horder]
  by_cases hac : a = c
  · exact hac ▸ List.mem_cons_self
  · exact List.mem_cons_of_mem c ((List.mem_erase_of_ne hac).mpr hmem)

theorem stays_bottom (h : Lists left who w) (hc : c < w.z.refs) (hleft : c ∉ left)
    (ha : a ∈ w.order) : a ∈ (w.bottom .topwin c).order := by
  by_cases hlast : w.z.znext c = none
  · have hz : (w.bottom .topwin c).z = w.z := if_pos hlast
    rwa [order, hz]
  · obtain ⟨l, hl, -⟩ := h
    have hmem : a ∈ l := hl.listed.order_eq ▸ ha
    have hz : (w.bottom .topwin c).z = Wmsrv.sink w.z c := if_neg hlast
    have horder : (Wmsrv.sink w.z c).order = l.erase c ++ [c] := (hl.sink hc hleft).listed.order_eq
    rw [order, hz, horder]
    by_cases hac : a = c
    · exact List.mem_append_right _ (List.mem_singleton.mpr hac)
    · exact List.mem_append_left _ ((List.mem_erase_of_ne hac).mpr hmem)

/-- No request takes a client off the screen. -/
theorem stays_handled (h : Lists left who w) (hc : c < w.z.refs) (hleft : c ∉ left)
    (hreq : Handled .topwin env w c req ptr w') (ha : a ∈ w.order) : a ∈ w'.order := by
  have hsame : ∀ {v : Wm}, v.z = w.z → a ∈ v.order := by
    intro v hz
    rwa [order, hz]
  cases hreq with
  | reshape w₁ tag r hcall =>
    have hz := (Still.reshapeCall hcall).z
    have hframe := (reshapeImage_frame env w₁ c tag r).1
    rw [Wm.reshape]
    generalize w₁.reshapeImage env c tag r = res at hframe ⊢
    obtain ⟨w₂, _ | e⟩ := res
    · have hlists : Lists left who w₂ := h.of_z (hframe.trans hz)
      have hc₂ : c < w₂.z.refs := (hframe.trans hz).symm ▸ hc
      exact hlists.stays_top hc₂ hleft (hsame (hframe.trans hz))
    · exact hsame (hframe.trans hz)
  | dragged win off w₁ e hdrag => exact hsame (Still.drag hdrag).z
  | top hm hraise => exact h.stays_top hc hleft ha
  | bottom hm => exact h.stays_bottom hc hleft ha
  | delete tag args =>
    refine hsame ?_
    rw [deleteRequest]
    split_ifs
    · exact (setfocus_frame _ _ _).2.1
    · rfl
  | endcontrol args =>
    refine hsame ?_
    rw [endcontrolRequest]
    split_ifs <;> rfl
  | kbd => exact hsame (setfocus_frame _ _ _).2.1
  | focus => exact hsame (setfocus_frame _ _ _).2.1
  | unfocus => exact hsame (setfocus_frame _ _ _).2.1
  | answered | key | wmctl | cursor | pointer | marked | control | message | forward =>
    exact hsame rfl

/-- A departure takes nobody else off the screen. -/
theorem stays_onLeave (h : Lists left who w) (hleft : c ∉ left) (hac : a ≠ c) (ha : a ∈ w.order) :
    a ∈ (w.onLeave .topwin env c).order := by
  obtain ⟨l, hl, -⟩ := h
  have hmem : a ∈ l := hl.listed.order_eq ▸ ha
  have hdeparting : (w.departing .topwin c).z = (w.remove .topwin c).z := by
    rw [Wm.departing]
    exact (Still.controlevent _).z
  have hz : (w.onLeave .topwin env c).z = (w.remove .topwin c).z := by
    rw [onLeave_eq]
    exact (setfocus_frame _ _ _).2.1.trans hdeparting
  have horder : (w.remove .topwin c).order = l.erase c := (hl.remove hleft).listed.order_eq
  have heq : (w.onLeave .topwin env c).order = (w.remove .topwin c).order := by
    rw [order, hz]
    rfl
  rw [heq, horder]
  exact (List.mem_erase_of_ne hac).mpr hmem

end Lists

end Wm

end Aimsgui
