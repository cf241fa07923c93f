import Aimsgui.Alertwin

/-!
# The user's selection and the statuses that echo it

A "running" status repeats the values of the `on` command that its watcher was started
with, and `action` writes them into the variables of the window. That is harmless while
they are the values that the window shows. But between a command and its status the user
may choose again: the status of the older command then overwrites the newer choice, and
the next command is built from it.

`Settled` is the condition that keeps the two apart: when the user's choice is handled,
and when a watcher reports while a command is still waiting to be taken, the statuses on
their way agree with what the window shows. Names must also be words that `sprint` can
put into a line without quotes, and in full.
-/

namespace Aimsgui

open Transition

/-! ## What the user has chosen -/

/-- The selection after a message, given by its words, has been handled: only the user's
choices count. -/
def Selection.choose (sel : Selection) : List String → Selection
  | "change_game" :: gt :: _ => { sel with gametype := gt }
  | "change_location" :: loc :: _ => { sel with location := loc }
  | "change_playercount" :: pc :: _ => { sel with playercount := int pc }
  | _ => sel

/-- The name can be put into a line without quotes, and is not cut at a NUL. -/
def Sayable (name : String) : Prop := Plain name ∧ cstring name = name

instance (name : String) : Decidable (Sayable name) := inferInstanceAs (Decidable (_ ∧ _))

/-- The names can be put into a command as they are, or are not put there at all. -/
def Selection.Sayable (sel : Selection) : Prop :=
  sel.playercount = 0 ∨ (Aimsgui.Sayable sel.gametype ∧ Aimsgui.Sayable sel.location)

instance (sel : Selection) : Decidable sel.Sayable := inferInstanceAs (Decidable (_ ∨ _))

/-- A message, given by its words, that is a "running" status has the values of the
selection. -/
def Selection.agrees (sel : Selection) : List String → Bool
  | "running" :: gt :: loc :: pc :: _ =>
    gt = sel.gametype && loc = sel.location && int pc = sel.playercount
  | _ => true

namespace Alertwin

/-- The user's choices handled in a run, on top of the initial values. -/
def chosen (gametype location : String) (es : List Event) : Selection :=
  es.foldl (fun sel e =>
    match e with
    | .action src _ => sel.choose (unquoted src.text)
    | _ => sel) ⟨gametype, location, 0⟩

/-- What is still to be sent on the action channel. -/
def outs (todo : List Todo) : List String :=
  todo.filterMap fun t =>
    match t with
    | .out msg => some (msg.getD "")
    | _ => none

/-- The messages on their way to the main loop. -/
def inflight (w : Alertwin) : List String := w.buf.getD [] ++ outs w.ctl.todo

/-- The message, given by its words, makes `action` call `update_alert`. -/
def issues : List String → Bool
  | "update_alert" :: _ | "change_game" :: _ :: _ | "change_location" :: _ :: _
  | "change_playercount" :: _ :: _ => true
  | _ => false

/-- The main loop is sending a command of `update_alert`. -/
def isUpdating : Main → Bool
  | .updating _ => true
  | _ => false

/-- When a command is issued, its names are words and the statuses on their way agree with
the selection; and so does the status of a watcher that reports before the command that
is being sent is taken. -/
def Settled (w : Alertwin) : Event → Prop
  | .action src _ => issues (unquoted src.text) = true →
      (w.selection.choose (unquoted src.text)).Sayable ∧
        ∀ m ∈ w.inflight, (w.selection.choose (unquoted src.text)).agrees (unquoted m) = true
  | .inner (.report _ state) => state = 0 → isUpdating w.main = true →
      w.selection.agrees (unquoted w.ctl.running) = true
  | _ => True

instance (w : Alertwin) (e : Event) : Decidable (Settled w e) := by
  unfold Settled
  split <;> infer_instance

/-! ## Statuses and selections -/

variable {sel : Selection}

/-- A message whose first word begins otherwise is not a "running" status. -/
theorem agrees_of_first {p : List Char} {m : String} (hp : PlainChars p) (hne : p ≠ [])
    (hm : p <+: m.toList) (hrun : ¬ p <+: "running".toList) : sel.agrees (unquoted m) = true := by
  obtain ⟨w, ws, hw, hpw⟩ := unquoted_first hp hne hm
  rw [hw]
  simp only [Selection.agrees]
  split
  · rename_i heq
    obtain rfl := (List.cons.inj heq).1
    exact absurd hpw hrun
  · rfl

theorem agrees_off : sel.agrees (unquoted "off") = true := by
  rw [show unquoted "off" = ["off"] by decide +kernel]
  rfl

theorem agrees_nil : sel.agrees (unquoted "") = true := by
  rw [show unquoted "" = [] by decide +kernel]
  rfl

theorem agrees_ring : sel.agrees (unquoted "ring!") = true := by
  rw [show unquoted "ring!" = ["ring!"] by decide +kernel]
  rfl

/-- The widgets send no statuses. -/
theorem agrees_tkmsg (m : Tkmsg) : sel.agrees (unquoted m.text) = true := by
  have first : ∀ {p s : String}, "c".toList <+: p.toList →
      sel.agrees (unquoted (p ++ s)) = true := by
    intro p s hp
    refine agrees_of_first (p := "c".toList) (by decide) (by decide) ?_ (by decide)
    rw [String.toList_append]
    exact hp.trans (List.prefix_append _ _)
  cases m with
  | change_game line => exact first (by decide)
  | change_location line => exact first (by decide)
  | change_playercount n => exact first (by decide)
  | change_name arg => exact first (by decide)
  | togglemute =>
    rw [show unquoted Tkmsg.togglemute.text = ["togglemute"] by decide +kernel]
    rfl
  | exit =>
    rw [show unquoted Tkmsg.exit.text = ["exit"] by decide +kernel]
    rfl
  | changing_name =>
    rw [show unquoted Tkmsg.changing_name.text = ["changing_name"] by decide +kernel]
    rfl

/-- The status of a watcher with these arguments. -/
def runningWith (p : String × List String) : String := "running " ++ p.1 ++ " " ++ quoted p.2

theorem unquoted_line (verb : String) {sel : Selection} (hverb : Plain verb)
    (hg : Plain sel.gametype) (hl : Plain sel.location) :
    unquoted (verb ++ " " ++ (sel.gametype ++ " " ++ (sel.location ++ " " ++
      toString sel.playercount))) =
      [verb, sel.gametype, sel.location, toString sel.playercount] := by
  have h := unquoted_quoted [verb, sel.gametype, sel.location, toString sel.playercount]
  rwa [quoted_cons_of_plain hverb, quoted_cons_of_plain hg, quoted_cons_of_plain hl,
    quoted_singleton_of_plain (plain_toString _)] at h

/-- A command is read as it was meant. -/
theorem unquoted_command (h : sel.Sayable) (hpc : sel.playercount ≠ 0) :
    unquoted sel.command =
      ["on", sel.gametype, sel.location, toString sel.playercount] := by
  obtain ⟨⟨hg, hgall⟩, hl, hlall⟩ := h.resolve_left hpc
  rw [← unquoted_line "on" (by decide) hg hl, Selection.command, if_neg hpc, hgall, hlall]
  simp only [String.append_assoc]
  rw [← @String.append_assoc "on", show "on" ++ " " = "on " by decide +kernel]

/-- The status of the watcher that a command starts agrees with the command. -/
theorem agrees_runningWith (h : sel.Sayable) (hpc : sel.playercount ≠ 0)
    (hint : Isint sel.playercount) :
    sel.agrees (unquoted (runningWith
      (sel.gametype, [sel.location, toString sel.playercount]))) = true := by
  obtain ⟨⟨hg, -⟩, hl, -⟩ := h.resolve_left hpc
  have hline := unquoted_line "running" (by decide) hg hl
  have hrun : runningWith (sel.gametype, [sel.location, toString sel.playercount]) =
      "running" ++ " " ++ (sel.gametype ++ " " ++ (sel.location ++ " " ++
        toString sel.playercount)) := by
    rw [runningWith, quoted_cons_of_plain hl, quoted_singleton_of_plain (plain_toString _)]
    simp only [String.append_assoc]
    rw [← @String.append_assoc "running",
      show "running" ++ " " = "running " by decide +kernel]
  rw [hrun, hline]
  simp only [Selection.agrees, int_toString hint, decide_true, Bool.and_true]

theorem agrees_runningWith_nil : sel.agrees (unquoted (runningWith ("", []))) = true := by
  rw [show unquoted (runningWith ("", [])) = ["running"] by decide +kernel]
  rfl

/-! ## What the control process is going to say -/

/-- The watcher's arguments once the message under way is handled. -/
def due (s : Ctlproc) : String × List String :=
  s.todo.foldl (fun p t =>
    match t with
    | .watcherset wtype wargs => (wtype, wargs)
    | _ => p) (s.watchertype, s.watcherargs)

theorem due_of_ready {s : Ctlproc} (h : s.Ready) : due s = (s.watchertype, s.watcherargs) := by
  rw [due, h.1]
  rfl

/-- A step that takes no message changes nothing about what is due. -/
theorem due_step {s s' : Ctlproc} {e : Ctlproc.Event} (hcmd : ∀ c r, e ≠ .command c r)
    (hrep : ∀ i st, e ≠ .report i st) (h : Ctlproc.Step s e s') : due s' = due s := by
  cases e with
  | command c r => exact absurd rfl (hcmd c r)
  | report i st => exact absurd rfl (hrep i st)
  | act t =>
    obtain ⟨todo, htodo, rfl⟩ := Ctlproc.step_act h
    rw [due, due, htodo, Ctlproc.perform_todo]
    cases t <;> rfl
  | watcherstart i =>
    obtain ⟨-, rfl⟩ := Ctlproc.step_watcherstart h
    rfl
  | watcherend i =>
    obtain ⟨-, rfl⟩ := Ctlproc.step_watcherend h
    rfl
  | ringstart i =>
    obtain ⟨-, rfl⟩ := Ctlproc.step_ringstart h
    rfl
  | ring i =>
    obtain rfl := Ctlproc.step_ring h
    rfl

theorem outs_subset {todo todo' : List Todo} (h : ∀ t ∈ todo', t ∈ todo) {m : String}
    (hm : m ∈ outs todo') : m ∈ outs todo := by
  obtain ⟨t, ht, hout⟩ := List.mem_filterMap.mp hm
  exact List.mem_filterMap.mpr ⟨t, h t ht, hout⟩

theorem outs_answer (cerror : Bool) (e : Option String) :
    outs (Ctlproc.answer cerror e) = [] := by
  cases cerror <;> rfl

/-- What a command other than `on` makes `ctlproc` say agrees with every selection. -/
theorem agrees_outs_command {cerror : Bool} {c : Cmd} {todo : List Todo}
    (hc : Ctlproc.command cerror c = some todo) {m : String} (hm : m ∈ outs todo) :
    sel.agrees (unquoted m) = true := by
  cases c with
  | exit =>
    obtain rfl := Option.some.inj hc
    rw [outs, List.filterMap_append, ← outs, outs_answer] at hm
    simp only [List.nil_append, List.filterMap_cons, List.filterMap_nil, List.mem_cons,
      Option.getD_some, Option.getD_none, List.not_mem_nil, or_false] at hm
    rcases hm with rfl | rfl
    · rw [show unquoted "exit" = ["exit"] by decide +kernel]
      rfl
    · exact agrees_nil
  | on wtype wargs =>
    obtain rfl := Option.some.inj hc
    rw [outs, List.filterMap_append, ← outs, ← outs, outs_answer] at hm
    cases hm
  | off =>
    obtain rfl := Option.some.inj hc
    rw [outs, List.filterMap_append, ← outs, ← outs, outs_answer] at hm
    obtain rfl : m = "off" := by
      simpa [outs, Ctlproc.watcherKill, Ctlproc.ringprocKill, Ctlproc.status] using hm
    exact agrees_off
  | pname name =>
    obtain rfl := Option.some.inj hc
    rw [outs, List.filterMap_append, ← outs, ← outs, outs_answer] at hm
    obtain rfl : m = "pname " ++ name := by simpa [outs] using hm
    refine agrees_of_first (p := "pname".toList) (by decide) (by decide) ?_ (by decide)
    rw [String.toList_append]
    exact List.IsPrefix.trans (by decide) (List.prefix_append _ _)
  | invalid =>
    obtain rfl := Option.some.inj hc
    rw [outs_answer] at hm
    cases hm
  | broken => cases hc

/-- What is due after a command other than `on`. -/
theorem due_command {s : Ctlproc} (hr : s.Ready) (cerror : Bool) {c : Cmd}
    (hc : ∀ wtype wargs, c ≠ .on wtype wargs) :
    due (s.take (Ctlproc.command cerror c)) = due s ∨
      due (s.take (Ctlproc.command cerror c)) = ("", []) := by
  rw [due_of_ready hr]
  cases c with
  | exit => exact Or.inl (by cases cerror <;> rfl)
  | on wtype wargs => exact absurd rfl (hc wtype wargs)
  | off => exact Or.inr (by cases cerror <;> rfl)
  | pname name => exact Or.inl (by cases cerror <;> rfl)
  | invalid => exact Or.inl (by cases cerror <;> rfl)
  | broken =>
    rw [Ctlproc.command, Ctlproc.take, due, hr.1]
    exact Or.inl rfl

theorem due_command_on {s : Ctlproc} {cerror : Bool} (wtype : String) (wargs : List String) :
    due (s.take (Ctlproc.command cerror (.on wtype wargs))) = (wtype, wargs) := by
  cases cerror <;> rfl

/-- What a watcher's state makes `ctlproc` say. -/
theorem agrees_outs_watcherstate {s : Ctlproc} {state : Int}
    (hrun : state = 0 → sel.agrees (unquoted s.running) = true) {m : String}
    (hm : m ∈ outs (s.watcherstate state)) : sel.agrees (unquoted m) = true := by
  rw [Ctlproc.watcherstate] at hm
  split at hm
  · obtain rfl : m = "off" := by
      simpa [outs, Ctlproc.watcherKill, Ctlproc.ringprocKill, Ctlproc.status] using hm
    exact agrees_off
  · split at hm
    · rename_i hstate
      obtain rfl : m = s.running := by
        simpa [outs, Ctlproc.ringprocKill, Ctlproc.status] using hm
      exact hrun hstate
    · split at hm
      · obtain rfl : m = s.ringing := by simpa [outs, Ctlproc.status] using hm
        refine agrees_of_first (p := "ri".toList) (by decide) (by decide) ?_ (by decide)
        rw [Ctlproc.ringing, String.toList_append, String.toList_append, String.toList_append,
          List.append_assoc, List.append_assoc]
        exact List.IsPrefix.trans (by decide) (List.prefix_append _ _)
      · cases hm

/-- What is due after a watcher's state. -/
theorem due_watcherstate {s : Ctlproc} (hr : s.Ready) (state : Int) :
    due { s with todo := s.watcherstate state } = due s ∨
      due { s with todo := s.watcherstate state } = ("", []) := by
  rw [due_of_ready hr, Ctlproc.watcherstate]
  split
  · exact Or.inr rfl
  · split
    · exact Or.inl rfl
    · split <;> exact Or.inl rfl

/-! ## The invariant -/

/-- The variables of the window are the user's selection, what is on its way to the main
loop does not contradict it, and neither will what the control process says next. -/
structure Faithful (sel : Selection) (w : Alertwin) : Prop where
  same : w.selection = sel
  isint : Isint sel.playercount
  inflight : ∀ m ∈ w.inflight, sel.agrees (unquoted m) = true
  issued : ∀ cmdline, w.main = .updating cmdline → cmdline = sel.command ∧ sel.Sayable
  others : ∀ cmdline cerror main, Main.call w.main = some (cmdline, cerror, main) →
    isUpdating w.main = true ∨
      ∀ wtype wargs, Cmd.ofFields (unquoted cmdline) ≠ .on wtype wargs
  heard : isUpdating w.main = false → sel.agrees (unquoted (runningWith (due w.ctl))) = true

variable {w w' : Alertwin} {e : Event}

/-- The main loop has moved on, and is not issuing a command. -/
theorem Faithful.moved {main : Main} (h : Faithful sel w) (hw : isUpdating w.main = false)
    (hmain : isUpdating main = false)
    (hcall : ∀ cmdline cerror next, Main.call main = some (cmdline, cerror, next) →
      ∀ wtype wargs, Cmd.ofFields (unquoted cmdline) ≠ .on wtype wargs) :
    Faithful sel { w with main := main } where
  same := h.same
  isint := h.isint
  inflight := h.inflight
  issued := by
    rintro cmdline hm
    obtain rfl : main = .updating cmdline := hm
    cases hmain
  others := fun cmdline cerror next hc => Or.inr (hcall cmdline cerror next hc)
  heard := fun _ => h.heard hw

/-- The control process has moved on. -/
theorem Faithful.with_ctl {ctl : Ctlproc} (h : Faithful sel w)
    (hout : ∀ m ∈ outs ctl.todo, sel.agrees (unquoted m) = true)
    (hdue : isUpdating w.main = false → sel.agrees (unquoted (runningWith (due ctl))) = true) :
    Faithful sel { w with ctl := ctl } where
  same := h.same
  isint := h.isint
  inflight := by
    intro m hm
    rcases List.mem_append.mp hm with hm | hm
    · exact h.inflight m (List.mem_append_left _ hm)
    · exact hout m hm
  issued := h.issued
  others := h.others
  heard := hdue

/-- A step of the control process that takes no message. -/
theorem Faithful.silent {ev : Ctlproc.Event} (h : Faithful sel w)
    (hcmd : ∀ c r, ev ≠ .command c r) (hrep : ∀ i st, ev ≠ .report i st)
    (hstep : w.ctlstep ev = some w') : Faithful sel w' := by
  obtain ⟨ctl, hctl, rfl⟩ := ctlstep_eq hstep
  refine h.with_ctl ?_ ?_
  · intro m hm
    refine h.inflight m (List.mem_append_right _ (outs_subset ?_ hm))
    exact fun t ht => Ctlproc.step_todo hcmd hrep hctl ht
  · rw [due_step hcmd hrep hctl]
    exact h.heard

/-- A message that agrees with the selection enters the buffer. -/
theorem Faithful.buffered {msg : String} {q : List String} (h : Faithful sel w)
    (hq : ∀ m ∈ q, m ∈ w.buf.getD []) (hm : sel.agrees (unquoted msg) = true) :
    Faithful sel { w with buf := some (q ++ [msg]) } where
  same := h.same
  isint := h.isint
  inflight := by
    intro m hmem
    rcases List.mem_append.mp hmem with hmem | hmem
    · rcases List.mem_append.mp hmem with hmem | hmem
      · exact h.inflight m (List.mem_append_left _ (hq m hmem))
      · exact List.mem_singleton.mp hmem ▸ hm
    · exact h.inflight m (List.mem_append_right _ hmem)
  issued := h.issued
  others := h.others
  heard := h.heard

/-- What `ctlproc` is about to send agrees with the selection. -/
theorem Faithful.agrees_out {msg : Option String} {ctl : Ctlproc} (h : Faithful sel w)
    (hstep : Ctlproc.Step w.ctl (.act (.out msg)) ctl) :
    sel.agrees (unquoted (msg.getD "")) = true := by
  obtain ⟨todo, htodo, -⟩ := Ctlproc.step_act hstep
  refine h.inflight _ (List.mem_append_right _ (List.mem_filterMap.mpr ⟨.out msg, ?_, rfl⟩))
  rw [htodo]
  exact List.mem_cons_self

/-- A command that has been issued starts a watcher that agrees with the selection, or
none. -/
theorem agrees_due_issued {s : Ctlproc} {cerror : Bool} (hint : Isint sel.playercount)
    (hsay : sel.Sayable) :
    sel.agrees (unquoted (runningWith
      (due (s.take (Ctlproc.command cerror (Cmd.ofFields (unquoted sel.command))))))) = true := by
  by_cases hpc : sel.playercount = 0
  · have hoff : Cmd.ofFields (unquoted sel.command) = .off := by
      rw [Selection.command, if_pos hpc]
      decide +kernel
    have hdue : due (s.take (Ctlproc.command cerror .off)) = ("", []) := by
      cases cerror <;> rfl
    rw [hoff, hdue]
    exact agrees_runningWith_nil
  · rw [unquoted_command hsay hpc, Cmd.ofFields, due_command_on]
    exact agrees_runningWith hsay hpc hint

/-- `ctlproc` takes the command that the main loop is sending. -/
theorem Faithful.command (h : Faithful sel w) (hstep : Step w .command w') :
    Faithful sel w' := by
  simp only [StepOf, step] at hstep
  split at hstep
  · rename_i cmdline cerror main hcall
    obtain ⟨ctl, hctl, rfl⟩ := ctlstep_eq hstep
    obtain ⟨hr, rfl⟩ := Ctlproc.step_command hctl
    have hmain : isUpdating main = false ∧ Main.call main = none := by
      revert hcall
      cases w.main with
      | noting c last =>
        intro hcall
        cases hcall
        cases last <;> exact ⟨rfl, rfl⟩
      | updating c | calling c =>
        intro hcall
        cases hcall
        exact ⟨rfl, rfl⟩
      | idle | waiting | gone => rintro ⟨⟩
    have hdue : sel.agrees (unquoted (runningWith
        (due (w.ctl.take (Ctlproc.command cerror (Cmd.ofFields (unquoted cmdline))))))) = true := by
      cases hup : isUpdating w.main with
      | true =>
        obtain ⟨c, hc⟩ : ∃ c, w.main = .updating c := by
          revert hup
          cases w.main with
          | updating c => exact fun _ => ⟨c, rfl⟩
          | _ => rintro ⟨⟩
        obtain ⟨rfl, hsay⟩ := h.issued c hc
        rw [hc] at hcall
        cases hcall
        exact agrees_due_issued h.isint hsay
      | false =>
        have hon := (h.others cmdline cerror main hcall).resolve_left (by simp [hup])
        rcases due_command (s := w.ctl) hr cerror hon with hd | hd
        · rw [hd]
          exact h.heard hup
        · rw [hd]
          exact agrees_runningWith_nil
    refine ⟨h.same, h.isint, ?_, ?_, ?_, fun _ => hdue⟩
    · intro m hm
      rcases List.mem_append.mp hm with hm | hm
      · exact h.inflight m (List.mem_append_left _ hm)
      · cases hc : Ctlproc.command cerror (Cmd.ofFields (unquoted cmdline)) with
        | none =>
          rw [hc, Ctlproc.take, hr.1] at hm
          cases hm
        | some todo =>
          rw [hc] at hm
          exact agrees_outs_command hc hm
    · rintro c hc
      obtain rfl : main = .updating c := hc
      cases hmain.1
    · intro c r next hc
      rw [hmain.2] at hc
      cases hc
  · cases hstep

/-- A watcher reports. -/
theorem Faithful.report {i : Nat} {state : Int} (h : Faithful sel w)
    (hok : Settled w (.inner (.report i state))) (hstep : w.ctlstep (.report i state) = some w') :
    Faithful sel w' := by
  obtain ⟨ctl, hctl, rfl⟩ := ctlstep_eq hstep
  obtain ⟨hr, -, rfl⟩ := Ctlproc.step_report hctl
  refine h.with_ctl ?_ ?_
  · intro m hm
    refine agrees_outs_watcherstate ?_ hm
    intro hstate
    cases hup : isUpdating w.main with
    | true => exact h.same ▸ hok hstate hup
    | false =>
      have hheard := h.heard hup
      rwa [due_of_ready hr] at hheard
  · intro hup
    rcases due_watcherstate hr state with hd | hd
    · rw [hd]
      exact h.heard hup
    · rw [hd]
      exact agrees_runningWith_nil

/-! ## Messages of the action channel -/

/-- What `action` does with a message that makes it issue a command. -/
theorem action_issues {fields : List String} (entry : String) (h : issues fields = true) :
    w.action entry fields = updateAlert { w with selection := w.selection.choose fields } := by
  simp only [issues] at h
  split at h
  · rfl
  · rfl
  · rfl
  · rfl
  · cases h

/-- Only messages that issue a command are choices. -/
theorem choose_of_not_issues {fields : List String} (h : issues fields = false) :
    sel.choose fields = sel := by
  simp only [Selection.choose]
  split
  · cases h
  · cases h
  · cases h
  · rfl

/-- A command whose first word begins otherwise is not `on`. -/
theorem ne_on_of_first {p : List Char} {s : String} (hp : PlainChars p) (hne : p ≠ [])
    (hs : p <+: s.toList) (hon : ¬ p <+: "on".toList) (wtype : String) (wargs : List String) :
    Cmd.ofFields (unquoted s) ≠ .on wtype wargs := by
  obtain ⟨wd, ws, hw, hpw⟩ := unquoted_first hp hne hs
  rw [hw]
  intro h
  simp only [Cmd.ofFields] at h
  split at h
  case h_3 heq =>
    obtain rfl := (List.cons.inj heq).1
    exact hon hpw
  all_goals cases h

/-- What `action` does with any other message that agrees with the selection: the main loop
goes on, exits, or asks for something that is not `on`. -/
theorem action_other {fields : List String} (entry : String) (h : issues fields = false)
    (hidle : w.main = .idle) (ha : w.selection.agrees fields = true) :
    ∃ main, w.action entry fields = { w with main := main } ∧ isUpdating main = false ∧
      ∀ cmdline cerror next, Main.call main = some (cmdline, cerror, next) →
        ∀ wtype wargs, Cmd.ofFields (unquoted cmdline) ≠ .on wtype wargs := by
  have hstay : w = { w with main := .idle } := by rw [← hidle]
  have hpname : ∀ wtype wargs, Cmd.ofFields (unquoted ("pname " ++ entry)) ≠ .on wtype wargs := by
    refine ne_on_of_first (p := "p".toList) (by decide) (by decide) ?_ (by decide)
    rw [String.toList_append]
    exact List.IsPrefix.trans (by decide) (List.prefix_append _ _)
  have hexit : ∀ wtype wargs, Cmd.ofFields (unquoted "exit") ≠ .on wtype wargs := by
    rw [show Cmd.ofFields (unquoted "exit") = .exit by decide +kernel]
    rintro _ _ ⟨⟩
  simp only [action]
  split
  case h_2 =>
    refine ⟨.noting "exit" true, rfl, rfl, ?_⟩
    rintro _ _ _ ⟨⟩
    exact hexit
  case h_3 | h_6 | h_8 | h_10 => cases h
  case h_4 gt loc pc rest =>
    simp only [Selection.agrees, Bool.and_eq_true, decide_eq_true_eq] at ha
    obtain ⟨⟨rfl, rfl⟩, hpc⟩ := ha
    refine ⟨.idle, ?_, rfl, by rintro _ _ _ ⟨⟩⟩
    rw [hpc]
    exact hstay
  case h_12 =>
    refine ⟨.calling ("pname " ++ entry), rfl, rfl, ?_⟩
    rintro _ _ _ ⟨⟩
    exact hpname
  case h_13 =>
    split
    · refine ⟨.calling ("pname " ++ entry), rfl, rfl, ?_⟩
      rintro _ _ _ ⟨⟩
      exact hpname
    · exact ⟨.idle, hstay, rfl, by rintro _ _ _ ⟨⟩⟩
  case h_14 => exact ⟨.idle, hstay, rfl, by rintro _ _ _ ⟨⟩⟩
  all_goals exact ⟨.gone, rfl, rfl, by rintro _ _ _ ⟨⟩⟩

/-- The main loop takes a message from the action channel: it agrees with the selection,
and everything that is then on its way was so before. -/
theorem Faithful.receive {src : Source} (h : Faithful sel w) (hidle : w.main = .idle)
    (hrec : w.receive src = some w') : Faithful sel w' ∧ w'.main = .idle ∧
      sel.agrees (unquoted src.text) = true ∧ ∀ m ∈ w'.inflight, m ∈ w.inflight := by
  rcases receive_eq hrec with ⟨q, hbuf, rfl⟩ | ⟨msg, ctl, rfl, hctl, rfl⟩ | ⟨i, rfl, rfl⟩
  · have hsub : ∀ m ∈ Alertwin.inflight { w with buf := some q }, m ∈ w.inflight := by
      intro m hm
      rw [Alertwin.inflight, hbuf]
      rcases List.mem_append.mp hm with hm | hm
      · exact List.mem_append_left _ (List.mem_cons_of_mem _ hm)
      · exact List.mem_append_right _ hm
    refine ⟨⟨h.same, h.isint, fun m hm => h.inflight m (hsub m hm), h.issued, h.others, h.heard⟩,
      hidle, h.inflight _ ?_, hsub⟩
    rw [Alertwin.inflight, hbuf]
    exact List.mem_append_left _ List.mem_cons_self
  · have hcmd : ∀ c r, Ctlproc.Event.act (.out msg) ≠ .command c r := by rintro _ _ ⟨⟩
    have hrep : ∀ i st, Ctlproc.Event.act (.out msg) ≠ .report i st := by rintro _ _ ⟨⟩
    have hctlstep : w.ctlstep (.act (.out msg)) = some { w with ctl := ctl } := by
      rw [ctlstep, show w.ctl.step (.act (.out msg)) = some ctl from hctl]
      rfl
    refine ⟨h.silent hcmd hrep hctlstep, hidle, h.agrees_out hctl, ?_⟩
    intro m hm
    rcases List.mem_append.mp hm with hm | hm
    · exact List.mem_append_left _ hm
    · refine List.mem_append_right _ (outs_subset ?_ hm)
      exact fun t ht => Ctlproc.step_todo hcmd hrep hctl ht
  · exact ⟨h, hidle, agrees_ring, fun m hm => hm⟩

/-- The selection that the user has made after a step. -/
def chosenAfter (sel : Selection) : Event → Selection
  | .action src _ => sel.choose (unquoted src.text)
  | _ => sel

/-- A choice is within the range of the numbers. -/
theorem isint_choose (h : Isint sel.playercount) (fields : List String) :
    Isint (sel.choose fields).playercount := by
  simp only [Selection.choose]
  split
  · exact h
  · exact h
  · exact isint_int _
  · exact h

/-- The main loop handles a message. -/
theorem Faithful.action {src : Source} {entry : String} (h : Faithful sel w)
    (hok : Settled w (.action src entry)) (hstep : Step w (.action src entry) w') :
    Faithful (sel.choose (unquoted src.text)) w' := by
  simp only [StepOf, step] at hstep
  split at hstep
  · rename_i hidle
    obtain ⟨w₁, hrec, rfl⟩ := Option.map_eq_some_iff.mp hstep
    obtain ⟨h₁, hidle₁, hagree, hsub⟩ := h.receive hidle hrec
    cases hi : issues (unquoted src.text) with
    | true =>
      obtain ⟨hsay, hflight⟩ := hok hi
      rw [h.same] at hsay hflight
      rw [action_issues entry hi, h₁.same]
      refine ⟨rfl, isint_choose h.isint _, fun m hm => hflight m (hsub m hm), ?_, ?_, ?_⟩
      · rintro c hc
        cases hc
        exact ⟨rfl, hsay⟩
      · intro _ _ _ _
        exact Or.inl rfl
      · rintro ⟨⟩
    | false =>
      rw [choose_of_not_issues hi]
      rw [← h₁.same] at hagree
      obtain ⟨main, heq, hmain, hcall⟩ := action_other entry hi hidle₁ hagree
      rw [heq]
      exact h₁.moved (by rw [hidle₁]; rfl) hmain hcall
  · cases hstep

/-- One step of the window. -/
theorem step_faithful (h : Faithful sel w) (hok : Settled w e) (hstep : Step w e w') :
    Faithful (chosenAfter sel e) w' := by
  cases e with
  | action src entry => exact h.action hok hstep
  | command => exact h.command hstep
  | inner ev =>
    simp only [StepOf, step] at hstep
    split at hstep
    · rename_i hinner
      by_cases hrep : ∃ i st, ev = .report i st
      · obtain ⟨i, state, rfl⟩ := hrep
        exact h.report hok hstep
      · refine h.silent ?_ (fun i st he => hrep ⟨i, st, he⟩) hstep
        rintro c r rfl
        cases hinner
    · cases hstep
  | tk m =>
    simp only [StepOf, step] at hstep
    split at hstep
    · obtain rfl := Option.some.inj hstep
      simp only [tksend]
      split
      · exact h.buffered (q := []) (by rintro _ ⟨⟩) (agrees_tkmsg m)
      · rename_i q hq
        split
        · exact h.buffered (fun m hm => by rwa [hq]) (agrees_tkmsg m)
        · exact h
    · cases hstep
  | wmexit =>
    simp only [StepOf, step] at hstep
    split at hstep
    · rename_i hidle
      obtain rfl := Option.some.inj hstep
      refine h.moved (by rw [hidle]; rfl) rfl ?_
      rintro _ _ _ ⟨⟩
      rw [show Cmd.ofFields (unquoted "exit") = .exit by decide +kernel]
      rintro _ _ ⟨⟩
    · cases hstep
  | reply r =>
    simp only [StepOf, step] at hstep
    split at hstep
    · rename_i hwait
      have h' : Faithful sel { w with main := .idle } :=
        h.moved (by rw [hwait]; rfl) rfl (by rintro _ _ _ ⟨⟩)
      exact h'.silent (by rintro _ _ ⟨⟩) (by rintro _ _ ⟨⟩) hstep
    · cases hstep
  | out msg =>
    simp only [StepOf, step] at hstep
    obtain ⟨w₁, hbuf, hctl⟩ := Option.bind_eq_some_iff.mp hstep
    obtain ⟨q, hq, rfl⟩ := buffer_eq hbuf
    obtain ⟨ctl, hact, -⟩ := ctlstep_eq hctl
    have h' := h.buffered (q := q) (fun m hm => by rwa [hq]) (h.agrees_out hact)
    exact h'.silent (by rintro _ _ ⟨⟩) (by rintro _ _ ⟨⟩) hctl
  | ring i =>
    simp only [StepOf, step] at hstep
    obtain ⟨w₁, hbuf, hctl⟩ := Option.bind_eq_some_iff.mp hstep
    obtain ⟨q, hq, rfl⟩ := buffer_eq hbuf
    have h' := h.buffered (q := q) (fun m hm => by rwa [hq]) agrees_ring
    exact h'.silent (by rintro _ _ ⟨⟩) (by rintro _ _ ⟨⟩) hctl

theorem start_faithful (gametype location : String) :
    Faithful ⟨gametype, location, 0⟩ (start gametype location) where
  same := rfl
  isint := by
    change Isint 0
    unfold Isint
    omega
  inflight := by rintro _ ⟨⟩
  issued := by rintro _ ⟨⟩
  others := by
    rintro _ _ _ ⟨⟩
    refine Or.inr ?_
    rw [show Cmd.ofFields (unquoted "off") = .off by decide +kernel]
    rintro _ _ ⟨⟩
  heard := fun _ => agrees_runningWith_nil

/-- **No lost selection**, as long as the statuses are settled. In every run of an alert
window in which, whenever a choice is handled, its names are plain words and no "running"
status on its way contradicts the selection, and in which no watcher reports a contradicting
one while a command is still waiting to be taken: every command that `update_alert` issues
carries the user's most recent choices handled so far. -/
theorem selection_kept (gametype location : String) (es : List Event) (w : Alertwin)
    (h : Run (Guarded Settled Step) (start gametype location) es w) (cmdline : String)
    (hissue : w.main = .updating cmdline) :
    cmdline = (chosen gametype location es).command := by
  have hf : Faithful (chosen gametype location es) w := by
    refine h.traced (J := fun es w => Faithful (chosen gametype location es) w)
      (start_faithful gametype location) ?_
    rintro es w e w' hf ⟨hok, hstep⟩
    have hsnoc : chosen gametype location (es ++ [e]) =
        chosenAfter (chosen gametype location es) e := by
      rw [chosen, List.foldl_append]
      cases e <;> rfl
    rw [hsnoc]
    exact step_faithful hf hok hstep
  exact (hf.issued cmdline hissue).1

/-- The window is started and shows `off`. -/
def startSteps : List Event :=
  .command :: (Ctlproc.watcherKill ++ [Todo.registry "off"]).map (fun t => .inner (.act t)) ++
    [.action (.ctlproc (some "off")) ""]

/-- The user picks a number of players. -/
def pickCount (n : Nat) : List Event :=
  [.tk (.change_playercount n), .action (.buffer ("change_playercount " ++ toString n)) ""]

/-- `ctlproc` takes an `on` command and answers it. -/
def onSteps (wargs : List String) : List Event :=
  .command :: (Ctlproc.watcherSpawn "rotc" wargs).map (fun t => .inner (.act t)) ++ [.reply none]

/-- The user picks two players and, while the status of that command is queued behind the choice,
the location `loc`; then a number of players again. -/
def echoSteps (loc : String) : List Event :=
  startSteps ++ pickCount 2 ++ onSteps ["-a", "2"] ++
    [.inner (.watcherstart 0), .inner (.report 0 0)] ++
    (Ctlproc.ringprocKill ++ [Todo.registry "running rotc -a 2"]).map (fun t => .inner (.act t)) ++
    [.tk (.change_location loc), .out (some "running rotc -a 2"),
      .action (.buffer ("change_location " ++ loc)) ""] ++
    onSteps [loc, "2"] ++ [.action (.buffer "running rotc -a 2") ""] ++ pickCount 3

/-- The user picks the location that the window shows. The status that is on its way when this choice
is handled repeats it. -/
theorem selection_kept_echo :
    "on rotc -a 3" = (chosen "rotc" "-a" (echoSteps "-a")).command := by
  have hrun : execGuarded Settled step (start "rotc" "-a") (echoSteps "-a") =
      some
        { ctl := { watchertype := "rotc", watcherargs := ["-a", "2"], watchers := [.killed, .fresh] }
          buf := some []
          selection := ⟨"rotc", "-a", 3⟩
          main := .updating "on rotc -a 3" } := by
    decide +kernel
  exact selection_kept "rotc" "-a" _ _ (Run.of_execGuarded hrun) _ rfl

/-- If it is another location, the last command has the first one, not the one the user chose. -/
theorem stale_status_overwrites_choice :
    ∃ w, exec step (start "rotc" "-a") (echoSteps "-eu") = some w ∧
      w.main = .updating "on rotc -a 3" ∧
      chosen "rotc" "-a" (echoSteps "-eu") = ⟨"rotc", "-eu", 3⟩ ∧
      "on rotc -a 3" ≠ (chosen "rotc" "-a" (echoSteps "-eu")).command := by
  let w : Alertwin :=
    { ctl := { watchertype := "rotc", watcherargs := ["-eu", "2"], watchers := [.killed, .fresh] }
      buf := some []
      selection := ⟨"rotc", "-a", 3⟩
      main := .updating "on rotc -a 3" }
  refine ⟨w, ?_, rfl, ?_, ?_⟩
  · decide +kernel
  · decide +kernel
  · decide +kernel

end Alertwin

end Aimsgui
