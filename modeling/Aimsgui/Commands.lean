import Aimsgui.AlertDeadlock

/-!
# Every command is answered

What is written to the ctl file goes through `ctl` to `ctlproc`, and `ctl` waits for the
answer. `ctlproc` takes the line apart with `hd` and `tl`, and breaks on a line without words,
on `on` without a type and on `pname` without a name: then there is no answer, and nobody is
left to take another command. On all other lines it gives one answer, and goes on
(`answered_iff`).
-/

namespace Aimsgui

open Transition

namespace Ctlproc

/-- The answer that an action gives. -/
def Todo.answer : Todo → Option (Option String)
  | .reply e => some e
  | _ => none

/-- The action that `ctlproc` takes in a step. -/
def Event.action : Event → Option Todo
  | .act t => some t
  | _ => none

/-- What `ctlproc` has done, in order. -/
def actions (es : List Event) : List Todo := es.filterMap Event.action

/-- What it has answered. -/
def answers (es : List Event) : List (Option String) := (actions es).filterMap Todo.answer

/-- `ctlproc` takes a message. -/
def Event.takes : Event → Bool
  | .command _ _ | .report _ _ => true
  | _ => false

/-- `ctlproc` takes no other message. Watchers and ring processes go on. -/
def Handling (_ : Ctlproc) (e : Event) : Prop := e.takes = false

instance (s : Ctlproc) (e : Event) : Decidable (Handling s e) :=
  inferInstanceAs (Decidable (_ = _))

/-- `ctlproc` after it has taken a line from the ctl file. -/
def taken (s : Ctlproc) (cmdline : String) : Ctlproc :=
  s.take (command true (Cmd.ofFields (unquoted cmdline)))

/-- A command that is known, with the arguments it requires. -/
def Valid : List String → Prop
  | "exit" :: _ | "off" :: _ | "on" :: _ :: _ | "pname" :: _ :: _ => True
  | _ => False

instance : DecidablePred Valid := fun fields => by
  rw [Valid.eq_def]
  split <;> infer_instance

/-- How the words of a line should be answered. -/
def due (fields : List String) : Option String :=
  if Valid fields then none else some "invalid ctl message"

variable {s s₁ s' : Ctlproc} {es : List Event} {cmdline : String}

/-- In whatever way the handling of a line goes on beside the other processes: until it is done,
there is a next action; then there has been one answer, and `ctlproc` is ready for another
message, or has exited after `exit`. For an invalid command it does nothing but answer. -/
structure Answered (s : Ctlproc) (cmdline : String) : Prop where
  onward : ∀ es s', Run (Guarded Handling Step) (s.taken cmdline) es s' → s'.todo ≠ [] →
    ∃ t s'', Step s' (.act t) s''
  bounded : ∃ n, ∀ es s', Run (Guarded Handling Step) (s.taken cmdline) es s' →
    (actions es).length ≤ n
  once : ∀ es s', Run (Guarded Handling Step) (s.taken cmdline) es s' → s'.todo = [] →
    answers es = [due (unquoted cmdline)]
  after : ∀ es s', Run (Guarded Handling Step) (s.taken cmdline) es s' → s'.todo = [] →
    if (unquoted cmdline).head? = some "exit" then s'.gone = true else s'.Ready
  unchanged : ¬ Valid (unquoted cmdline) → ∀ es s',
    Run (Guarded Handling Step) (s.taken cmdline) es s' →
      actions es <+: [.reply (some "invalid ctl message")]

/-- The line has a word, and `on` and `pname` have an argument. -/
def Complete (fields : List String) : Prop :=
  fields ≠ [] ∧ fields ≠ ["on"] ∧ fields ≠ ["pname"]

instance : DecidablePred Complete := fun _ => inferInstanceAs (Decidable (_ ∧ _))

/-! ## Handling a message -/

/-- Only `exit` ends the process, when it has a message to handle. -/
theorem perform_gone (s : Ctlproc) (t : Todo) :
    (s.perform t).gone = true ↔ s.gone = true ∨ t = .exit := by
  cases t <;> simp [perform]

/-- Until another message is taken, what is to be done is done in its order. -/
theorem handling_run (h : Run (Guarded Handling Step) s₁ es s') :
    s₁.todo = actions es ++ s'.todo ∧
      (s'.gone = true ↔ s₁.gone = true ∨ .exit ∈ actions es) := by
  induction h with
  | nil => exact ⟨rfl, by simp [actions]⟩
  | @snoc es e s s' _ hstep ih =>
    obtain ⟨htodo, hgone⟩ := ih
    obtain ⟨hok, hstep⟩ := hstep
    have hactions : actions (es ++ [e]) = actions es ++ actions [e] := List.filterMap_append ..
    rw [hactions]
    cases e with
    | command c r => cases hok
    | report i st => cases hok
    | act t =>
      obtain ⟨todo, ht, rfl⟩ := step_act hstep
      rw [perform_gone, perform_todo, htodo, ht, hgone]
      refine ⟨?_, ?_⟩
      · rw [List.append_assoc]
        rfl
      · rw [List.mem_append, or_assoc, show actions [.act t] = [t] from rfl, List.mem_singleton,
          @eq_comm _ t]
    | watcherstart i =>
      obtain ⟨-, rfl⟩ := step_watcherstart hstep
      rw [show actions [.watcherstart i] = [] from rfl, List.append_nil]
      exact ⟨htodo, hgone⟩
    | watcherend i =>
      obtain ⟨-, rfl⟩ := step_watcherend hstep
      rw [show actions [.watcherend i] = [] from rfl, List.append_nil]
      exact ⟨htodo, hgone⟩
    | ringstart i =>
      obtain ⟨-, rfl⟩ := step_ringstart hstep
      rw [show actions [.ringstart i] = [] from rfl, List.append_nil]
      exact ⟨htodo, hgone⟩
    | ring i =>
      obtain rfl := step_ring hstep
      rw [show actions [.ring i] = [] from rfl, List.append_nil]
      exact ⟨htodo, hgone⟩

/-- The run of a message is over when all of it has been done. -/
theorem handling_done (h : Run (Guarded Handling Step) s₁ es s') (hdone : s'.todo = []) :
    actions es = s₁.todo := by
  obtain ⟨htodo, -⟩ := handling_run h
  rw [htodo, hdone, List.append_nil]

/-- A message that does not break `ctlproc`, all of whose actions give one answer. -/
theorem answered_of_todo {todo : List Todo} (hready : s.Ready)
    (hcommand : command true (Cmd.ofFields (unquoted cmdline)) = some todo)
    (honce : todo.filterMap Todo.answer = [due (unquoted cmdline)])
    (hexit : .exit ∈ todo ↔ (unquoted cmdline).head? = some "exit")
    (hinvalid : ¬ Valid (unquoted cmdline) → todo = [.reply (some "invalid ctl message")]) :
    Answered s cmdline := by
  have htaken : s.taken cmdline = { s with todo := todo } := by
    rw [taken, hcommand]
    rfl
  refine ⟨?_, ⟨todo.length, ?_⟩, ?_, ?_, ?_⟩
  · intro es s' _ htodo
    obtain ⟨t, rest, ht⟩ := List.exists_cons_of_ne_nil htodo
    refine ⟨t, { s' with todo := rest }.perform t, ?_⟩
    change step s' (.act t) = _
    simp only [step, ht, if_true]
  · intro es s' hrun
    have hactions : todo = actions es ++ s'.todo := by
      have htodo := (handling_run hrun).1
      rwa [htaken] at htodo
    rw [hactions, List.length_append]
    omega
  · intro es s' hrun hdone
    rw [answers, handling_done hrun hdone, htaken]
    exact honce
  · intro es s' hrun hdone
    have hgone : s'.gone = true ↔ .exit ∈ todo := by
      rw [(handling_run hrun).2, handling_done hrun hdone, htaken]
      simp [hready.2]
    rw [hexit] at hgone
    split_ifs with hhead
    · exact hgone.mpr hhead
    · exact ⟨hdone, Bool.eq_false_iff.mpr fun h => hhead (hgone.mp h)⟩
  · intro hbad es s' hrun
    refine ⟨s'.todo, ?_⟩
    rw [← (handling_run hrun).1, htaken]
    exact hinvalid hbad

/-- The branches of `ctlproc`. -/
theorem command_cases (fields : List String) (h : Complete fields) :
    ∃ todo, command true (Cmd.ofFields fields) = some todo ∧
      todo.filterMap Todo.answer = [due fields] ∧
      (.exit ∈ todo ↔ fields.head? = some "exit") ∧
      (¬ Valid fields → todo = [.reply (some "invalid ctl message")]) := by
  unfold Cmd.ofFields
  split
  · exact absurd rfl h.1
  · rename_i args
    have hdue : due ("exit" :: args) = none := if_pos trivial
    rw [hdue]
    exact ⟨_, rfl, rfl, iff_of_true (by simp) rfl, fun hbad => absurd trivial hbad⟩
  · rename_i wtype wargs
    have hdue : due ("on" :: wtype :: wargs) = none := if_pos trivial
    rw [hdue]
    refine ⟨_, rfl, rfl, iff_of_false ?_ ?_, fun hbad => absurd trivial hbad⟩
    · simp [watcherSpawn, watcherKill, ringprocKill, answer]
    · simp
  · exact absurd rfl h.2.1
  · rename_i args
    have hdue : due ("off" :: args) = none := if_pos trivial
    rw [hdue]
    refine ⟨_, rfl, rfl, iff_of_false ?_ ?_, fun hbad => absurd trivial hbad⟩
    · simp [watcherKill, ringprocKill, status, answer]
    · simp
  · rename_i name args
    have hdue : due ("pname" :: name :: args) = none := if_pos trivial
    rw [hdue]
    refine ⟨_, rfl, rfl, iff_of_false ?_ ?_, fun hbad => absurd trivial hbad⟩
    · simp [answer]
    · simp
  · exact absurd rfl h.2.2
  · -- a word that is not a command
    rename_i hne hexit hon hon' hoff hpname hpname'
    have hbad : ¬ Valid fields := by
      unfold Valid
      split
      · exact absurd rfl (hexit _)
      · exact absurd rfl (hoff _)
      · exact absurd rfl (hon _ _)
      · exact absurd rfl (hpname _ _)
      · exact id
    have hdue : due fields = some "invalid ctl message" := if_neg hbad
    rw [hdue]
    refine ⟨_, rfl, rfl, iff_of_false (by simp [answer]) ?_, fun _ => rfl⟩
    intro hhead
    obtain ⟨args, rfl⟩ := List.head?_eq_some_iff.mp hhead
    exact hexit _ rfl

theorem answered_of_complete (hready : s.Ready) (h : Complete (unquoted cmdline)) :
    Answered s cmdline := by
  obtain ⟨todo, hcommand, honce, hexit, hinvalid⟩ := command_cases (unquoted cmdline) h
  exact answered_of_todo hready hcommand honce hexit hinvalid

/-- Without the words that it takes for granted, `ctlproc` breaks. -/
theorem command_broken {fields : List String} (h : ¬ Complete fields) :
    command true (Cmd.ofFields fields) = none := by
  have hfields : fields = [] ∨ fields = ["on"] ∨ fields = ["pname"] := by
    rwa [Complete, not_and_or, not_and_or, not_not, not_not, not_not] at h
  rcases hfields with rfl | rfl | rfl
  · rfl
  · rfl
  · rfl

theorem not_answered_of_broken (hready : s.Ready)
    (h : command true (Cmd.ofFields (unquoted cmdline)) = none) : ¬ Answered s cmdline := by
  intro hanswered
  have hdone : (s.taken cmdline).todo = [] := by
    rw [taken, h]
    exact hready.1
  have honce := hanswered.once [] (s.taken cmdline) Run.nil hdone
  cases honce

/-- A line that is written to the ctl file reaches `ctlproc` when that is ready for a message:
`ctl` sends it and waits. It is answered as it should be exactly if it has the words that its
command takes for granted. -/
theorem answered_iff (hready : s.Ready) (cmdline : String) :
    (∀ a : Alert, a.ctl = s → a.ctlfile = .sending cmdline → Alert.Step a (.command .ctlfile)
      { a with ctlfile := .waiting, ctl := s.taken cmdline }) ∧
    (Answered s cmdline ↔ Complete (unquoted cmdline)) := by
  refine ⟨?_, ?_, answered_of_complete hready⟩
  · rintro a rfl hsending
    change Alert.step a (.command .ctlfile) = _
    simp only [Alert.step, Alert.call, hsending, Option.bind_some, Alert.ctlstep, step,
      if_pos hready, Option.map_some]
    rfl
  · intro hanswered
    by_contra h
    exact not_answered_of_broken hready (command_broken h) hanswered

/-- A command that is not known is answered, and leaves the watcher alone. -/
theorem answered_unknown : Answered { watchers := [.running], watcherpid := some 0 } "onn now" :=
  ((@answered_iff { watchers := [.running], watcherpid := some 0 } (by decide) "onn now").2).mpr
    (by decide +kernel)

/-- An empty line, `on` and `pname` are not answered. -/
theorem incomplete_unanswered :
    ¬ Answered start "" ∧ ¬ Answered start "on" ∧ ¬ Answered start "pname" :=
  ⟨not_answered_of_broken (by decide) (by decide +kernel),
    not_answered_of_broken (by decide) (by decide +kernel),
    not_answered_of_broken (by decide) (by decide +kernel)⟩

end Ctlproc

end Aimsgui
