import Aimsgui.Watcher

/-!
# Watchers that die tell

A watcher that ends has sent -1 with a reason before, and then the alert puts "off" out; but one
that meets a line with less than five fields is gone without a word, and the alert stays
"running". `Readable` is the condition that rules this out. Under it the watcher whose state
made the alert "running" or "ringing" is alive, until its failure or a command is handled
(`no_silent_death`).
-/

namespace Aimsgui

open Transition

/-! ## Lines -/

namespace Watcher

variable {w : Watcher} {line : String} {lines : List String}

/-- A line is read without a missed field just if it has five. -/
theorem matching_eq_none_iff : w.matching line = none ↔ (tokenize line).length < 5 := by
  rw [matching]
  by_cases hlength : (tokenize line).length < 5
  · have hmissed : (tokenize line)[4]? = none := List.getElem?_eq_none (by omega)
    simp only [hmissed, hlength]
  · have hcandidate : 4 < (tokenize line).length := by omega
    have hgametype : 2 < (tokenize line).length := by omega
    have hplayers : 0 < (tokenize line).length := by omega
    simp only [List.getElem?_eq_getElem hcandidate, List.getElem?_eq_getElem hplayers,
      iff_false_right hlength]
    split_ifs
    · cases w.module <;> simp [Mwatcher.checkServer, List.getElem?_eq_getElem hgametype]
    · exact not_false

/-- A list breaks the watcher just if one of its lines has less than five fields. -/
theorem walk_eq_none_iff {newstate : Int} :
    w.walk newstate lines = none ↔ ∃ line ∈ lines, (tokenize line).length < 5 := by
  induction lines generalizing newstate with
  | nil => simp [walk]
  | cons line lines ih =>
    rw [walk, List.exists_mem_cons_iff, ← matching_eq_none_iff (w := w)]
    cases hline : w.matching line with
    | none => simp
    | some found =>
      refine ih.trans ?_
      simp

/-- The state after a list is the one before it, or 1. -/
theorem walk_eq_some {newstate r : Int} (h : w.walk newstate lines = some r) :
    r = newstate ∨ r = 1 := by
  induction lines generalizing newstate with
  | nil => exact Or.inl (Option.some.inj h).symm
  | cons line lines ih =>
    rw [walk] at h
    cases hline : w.matching line with
    | none =>
      rw [hline] at h
      cases h
    | some found =>
      simp only [hline] at h
      rcases ih h with rfl | rfl
      · cases found
        · exact Or.inl rfl
        · exact Or.inr rfl
      · exact Or.inr rfl

end Watcher

/-- A watcher that is about to send -1 gives a reason and ends then; the other states come from
one that goes on. -/
def Watchpc.Sound : Watchpc → Prop
  | .send state _ .watch => state ≠ -1
  | .send state error _ => state = -1 ∧ error.isSome
  | .broken => False
  | _ => True

namespace Watcher

variable {w : Watcher} {list : Except String (List String)}

theorem setState_sound {newstate : Int} (h : newstate ≠ -1) : (w.setState newstate).pc.Sound := by
  rw [setState]
  split_ifs
  · exact h
  · exact trivial

theorem loaded_sound (w : Watcher) (ok : Bool) : (w.loaded ok).pc.Sound := by
  rw [loaded.eq_def]
  split
  · exact setState_sound (by decide)
  · exact ⟨rfl, rfl⟩
  · exact ⟨rfl, rfl⟩

theorem reading_sound (h : ∀ lines, list = .ok lines → ∀ line ∈ lines, 5 ≤ (tokenize line).length) :
    (w.reading list).pc.Sound := by
  cases list with
  | error r => exact ⟨rfl, rfl⟩
  | ok lines =>
    rw [reading.eq_def]
    cases hwalk : w.walk 0 lines with
    | none =>
      obtain ⟨line, hline, hlength⟩ := walk_eq_none_iff.mp hwalk
      have hfive := h lines rfl line hline
      omega
    | some newstate =>
      simp only [hwalk]
      apply setState_sound
      rcases walk_eq_some hwalk with h₀ | h₁ <;> omega

theorem next_sound (n : After) : (next n).Sound := by
  cases n with
  | watch | finish => exact trivial
  | fail => exact ⟨rfl, rfl⟩

theorem setState_ne_finish (w : Watcher) (newstate : Int) :
    (w.setState newstate).pc ≠ .finish := by
  rw [setState]
  split_ifs <;> exact Watchpc.noConfusion

theorem loaded_ne_finish (w : Watcher) (ok : Bool) : (w.loaded ok).pc ≠ .finish := by
  rw [loaded.eq_def]
  split
  · exact setState_ne_finish _ _
  · exact Watchpc.noConfusion
  · exact Watchpc.noConfusion

theorem reading_ne_finish (w : Watcher) (list : Except String (List String)) :
    (w.reading list).pc ≠ .finish := by
  rw [reading.eq_def]
  split
  · exact Watchpc.noConfusion
  · split
    · exact setState_ne_finish _ _
    · exact Watchpc.noConfusion

end Watcher

namespace Ctlproc

variable {s s' : Ctlproc} {e : Event} {i : Nat}

/-- What can become of a watcher in one step. -/
theorem watcher_step {p : Proc} (h : Step s e s') (hp : s.watchers[i]? = some p) :
    s'.watchers[i]? = some p ∨
      (e = .act .watcherpost ∨ e = .act .exitwatcher) ∧ s'.watchers[i]? = some p.kill ∨
      e = .watcherstart i ∧ s'.watchers[i]? = some .running ∨
      e = .watcherend i ∧ s'.watchers[i]? = some .ended := by
  have hlt : i < s.watchers.length := (List.getElem?_eq_some_iff.mp hp).1
  have hpost : (postnote s.watchers s.watcherpid)[i]? = some p ∨
      (postnote s.watchers s.watcherpid)[i]? = some p.kill := by
    cases s.watcherpid with
    | none => exact Or.inl hp
    | some j =>
      rw [postnote, List.getElem?_modify, hp]
      split_ifs
      · exact Or.inr rfl
      · exact Or.inl rfl
  cases e with
  | command cmdline cerror =>
    obtain ⟨-, rfl⟩ := step_command h
    left
    cases command cerror (Cmd.ofFields (unquoted cmdline)) <;> exact hp
  | report j state =>
    obtain ⟨-, -, rfl⟩ := step_report h
    exact Or.inl hp
  | act t =>
    obtain ⟨todo, -, rfl⟩ := step_act h
    cases t with
    | watcherpost => exact hpost.imp_right fun hkill => Or.inl ⟨Or.inl rfl, hkill⟩
    | exitwatcher => exact hpost.imp_right fun hkill => Or.inl ⟨Or.inr rfl, hkill⟩
    | watcherspawn => exact Or.inl ((List.getElem?_append_left hlt).trans hp)
    | _ => exact Or.inl hp
  | watcherstart j =>
    obtain ⟨-, rfl⟩ := step_watcherstart h
    by_cases hij : j = i
    · subst hij
      exact Or.inr (Or.inr (Or.inl ⟨rfl, List.getElem?_set_self hlt⟩))
    · exact Or.inl ((List.getElem?_set_ne hij).trans hp)
  | watcherend j =>
    obtain ⟨-, rfl⟩ := step_watcherend h
    by_cases hij : j = i
    · subst hij
      exact Or.inr (Or.inr (Or.inr ⟨rfl, List.getElem?_set_self hlt⟩))
    · exact Or.inl ((List.getElem?_set_ne hij).trans hp)
  | ringstart j =>
    obtain ⟨-, rfl⟩ := step_ringstart h
    exact Or.inl hp
  | ring j =>
    obtain rfl := step_ring h
    exact Or.inl hp

/-- A watcher stays alive unless a kill is posted or it ends. -/
theorem live_step (hl : s.Live i) (hkill : e ≠ .act .watcherpost ∧ e ≠ .act .exitwatcher)
    (hend : e ≠ .watcherend i) (h : Step s e s') : s'.Live i := by
  obtain ⟨p, hp, hlive⟩ := hl
  rcases watcher_step h hp with hp | ⟨hpost, -⟩ | ⟨-, hp⟩ | ⟨rfl, -⟩
  · exact ⟨p, hp, hlive⟩
  · exact absurd hpost (not_or.mpr hkill)
  · exact ⟨.running, hp, rfl⟩
  · exact absurd rfl hend

/-- A watcher that has ended had ended before, or ends in this step. -/
theorem ended_step (h : Step s e s') (hi : s'.watchers[i]? = some .ended) :
    s.watchers[i]? = some .ended ∨ e = .watcherend i := by
  have hpost : ∀ {procs : List Proc} {pid : Option Nat},
      (postnote procs pid)[i]? = some .ended → procs[i]? = some .ended := by
    intro procs pid hp
    cases pid with
    | none => exact hp
    | some j =>
      rw [postnote, List.getElem?_modify] at hp
      split at hp
      · obtain ⟨q, hq, hkill⟩ := Option.map_eq_some_iff.mp hp
        cases q <;> cases hkill
        exact hq
      · simpa using hp
  cases e with
  | command cmdline cerror =>
    obtain ⟨-, rfl⟩ := step_command h
    left
    revert hi
    cases command cerror (Cmd.ofFields (unquoted cmdline)) <;> exact id
  | report j state =>
    obtain ⟨-, -, rfl⟩ := step_report h
    exact Or.inl hi
  | act t =>
    obtain ⟨todo, -, rfl⟩ := step_act h
    left
    cases t with
    | watcherpost | exitwatcher => exact hpost hi
    | watcherspawn =>
      have hi' : (s.watchers ++ [Proc.fresh])[i]? = some .ended := hi
      rw [List.getElem?_append] at hi'
      split at hi'
      · exact hi'
      · have hmem := List.mem_of_getElem? hi'
        rw [List.mem_singleton] at hmem
        cases hmem
    | _ => exact hi
  | watcherstart j =>
    obtain ⟨-, rfl⟩ := step_watcherstart h
    left
    have hi' : (s.watchers.set j .running)[i]? = some .ended := hi
    rw [List.getElem?_set] at hi'
    split_ifs at hi'
    · cases hi'
    · exact hi'
  | watcherend j =>
    obtain ⟨-, rfl⟩ := step_watcherend h
    by_cases hij : j = i
    · exact Or.inr (congrArg Event.watcherend hij)
    · exact Or.inl ((List.getElem?_set_ne hij).symm.trans hi)
  | ringstart j =>
    obtain ⟨-, rfl⟩ := step_ringstart h
    exact Or.inl hi
  | ring j =>
    obtain rfl := step_ring h
    exact Or.inl hi

end Ctlproc

namespace Watching

variable {s s' : Watching} {e : Event} {es : List Event} {i j : Nat} {w : Watcher}

/-- The lists that are read have five fields or more in every line. -/
def Readable (_ : Watching) : Event → Prop
  | .read _ (.ok lines) => ∀ line ∈ lines, 5 ≤ (tokenize line).length
  | _ => True

instance (s : Watching) (e : Event) : Decidable (s.Readable e) :=
  match e with
  | .read _ (.ok lines) => List.decidableBAll _ lines
  | .read _ (.error _) | .command .. | .act _ | .ringstart _ | .ring _ | .start _ | .load ..
  | .report .. | .finish _ => isTrue trivial

/-! ## What a step can do -/

theorem step_control {e : Ctlproc.Event} (h : s.control e = some s') :
    s.ctl.step e = some s'.ctl ∧ s'.watchers = s.watchers := by
  obtain ⟨ctl, hctl, rfl⟩ := Option.map_eq_some_iff.mp h
  exact ⟨hctl, rfl⟩

theorem step_advance {f : Watcher → Option Watcher} (h : s.advance i f = some s') :
    s.ctl.watchers[i]? = some .running ∧ ∃ w w', s.watchers[i]? = some w ∧ f w = some w' ∧
      s' = { s with watchers := s.watchers.set i w' } := by
  rw [advance] at h
  split_ifs at h with hrunning
  obtain ⟨w', hw', rfl⟩ := Option.map_eq_some_iff.mp h
  obtain ⟨w, hw, hf⟩ := Option.bind_eq_some_iff.mp hw'
  exact ⟨hrunning, w, w', hw, hf, rfl⟩

/-- The other steps of the control process. -/
theorem step_act {t : Todo} (h : s.step (.act t) = some s') :
    s.ctl.step (.act t) = some s'.ctl ∧
      s'.watchers = if t = .watcherspawn then s.spawned.watchers else s.watchers := by
  cases t with
  | watcherspawn => exact step_control h
  | _ => exact step_control h

/-! ## What is known of the watchers -/

/-- The watcher has sent -1 with a reason. -/
def Reported (es : List Event) (i : Nat) : Prop := ∃ r, .report i (-1) (some r) ∈ es

theorem Reported.snoc (h : Reported es i) : Reported (es ++ [e]) i := by
  obtain ⟨r, hr⟩ := h
  exact ⟨r, List.mem_append_left _ hr⟩

/-- The programs are where they should be, and a watcher that ends has told. -/
structure Candid (es : List Event) (s : Watching) : Prop where
  sound : ∀ (i : Nat) (w : Watcher), s.watchers[i]? = some w → w.pc.Sound
  finish : ∀ (i : Nat) (w : Watcher), s.watchers[i]? = some w → w.pc = .finish → Reported es i
  ended : ∀ i, s.ctl.watchers[i]? = some .ended → Reported es i

/-- Control steps leave the programs alone. -/
theorem Candid.control {e' : Ctlproc.Event} (h : Candid es s)
    (hend : ∀ i, e' = .watcherend i → Reported es i) (hstep : s.control e' = some s') :
    Candid es s' := by
  obtain ⟨hctl, hwatchers⟩ := step_control hstep
  refine ⟨?_, ?_, ?_⟩
  · rw [hwatchers]
    exact h.sound
  · rw [hwatchers]
    exact h.finish
  · intro i hi
    rcases Ctlproc.ended_step hctl hi with hi | hi
    · exact h.ended i hi
    · exact hend i hi

/-- The program of one watcher moves. -/
theorem Candid.set (h : Candid es s) (hsound : w.pc.Sound)
    (hfinish : w.pc = .finish → Reported es i) :
    Candid es { s with watchers := s.watchers.set i w } := by
  refine ⟨?_, ?_, h.ended⟩
  · intro j w' hw'
    rw [List.getElem?_set] at hw'
    split_ifs at hw' with hij
    · obtain rfl := Option.some.inj hw'
      exact hsound
    · exact h.sound j w' hw'
  · intro j w' hw'
    rw [List.getElem?_set] at hw'
    split_ifs at hw' with hij
    · obtain rfl := Option.some.inj hw'
      subst hij
      exact hfinish
    · exact h.finish j w' hw'

/-- A watcher more. -/
theorem Candid.spawned (h : Candid es s) : Candid es s.spawned := by
  have hnew : ∀ (j : Nat) (w : Watcher), s.spawned.watchers[j]? = some w →
      s.watchers[j]? = some w ∨ w.pc = .fresh := by
    intro j w hw
    have hw' : (s.watchers ++ [Watcher.mk s.ctl.watchertype s.ctl.watcherargs
        .fresh .alux "" 0 (-1)])[j]? = some w := hw
    rw [List.getElem?_append] at hw'
    split_ifs at hw'
    · exact Or.inl hw'
    · have hmem := List.mem_of_getElem? hw'
      rw [List.mem_singleton] at hmem
      exact Or.inr (hmem ▸ rfl)
  refine ⟨?_, ?_, h.ended⟩
  · intro j w hw
    rcases hnew j w hw with hw | hpc
    · exact h.sound j w hw
    · rw [hpc]
      exact trivial
  · intro j w hw hfinish
    rcases hnew j w hw with hw | hpc
    · exact h.finish j w hw hfinish
    · rw [hpc] at hfinish
      cases hfinish

theorem Candid.snoc (h : Candid es s) : Candid (es ++ [e]) s :=
  ⟨h.sound, fun i w hw hpc => (h.finish i w hw hpc).snoc, fun i hi => (h.ended i hi).snoc⟩

/-- `ctlproc` takes a state: the watcher goes on behind its send. -/
theorem step_report {state : Int} {error : Option String}
    (h : s.step (.report i state error) = some s') :
    s.ctl.watchers[i]? = some .running ∧ ∃ w n, s.watchers[i]? = some w ∧
      w.pc = .send state error n ∧
      Watching.control { s with watchers := s.watchers.set i { w with pc := Watcher.next n } }
        (.report i state) = some s' := by
  obtain ⟨s₁, hadvance, hcontrol⟩ := Option.bind_eq_some_iff.mp h
  obtain ⟨hrunning, w, w', hw, hf, rfl⟩ := step_advance hadvance
  cases hpc : w.pc with
  | send state' error' n =>
    simp only [hpc] at hf
    split_ifs at hf with heq
    obtain ⟨rfl, rfl⟩ := heq
    obtain rfl := Option.some.inj hf
    exact ⟨hrunning, w, n, hw, hpc, hcontrol⟩
  | _ =>
    simp only [hpc] at hf
    cases hf

/-- A list without a missed field is read to its end. -/
theorem step_read {list : Except String (List String)} (hok : s.Readable (.read i list))
    (h : s.step (.read i list) = some s') :
    s.ctl.watchers[i]? = some .running ∧ ∃ w, s.watchers[i]? = some w ∧ w.pc = .watch ∧
      (w.reading list).pc.Sound ∧
      s' = { s with watchers := s.watchers.set i (w.reading list) } := by
  obtain ⟨s₁, hadvance, hbroken⟩ := Option.bind_eq_some_iff.mp h
  obtain ⟨hrunning, w, w', hw, hf, rfl⟩ := step_advance hadvance
  split_ifs at hf with hpc
  obtain rfl := Option.some.inj hf
  have hsound : (w.reading list).pc.Sound := by
    apply Watcher.reading_sound
    rintro lines rfl
    exact hok
  have hself : (s.watchers.set i (w.reading list))[i]? = some (w.reading list) :=
    List.getElem?_set_self (List.getElem?_eq_some_iff.mp hw).1
  rw [if_neg] at hbroken
  · exact ⟨hrunning, w, hw, hpc, hsound, (Option.some.inj hbroken).symm⟩
  · dsimp only
    rw [hself]
    intro hpc
    rw [Option.some.inj hpc] at hsound
    exact hsound

/-- One step, in which no watcher misses a field. -/
theorem step_candid (h : Candid es s) (hok : s.Readable e) (hstep : s.step e = some s') :
    Candid (es ++ [e]) s' := by
  cases e with
  | command cmdline cerror => exact h.snoc.control (by rintro i ⟨⟩) hstep
  | act t =>
    cases t with
    | watcherspawn => exact h.snoc.spawned.control (by rintro i ⟨⟩) hstep
    | _ => exact h.snoc.control (by rintro i ⟨⟩) hstep
  | ringstart i => exact h.snoc.control (by rintro i ⟨⟩) hstep
  | ring i => exact h.snoc.control (by rintro i ⟨⟩) hstep
  | start i =>
    obtain ⟨s₁, hcontrol, hadvance⟩ := Option.bind_eq_some_iff.mp hstep
    obtain ⟨-, w, w', -, hf, rfl⟩ := step_advance hadvance
    split_ifs at hf
    obtain rfl := Option.some.inj hf
    exact (h.snoc.control (by rintro i ⟨⟩) hcontrol).set trivial Watchpc.noConfusion
  | load i ok =>
    obtain ⟨-, w, w', -, hf, rfl⟩ := step_advance hstep
    split_ifs at hf
    obtain rfl := Option.some.inj hf
    exact h.snoc.set (Watcher.loaded_sound w ok) fun hpc => absurd hpc (Watcher.loaded_ne_finish _ _)
  | read i list =>
    obtain ⟨-, w, -, -, hsound, rfl⟩ := step_read hok hstep
    exact h.snoc.set hsound fun hpc => absurd hpc (Watcher.reading_ne_finish _ _)
  | report i state error =>
    obtain ⟨-, w, n, hw, hpc, hcontrol⟩ := step_report hstep
    have hsound := h.sound i w hw
    rw [hpc] at hsound
    refine (h.snoc.set (Watcher.next_sound n) fun hfinish => ?_).control (by rintro j ⟨⟩) hcontrol
    cases n with
    | finish =>
      obtain ⟨rfl, hsome⟩ := hsound
      obtain ⟨r, rfl⟩ := Option.isSome_iff_exists.mp hsome
      exact ⟨r, List.mem_append_right _ (List.mem_singleton_self _)⟩
    | watch | fail => cases hfinish
  | finish i =>
    obtain ⟨s₁, hadvance, hcontrol⟩ := Option.bind_eq_some_iff.mp hstep
    obtain ⟨-, w, w', hw, hf, rfl⟩ := step_advance hadvance
    split_ifs at hf with hpc
    obtain rfl := Option.some.inj hf
    refine (h.snoc.set (by rw [hpc]; exact trivial) fun _ => ?_).control ?_ hcontrol
    · exact (h.finish i w hw hpc).snoc
    · rintro j ⟨⟩
      exact (h.finish i w hw hpc).snoc

/-! ## What the last status says -/

/-- The watcher whose state is being handled, and the one whose state the last status tells of,
if that is "running" or "ringing" and no command was taken since. -/
structure Shown where
  handling : Option Nat := none
  shown : Option Nat := none
  deriving DecidableEq, Repr

/-- What is known after one more event. -/
def Shown.after (g : Shown) : Event → Shown
  | .command _ _ => {}
  | .report i _ _ => { g with handling := some i }
  | .act (.out (some msg)) =>
    { g with shown := if Ctlproc.announces msg then g.handling else none }
  | _ => g

/-- What is known after a run. -/
def shown (es : List Event) : Shown := es.foldl Shown.after {}

theorem shown_snoc : shown (es ++ [e]) = (shown es).after e := by
  rw [shown, shown, List.foldl_append]
  rfl

/-- The watcher is alive, and not because it has yet to end. -/
def Watches (s : Watching) (i : Nat) : Prop :=
  s.ctl.Live i ∧ ∃ w, s.watchers[i]? = some w ∧ w.pc ≠ .finish

/-- Nothing is said of a watcher at work. -/
def Silent (todo : List Todo) : Prop := ∀ msg, .out (some msg) ∈ todo → Ctlproc.announces msg = false

/-- The last status and the message under way. -/
inductive Informed (g : Shown) (s : Watching) : Prop where
  /-- nobody is killed, and what is said is about watchers that are alive -/
  | watched : .watcherpost ∉ s.ctl.todo → .exitwatcher ∉ s.ctl.todo →
      (∀ msg, .out (some msg) ∈ s.ctl.todo → Ctlproc.announces msg = true →
        ∃ i, g.handling = some i ∧ s.Watches i) →
      (∀ i, g.shown = some i → s.Watches i) → Informed g s
  /-- no watcher is said to be at work -/
  | unshown : g.shown = none → Silent s.ctl.todo → Informed g s
  /-- a failure is being handled -/
  | failing : .out (some "off") ∈ s.ctl.todo → Silent s.ctl.todo → Informed g s

variable {g : Shown}

/-- Steps that leave the message under way alone and end no watcher. -/
theorem Informed.frame (h : Informed g s) (htodo : s'.ctl.todo = s.ctl.todo)
    (hwatches : ∀ i, s.Watches i → s'.Watches i) : Informed g s' := by
  cases h with
  | watched hpost hexit hout hshown =>
    refine .watched (htodo ▸ hpost) (htodo ▸ hexit) ?_ fun i hi => hwatches i (hshown i hi)
    rw [htodo]
    intro msg hmsg ha
    obtain ⟨i, hi, hwatch⟩ := hout msg hmsg ha
    exact ⟨i, hi, hwatches i hwatch⟩
  | unshown hnone hsilent => exact .unshown hnone (htodo ▸ hsilent)
  | failing hoff hsilent => exact .failing (htodo ▸ hoff) (htodo ▸ hsilent)

theorem Silent.tail {t : Todo} {todo : List Todo} (h : Silent (t :: todo)) : Silent todo :=
  fun msg hmsg => h msg (List.mem_cons_of_mem _ hmsg)

theorem Shown.after_act (g : Shown) (t : Todo) :
    (∃ msg, t = .out (some msg) ∧
      g.after (.act t) =
        { g with shown := if Ctlproc.announces msg then g.handling else none }) ∨
      g.after (.act t) = g := by
  cases t with
  | out msg =>
    cases msg with
    | some msg => exact Or.inl ⟨msg, rfl, rfl⟩
    | none => exact Or.inr rfl
  | _ => exact Or.inr rfl

/-- One action of `ctlproc`. -/
theorem Informed.act {t : Todo} {todo : List Todo} (h : Informed g s) (htodo : s.ctl.todo = t :: todo)
    (htodo' : s'.ctl.todo = todo)
    (hwatches : t ≠ .watcherpost → t ≠ .exitwatcher → ∀ i, s.Watches i → s'.Watches i) :
    Informed (g.after (.act t)) s' := by
  subst htodo'
  cases h with
  | watched hpost hexit hout hshown =>
    rw [htodo, List.mem_cons, not_or] at hpost hexit
    rw [htodo] at hout
    have hkept := hwatches (Ne.symm hpost.1) (Ne.symm hexit.1)
    have hrest : ∀ msg, .out (some msg) ∈ s'.ctl.todo → Ctlproc.announces msg = true →
        ∃ i, (g.after (.act t)).handling = some i ∧ s'.Watches i := by
      intro msg hmsg ha
      obtain ⟨i, hi, hwatch⟩ := hout msg (List.mem_cons_of_mem _ hmsg) ha
      refine ⟨i, ?_, hkept i hwatch⟩
      obtain ⟨msg, -, hafter⟩ | hafter := g.after_act t
      · rw [hafter]
        exact hi
      · rw [hafter]
        exact hi
    refine .watched hpost.2 hexit.2 hrest ?_
    intro i hi
    obtain ⟨msg, rfl, hafter⟩ | hafter := g.after_act t
    · -- the status that is put out is about the watcher whose state is handled
      rw [hafter] at hi
      dsimp only at hi
      split_ifs at hi with ha
      obtain ⟨j, hj, hwatch⟩ := hout msg List.mem_cons_self ha
      obtain rfl := Option.some.inj (hj.symm.trans hi)
      exact hkept j hwatch
    · rw [hafter] at hi
      exact hkept i (hshown i hi)
  | unshown hnone hsilent =>
    rw [htodo] at hsilent
    refine .unshown ?_ hsilent.tail
    obtain ⟨msg, rfl, hafter⟩ | hafter := g.after_act t
    · rw [hafter]
      dsimp only
      rw [hsilent msg List.mem_cons_self, if_neg Bool.false_ne_true]
    · rw [hafter, hnone]
  | failing hoff hsilent =>
    rw [htodo] at hoff hsilent
    rcases List.mem_cons.mp hoff with rfl | hoff
    · refine .unshown ?_ hsilent.tail
      rw [Shown.after, hsilent "off" List.mem_cons_self, if_neg Bool.false_ne_true]
    · exact .failing hoff hsilent.tail

/-- A command is taken: whatever was said is no longer counted. -/
theorem informed_command {cmdline : String} {cerror : Bool}
    (hstep : s.ctl.step (.command cmdline cerror) = some s'.ctl) : Informed {} s' := by
  obtain ⟨hr, hctl⟩ := Ctlproc.step_command hstep
  refine .unshown rfl ?_
  intro msg hmsg
  rw [hctl] at hmsg
  cases hc : Ctlproc.command cerror (Cmd.ofFields (unquoted cmdline)) with
  | none =>
    rw [hc, Ctlproc.take, hr.1] at hmsg
    cases hmsg
  | some todo =>
    rw [hc] at hmsg
    exact Ctlproc.not_announces_command hc hmsg

/-- A state is taken from a watcher that is alive, or fails. -/
theorem Informed.report {state : Int} (h : Informed g s) (hready : s.ctl.todo = [])
    (htodo : s'.ctl.todo = s.ctl.watcherstate state)
    (hwatches : state ≠ -1 → ∀ j, s.Watches j → s'.Watches j) (hi : s.Watches i) :
    Informed { g with handling := some i } s' := by
  have hshown : ∀ j, g.shown = some j → s.Watches j := by
    intro j hj
    cases h with
    | watched _ _ _ hshown => exact hshown j hj
    | unshown hnone _ =>
      rw [hnone] at hj
      cases hj
    | failing hoff _ =>
      rw [hready] at hoff
      cases hoff
  by_cases hfail : state = -1
  · subst hfail
    refine .failing ?_ ?_
    · rw [htodo]
      simp [Ctlproc.watcherstate, Ctlproc.watcherKill, Ctlproc.ringprocKill, Ctlproc.status]
    · rw [htodo]
      intro msg hmsg
      by_contra ha
      exact Ctlproc.ne_failure_of_announces hmsg (Bool.not_eq_false _ ▸ ha) rfl
  · have hkill : .watcherpost ∉ s'.ctl.todo ∧ .exitwatcher ∉ s'.ctl.todo := by
      rw [htodo, Ctlproc.watcherstate, if_neg hfail]
      constructor
      all_goals
        split_ifs <;> simp [Ctlproc.ringprocKill, Ctlproc.status]
    refine .watched hkill.1 hkill.2 (fun msg _ _ => ⟨i, rfl, hwatches hfail i hi⟩) ?_
    exact fun j hj => hwatches hfail j (hshown j hj)

/-- Control steps that kill no watcher. -/
theorem Watches.control {e' : Ctlproc.Event} (h : s.Watches i)
    (hkill : e' ≠ .act .watcherpost ∧ e' ≠ .act .exitwatcher) (hend : e' ≠ .watcherend i)
    (hstep : s.control e' = some s') : s'.Watches i := by
  obtain ⟨hctl, hwatchers⟩ := step_control hstep
  refine ⟨Ctlproc.live_step h.1 hkill hend hctl, ?_⟩
  rw [hwatchers]
  exact h.2

/-- The program of one watcher moves, but not to its end. -/
theorem Watches.set (h : s.Watches i) (hpc : w.pc ≠ .finish) :
    Watches { s with watchers := s.watchers.set j w } i := by
  obtain ⟨hlive, w', hw', hpc'⟩ := h
  refine ⟨hlive, ?_⟩
  by_cases hij : j = i
  · subst hij
    exact ⟨w, List.getElem?_set_self (List.getElem?_eq_some_iff.mp hw').1, hpc⟩
  · exact ⟨w', (List.getElem?_set_ne hij).trans hw', hpc'⟩

theorem Watches.spawned (h : s.Watches i) : s.spawned.Watches i := by
  obtain ⟨hlive, w, hw, hpc⟩ := h
  exact ⟨hlive, w, (List.getElem?_append_left (List.getElem?_eq_some_iff.mp hw).1).trans hw, hpc⟩

theorem control_todo {e' : Ctlproc.Event} (hcmd : ∀ c r, e' ≠ .command c r)
    (hrep : ∀ i st, e' ≠ .report i st) (hact : ∀ t, e' ≠ .act t) (h : s.control e' = some s') :
    s'.ctl.todo = s.ctl.todo := by
  have hctl := (step_control h).1
  cases e' with
  | command c r => exact absurd rfl (hcmd c r)
  | report i st => exact absurd rfl (hrep i st)
  | act t => exact absurd rfl (hact t)
  | watcherstart i =>
    rw [(Ctlproc.step_watcherstart hctl).2]
  | watcherend i =>
    rw [(Ctlproc.step_watcherend hctl).2]
  | ringstart i =>
    rw [(Ctlproc.step_ringstart hctl).2]
  | ring i =>
    rw [Ctlproc.step_ring hctl]

/-- A state is taken, and its watcher goes on or has failed. -/
theorem informed_report {state : Int} {error : Option String} (h : Informed g s)
    (hcandid : Candid es s) (hstep : s.step (.report i state error) = some s') :
    Informed { g with handling := some i } s' := by
  obtain ⟨hrunning, w, n, hw, hpc, hcontrol⟩ := step_report hstep
  obtain ⟨hready, -, hctl⟩ := Ctlproc.step_report (step_control hcontrol).1
  have htodo : s'.ctl.todo = s.ctl.watcherstate state := by rw [hctl]
  have hsound := hcandid.sound i w hw
  rw [hpc] at hsound
  have hself : s.Watches i := by
    refine ⟨⟨_, hrunning, rfl⟩, w, hw, ?_⟩
    rw [hpc]
    exact Watchpc.noConfusion
  refine h.report hready.1 htodo ?_ hself
  intro hstate j hj
  have hn : n = .watch := by
    cases n with
    | watch => rfl
    | fail | finish => exact absurd hsound.1 hstate
  subst hn
  exact (hj.set Watchpc.noConfusion).control ⟨Ctlproc.Event.noConfusion, Ctlproc.Event.noConfusion⟩
    Ctlproc.Event.noConfusion hcontrol

/-- One step: what is said stays true. -/
theorem step_informed (h : Informed g s) (hcandid : Candid es s) (hok : s.Readable e)
    (hstep : s.step e = some s') : Informed (g.after e) s' := by
  cases e with
  | command cmdline cerror => exact informed_command (step_control hstep).1
  | act t =>
    obtain ⟨hctl, -⟩ := step_act hstep
    obtain ⟨todo, htodo, htodo'⟩ := Ctlproc.step_act hctl
    refine h.act htodo (by rw [htodo', Ctlproc.perform_todo]) ?_
    intro hpost hexit i hi
    have hkill : Ctlproc.Event.act t ≠ .act .watcherpost ∧ Ctlproc.Event.act t ≠ .act .exitwatcher :=
      ⟨fun heq => hpost (Ctlproc.Event.act.inj heq), fun heq => hexit (Ctlproc.Event.act.inj heq)⟩
    cases t with
    | watcherspawn => exact hi.spawned.control hkill Ctlproc.Event.noConfusion hstep
    | _ => exact hi.control hkill Ctlproc.Event.noConfusion hstep
  | ringstart j | ring j =>
    refine h.frame (control_todo ?_ ?_ ?_ hstep) fun i hi => hi.control ?_ ?_ hstep
    all_goals simp
  | start j =>
    obtain ⟨s₁, hcontrol, hadvance⟩ := Option.bind_eq_some_iff.mp hstep
    obtain ⟨-, w, w', -, hf, rfl⟩ := step_advance hadvance
    split_ifs at hf
    obtain rfl := Option.some.inj hf
    have htodo := control_todo (by simp) (by simp) (by simp) hcontrol
    refine h.frame htodo ?_
    intro i hi
    exact (hi.control (by simp) (by simp) hcontrol).set Watchpc.noConfusion
  | load j ok =>
    obtain ⟨-, w, w', -, hf, rfl⟩ := step_advance hstep
    split_ifs at hf
    obtain rfl := Option.some.inj hf
    exact h.frame rfl fun i hi => hi.set (Watcher.loaded_ne_finish _ _)
  | read j list =>
    obtain ⟨-, w, -, -, -, rfl⟩ := step_read hok hstep
    exact h.frame rfl fun i hi => hi.set (Watcher.reading_ne_finish _ _)
  | report j state error => exact informed_report h hcandid hstep
  | finish j =>
    obtain ⟨s₁, hadvance, hcontrol⟩ := Option.bind_eq_some_iff.mp hstep
    obtain ⟨-, w, w', hw, hf, rfl⟩ := step_advance hadvance
    split_ifs at hf with hpc
    obtain rfl := Option.some.inj hf
    have htodo := control_todo (by simp) (by simp) (by simp) hcontrol
    refine h.frame htodo ?_
    intro i hi
    -- the watcher that ends is not one of those that are said to be at work
    have hij : j ≠ i := by
      rintro rfl
      obtain ⟨-, w', hw', hpc'⟩ := hi
      obtain rfl := Option.some.inj (hw.symm.trans hw')
      exact hpc' hpc
    obtain ⟨hlive, w', hw', hpc'⟩ := hi
    have hkept : Watches { s with watchers := s.watchers.set j w } i :=
      ⟨hlive, w', (List.getElem?_set_ne hij).trans hw', hpc'⟩
    exact hkept.control (by simp) (by simpa using hij) hcontrol

/-- The watcher is about to tell that it can no longer watch. -/
def Fails (s : Watching) (i : Nat) (reason : String) : Prop :=
  s.ctl.watchers[i]? = some .running ∧
    ∃ w n, s.watchers[i]? = some w ∧ w.pc = .send (-1) (some reason) n

/-- Nothing happens to such a watcher but that it tells, or is killed. -/
theorem Fails.step {reason : String} (h : s.Fails i reason) (hstep : s.step e = some s') :
    s'.Fails i reason ∨ e = .report i (-1) (some reason) ∨
      s'.ctl.watchers[i]? = some .killed := by
  obtain ⟨hrunning, w, n, hw, hpc⟩ := h
  -- its program only moves on when the state is taken
  have hstays : ∀ {s₁ s₂ : Watching} {e' : Ctlproc.Event}, s₁.control e' = some s₂ →
      e' ≠ .watcherend i → s₁.ctl.watchers[i]? = some .running →
      (∃ w n, s₁.watchers[i]? = some w ∧ w.pc = .send (-1) (some reason) n) →
      s₂.Fails i reason ∨ s₂.ctl.watchers[i]? = some .killed := by
    intro s₁ s₂ e' hcontrol hend hrunning hprogram
    obtain ⟨hctl, hwatchers⟩ := step_control hcontrol
    rcases Ctlproc.watcher_step hctl hrunning with hp | ⟨-, hp⟩ | ⟨-, hp⟩ | ⟨rfl, -⟩
    · exact Or.inl ⟨hp, hwatchers ▸ hprogram⟩
    · exact Or.inr hp
    · exact Or.inl ⟨hp, hwatchers ▸ hprogram⟩
    · exact absurd rfl hend
  -- the programs of the others do not matter
  have hother : ∀ {j : Nat} {f : Watcher → Option Watcher} {s₁ : Watching},
      s.advance j f = some s₁ → j ≠ i → s₁.ctl = s.ctl ∧
        ∃ w n, s₁.watchers[i]? = some w ∧ w.pc = .send (-1) (some reason) n := by
    intro j f s₁ hadvance hij
    obtain ⟨-, _, _, -, -, rfl⟩ := step_advance hadvance
    exact ⟨rfl, w, n, (List.getElem?_set_ne hij).trans hw, hpc⟩
  have hne : ∀ {j : Nat} {pc : Watchpc} {f : Watcher → Watcher} {s₁ : Watching},
      s.advance j (fun w => if w.pc = pc then some (f w) else none) = some s₁ →
      pc ≠ .send (-1) (some reason) n → j ≠ i := by
    rintro j pc f s₁ hadvance hpc' rfl
    obtain ⟨-, w', _, hw', hf, -⟩ := step_advance hadvance
    obtain rfl := Option.some.inj (hw.symm.trans hw')
    rw [if_neg fun heq => hpc' (heq.symm.trans hpc)] at hf
    cases hf
  cases e with
  | command cmdline cerror =>
    exact (hstays hstep (by rintro ⟨⟩) hrunning ⟨w, n, hw, hpc⟩).imp_right Or.inr
  | act t =>
    cases t with
    | watcherspawn =>
      have hw' : s.spawned.watchers[i]? = some w :=
        (List.getElem?_append_left (List.getElem?_eq_some_iff.mp hw).1).trans hw
      have hcontrol : s.spawned.control (.act .watcherspawn) = some s' := hstep
      exact (hstays hcontrol (by rintro ⟨⟩) hrunning ⟨w, n, hw', hpc⟩).imp_right Or.inr
    | _ => exact (hstays hstep (by rintro ⟨⟩) hrunning ⟨w, n, hw, hpc⟩).imp_right Or.inr
  | ringstart j | ring j =>
    exact (hstays hstep (by rintro ⟨⟩) hrunning ⟨w, n, hw, hpc⟩).imp_right Or.inr
  | start j =>
    obtain ⟨s₁, hcontrol, hadvance⟩ := Option.bind_eq_some_iff.mp hstep
    have hij : j ≠ i := by
      rintro rfl
      have hfresh := (Ctlproc.step_watcherstart (step_control hcontrol).1).1
      rw [hrunning] at hfresh
      cases hfresh
    obtain ⟨-, _, _, -, -, rfl⟩ := step_advance hadvance
    rcases hstays hcontrol (by rintro ⟨⟩) hrunning ⟨w, n, hw, hpc⟩ with hfails | hkilled
    · obtain ⟨hrunning₁, w₁, n₁, hw₁, hpc₁⟩ := hfails
      exact Or.inl ⟨hrunning₁, w₁, n₁, (List.getElem?_set_ne hij).trans hw₁, hpc₁⟩
    · exact Or.inr (Or.inr hkilled)
  | load j ok =>
    have hij := hne hstep Watchpc.noConfusion
    obtain ⟨hctl, hprogram⟩ := hother hstep hij
    exact Or.inl ⟨hctl ▸ hrunning, hprogram⟩
  | read j list =>
    obtain ⟨s₁, hadvance, hbroken⟩ := Option.bind_eq_some_iff.mp hstep
    have hij := hne hadvance Watchpc.noConfusion
    obtain ⟨hctl, hprogram⟩ := hother hadvance hij
    split_ifs at hbroken
    · refine (hstays hbroken ?_ (hctl ▸ hrunning) hprogram).imp_right Or.inr
      exact fun heq => hij (Ctlproc.Event.watcherend.inj heq)
    · obtain rfl := Option.some.inj hbroken
      exact Or.inl ⟨hctl ▸ hrunning, hprogram⟩
  | report j state error =>
    by_cases hij : j = i
    · subst hij
      obtain ⟨-, w', n', hw', hpc', -⟩ := step_report hstep
      obtain rfl := Option.some.inj (hw.symm.trans hw')
      obtain ⟨rfl, rfl, -⟩ := Watchpc.send.inj (hpc.symm.trans hpc')
      exact Or.inr (Or.inl rfl)
    · obtain ⟨s₁, hadvance, hcontrol⟩ := Option.bind_eq_some_iff.mp hstep
      obtain ⟨hctl, hprogram⟩ := hother hadvance hij
      exact (hstays hcontrol (by rintro ⟨⟩) (hctl ▸ hrunning) hprogram).imp_right Or.inr
  | finish j =>
    obtain ⟨s₁, hadvance, hcontrol⟩ := Option.bind_eq_some_iff.mp hstep
    have hij := hne (f := fun w => w) hadvance Watchpc.noConfusion
    obtain ⟨hctl, hprogram⟩ := hother hadvance hij
    refine (hstays hcontrol ?_ (hctl ▸ hrunning) hprogram).imp_right Or.inr
    exact fun heq => hij (Ctlproc.Event.watcherend.inj heq)

/-- `ctlproc` can take the failure between two messages, and then it will put "off" out. -/
theorem Fails.delivered {reason : String} (h : s.Fails i reason) (hready : s.ctl.Ready) :
    ∃ s', s.step (.report i (-1) (some reason)) = some s' ∧ .out (some "off") ∈ s'.ctl.todo := by
  obtain ⟨hrunning, w, n, hw, hpc⟩ := h
  refine ⟨{ ctl := { s.ctl with todo := s.ctl.watcherstate (-1) },
            watchers := s.watchers.set i { w with pc := Watcher.next n } }, ?_, ?_⟩
  · simp only [Watching.step, advance, hrunning, if_true, hw, Option.bind_some, hpc, and_self,
      Option.map_some, control, Ctlproc.step, hready, Ctlproc.take]
  · simp [Ctlproc.watcherstate, Ctlproc.watcherKill, Ctlproc.ringprocKill, Ctlproc.status]

/-- In every run in which the lists that are read have five fields or more in every line:
the watcher whose state the last status tells of, no command having been taken since, is alive,
or a failure is just being handled and "off" is about to be put out. A watcher ends only after
it has sent -1 with a reason. One that cannot open the list is about to send that, and one that
has read it goes on; nothing but a kill keeps the failure from being delivered, and when it is
delivered the status becomes "off". -/
theorem no_silent_death (h : Run (Guarded Readable (StepOf step)) {} es s) :
    (∀ i, (shown es).shown = some i → s.ctl.Live i ∨ .out (some "off") ∈ s.ctl.todo) ∧
      (∀ i, s.ctl.watchers[i]? = some .ended → Reported es i) ∧
      (∀ i r s', s.step (.read i (.error r)) = some s' →
        s'.Fails i ("error opening /mnt/aims/rotc/serverlist/v1/wait: " ++ r)) ∧
      (∀ i lines s', (∀ line ∈ lines, 5 ≤ (tokenize line).length) →
        s.step (.read i (.ok lines)) = some s' → s'.Watches i) ∧
      ∀ i r, s.Fails i r →
        (∀ e s', s.step e = some s' → s'.Fails i r ∨ e = .report i (-1) (some r) ∨
          s'.ctl.watchers[i]? = some .killed) ∧
        (s.ctl.Ready → ∃ s', s.step (.report i (-1) (some r)) = some s' ∧
          .out (some "off") ∈ s'.ctl.todo) := by
  have hinv : Candid es s ∧ Informed (shown es) s := by
    refine h.traced (J := fun es s => Candid es s ∧ Informed (shown es) s) ⟨?_, ?_⟩ ?_
    · refine ⟨?_, ?_, ?_⟩
      · rintro i w ⟨⟩
      · rintro i w ⟨⟩
      · rintro i ⟨⟩
    · refine .unshown rfl ?_
      rintro msg ⟨⟩
    · rintro es s e s' ⟨hcandid, hinformed⟩ ⟨hok, hstep⟩
      rw [shown_snoc]
      exact ⟨step_candid hcandid hok hstep, step_informed hinformed hcandid hok hstep⟩
  refine ⟨?_, hinv.1.ended, ?_, ?_, ?_⟩
  · intro i hi
    cases hinv.2 with
    | watched _ _ _ hshown => exact Or.inl (hshown i hi).1
    | unshown hnone _ =>
      rw [hnone] at hi
      cases hi
    | failing hoff _ => exact Or.inr hoff
  · intro i r s' hstep
    have hok : s.Readable (.read i (.error r)) := trivial
    obtain ⟨hrunning, w, hw, -, -, rfl⟩ := step_read hok hstep
    exact ⟨hrunning, _, .fail, List.getElem?_set_self (List.getElem?_eq_some_iff.mp hw).1, rfl⟩
  · intro i lines s' hlines hstep
    have hok : s.Readable (.read i (.ok lines)) := hlines
    obtain ⟨hrunning, w, hw, -, -, rfl⟩ := step_read hok hstep
    exact ⟨⟨_, hrunning, rfl⟩, _, List.getElem?_set_self (List.getElem?_eq_some_iff.mp hw).1,
      Watcher.reading_ne_finish w (.ok lines)⟩
  · intro i r hfails
    exact ⟨fun e s' hstep => hfails.step hstep, hfails.delivered⟩

/-- The steps from the command `on rotc-eth -a 3` to the status "running". -/
def runningSteps : List Event :=
  .command "on rotc-eth -a 3" true ::
    (Ctlproc.watcherSpawn "rotc-eth" ["-a", "3"] ++ [Todo.reply none]).map .act ++
    [.start 0, .load 0 true, .report 0 0 none] ++
    (Ctlproc.ringprocKill ++ Ctlproc.status "running rotc-eth -a 3").map .act

/-- The watcher finds a server with four players, and the alert rings. -/
theorem no_silent_death_ringing :
    ∃ s, Run (Guarded Readable (StepOf step)) {}
        (runningSteps ++ [.read 0 (.ok ["4 x ETH 28000 EU2 -\n"]), .report 0 1 none] ++
          (.ringspawn :: Ctlproc.status "ringing rotc-eth -a 3").map .act) s ∧ s.ctl.Live 0 := by
  obtain ⟨s, hrun, htodo⟩ : ∃ s, Run (Guarded Readable (StepOf step)) {}
      (runningSteps ++ [.read 0 (.ok ["4 x ETH 28000 EU2 -\n"]), .report 0 1 none] ++
        (.ringspawn :: Ctlproc.status "ringing rotc-eth -a 3").map .act) s ∧ s.ctl.todo = [] :=
    Run.exists_of_execGuarded (by decide +kernel)
  refine ⟨s, hrun, ((no_silent_death hrun).1 0 (by decide +kernel)).resolve_right ?_⟩
  rw [htodo]
  exact List.not_mem_nil

/-- The watcher meets a line with four fields: it is gone, and the alert is still "running". -/
theorem short_line_kills_silently :
    ∃ s, Run (StepOf step) {} (runningSteps ++ [.read 0 (.ok ["4 x ETH 28000\n"])]) s ∧
      s.ctl.Ready ∧ (shown (runningSteps ++ [.read 0 (.ok ["4 x ETH 28000\n"])])).shown = some 0 ∧
      ¬ s.ctl.Live 0 := by
  obtain ⟨s, hrun, hready, hended⟩ : ∃ s,
      Run (StepOf step) {} (runningSteps ++ [.read 0 (.ok ["4 x ETH 28000\n"])]) s ∧
      s.ctl.Ready ∧ s.ctl.watchers[0]? = some .ended :=
    Run.exists_of_exec (by decide +kernel)
  refine ⟨s, hrun, hready, by decide +kernel, ?_⟩
  rintro ⟨p, hp, hlive⟩
  rw [hended] at hp
  obtain rfl := Option.some.inj hp
  cases hlive

end Watching

end Aimsgui
