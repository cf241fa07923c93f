import Aimsgui.AlertWatchers

/-!
# At most one ring process

`ringproc` publishes its own pid, in its first step, like a watcher does, and `ringproc_kill`
kills the process of that pid. A ring process that has not taken its first step survives the
message that should end it, and a second state 1 spawns another one beside the first, whose
pid is then lost. `RingFound` is the condition that rules both out. Under it there is, between
two messages, one ring process if the last `on`, `off` or state was a state 1, and none
otherwise (`rings_follow`).
-/

namespace Aimsgui

open Transition

namespace Ctlproc

/-- A message more: a state 1 asks for a ring process, the other states and `on` and `off` for
none. -/
def ringAfter (b : Bool) : Event → Bool
  | .command cmdline _ =>
    match Cmd.ofFields (unquoted cmdline) with
    | .on _ _ | .off => false
    | _ => b
  | .report _ state => decide (state = 1)
  | _ => b

/-- Whether the last one among the `on` and `off` commands and the states was a state 1. -/
def ringAsked (es : List Event) : Bool := es.foldl ringAfter false

/-- The number of ring processes that were spawned, were not killed and have not ended. -/
def rung (s : Ctlproc) : Nat := s.rings.countP Proc.live

/-- `ringproc_kill` looks for the pid only after every ring process has published its own, and
no state other than -1 and 0 is taken while a process rings. -/
def RingFound (s : Ctlproc) : Event → Prop
  | .act .ringpost => Proc.fresh ∉ s.rings
  | .report _ state => state = -1 ∨ state = 0 ∨ s.rung = 0
  | _ => True

instance (s : Ctlproc) (e : Event) : Decidable (s.RingFound e) :=
  match e with
  | .act .ringpost => inferInstanceAs (Decidable (¬ Proc.fresh ∈ s.rings))
  | .report _ state => inferInstanceAs (Decidable (state = -1 ∨ state = 0 ∨ s.rung = 0))
  | .command .. | .watcherstart _ | .watcherend _ | .ringstart _ | .ring _ => isTrue trivial
  | .act (.reply _) | .act (.registry _) | .act (.out _) | .act .ringclear | .act .ringspawn
  | .act .watcherpost | .act .watcherclear | .act (.watcherset ..) | .act .watcherspawn
  | .act (.note _) | .act .exitwatcher | .act .exitring | .act .exit => isTrue trivial

/-! ## The invariant -/

/-- The actions that the ring processes depend on. -/
def ringstage : Todo → Option Stage
  | .ringpost => some .post
  | .ringclear => some .clear
  | .ringspawn => some .spawn
  | _ => none

/-- Those of the message under way. -/
def ringpending (s : Ctlproc) : List Stage := s.todo.filterMap ringstage

/-- `ringpid` is the pid of the ring process that runs. -/
def Ringpid (s : Ctlproc) : Prop := ∀ i, s.rings[i]? = some .running → s.ringpid = some i

/-- There are as many ring processes as the messages ask for, up to what is pending. -/
inductive Rung (want : Bool) (s : Ctlproc) : List Stage → Prop where
  | settled : s.rung = (if want then 1 else 0) → s.Ringpid → Rung want s []
  /-- the process that rings is about to be killed -/
  | killing : want = false → s.rung ≤ 1 → s.Ringpid → Rung want s [.post, .clear]
  | killed : want = false → s.rung = 0 → Rung want s [.clear]
  | spawning : want = true → s.rung = 0 → Rung want s [.spawn]

/-- An `exit` is being handled, or was. -/
def Exiting (s : Ctlproc) : Prop := s.gone = true ∨ .exit ∈ s.todo

section Steps

variable {want : Bool} {s s' : Ctlproc} {es : List Event} {e : Event} {l : List Stage}

/-- `Rung` depends only on the ring processes and on `ringpid`. -/
theorem Rung.frame (h : Rung want s l) (hr : s'.rings = s.rings) (hpid : s'.ringpid = s.ringpid) :
    Rung want s' l := by
  have hrung : s'.rung = s.rung := by rw [rung, rung, hr]
  have hpids : s.Ringpid → s'.Ringpid := by
    intro hp i hi
    rw [hr] at hi
    rw [hpid, hp i hi]
  cases h with
  | settled hc hp => exact .settled (hrung.trans hc) (hpids hp)
  | killing hw hc hp => exact .killing hw (hrung.trans_le hc) (hpids hp)
  | killed hw hc => exact .killed hw (hrung.trans hc)
  | spawning hw hc => exact .spawning hw (hrung.trans hc)

/-- Where no process is live, none runs. -/
theorem ringpid_of_rung (h : s.rung = 0) : s.Ringpid := by
  intro i hi
  exact absurd rfl (List.countP_eq_zero.mp h _ (List.mem_of_getElem? hi))

theorem Rung.of_nil (h : Rung want s []) : s.rung = (if want then 1 else 0) ∧ s.Ringpid := by
  cases h with
  | settled hc hp => exact ⟨hc, hp⟩

/-- At most one process is live: any two live ones are the same. -/
theorem eq_of_countP_le_one {procs : List Proc} {i j : Nat} {p q : Proc}
    (h : procs.countP Proc.live ≤ 1) (hi : procs[i]? = some p) (hp : p.live = true)
    (hj : procs[j]? = some q) (hq : q.live = true) : i = j := by
  by_contra hij
  obtain ⟨hlt, hget⟩ := List.getElem?_eq_some_iff.mp hi
  have hcount := List.countP_set (p := Proc.live) (a := .killed) hlt
  rw [hget, if_pos hp] at hcount
  have hzero : (procs.set i .killed).countP Proc.live = 0 := by
    rw [hcount]
    simp only [Proc.live, Bool.false_eq_true, if_false]
    omega
  have hmem : q ∈ procs.set i .killed :=
    List.mem_of_getElem? ((List.getElem?_set_ne hij).trans hj)
  exact List.countP_eq_zero.mp hzero q hmem hq

/-- `ringproc_kill` has posted its kill: no process is live, since each had published its pid. -/
theorem Rung.post {rest : List Stage} (h : Rung want s (.post :: rest))
    (hfresh : Proc.fresh ∉ s.rings) :
    Rung want { s with rings := postnote s.rings s.ringpid } rest := by
  cases h with
  | killing hw hc hp =>
    refine .killed hw (List.countP_eq_zero.mpr ?_)
    intro p hmem hlive
    obtain ⟨i, hi⟩ := List.mem_iff_getElem?.mp hmem
    obtain ⟨hget, hne⟩ := getElem?_postnote hi hlive
    cases p with
    | fresh => exact hfresh (List.mem_of_getElem? hget)
    | running => exact hne (hp i hget)
    | ended | killed => cases hlive

theorem Rung.clear {rest : List Stage} (h : Rung want s (.clear :: rest)) :
    Rung want { s with ringpid := none } rest := by
  cases h with
  | killed hw hc =>
    subst hw
    exact .settled hc (ringpid_of_rung hc)

theorem Rung.spawn {rest : List Stage} (h : Rung want s (.spawn :: rest)) :
    Rung want { s with rings := s.rings ++ [.fresh] } rest := by
  cases h with
  | spawning hw hc =>
    subst hw
    refine .settled ?_ ?_
    · change (s.rings ++ [Proc.fresh]).countP Proc.live = 1
      rw [List.countP_append]
      exact congrArg (· + 1) hc
    · intro i hi
      have hmem := List.mem_of_getElem? hi
      rw [List.mem_append, List.mem_singleton] at hmem
      rcases hmem with hmem | hfresh
      · exact absurd rfl (List.countP_eq_zero.mp hc _ hmem)
      · cases hfresh

/-- The first step of a ring process. -/
theorem Rung.start {i : Nat} (h : Rung want s l) (hi : s.rings[i]? = some .fresh) :
    Rung want { s with rings := s.rings.set i .running, ringpid := some i } l := by
  obtain ⟨hlt, hget⟩ := List.getElem?_eq_some_iff.mp hi
  have hrung : (s.rings.set i .running).countP Proc.live = s.rung := by
    have hpos : 0 < s.rings.countP Proc.live :=
      List.countP_pos_iff.mpr ⟨_, List.mem_of_getElem? hi, rfl⟩
    rw [List.countP_set hlt, hget]
    simp only [Proc.live, if_true, rung]
    omega
  have hpids : s.rung ≤ 1 →
      Ringpid { s with rings := s.rings.set i .running, ringpid := some i } := by
    intro hc j hj
    have hset : (s.rings.set i .running).countP Proc.live ≤ 1 := hrung.trans_le hc
    have hself : (s.rings.set i .running)[i]? = some .running := List.getElem?_set_self hlt
    exact congrArg some (eq_of_countP_le_one hset hself rfl hj rfl)
  cases h with
  | settled hc hp =>
    refine .settled (hrung.trans hc) (hpids ?_)
    rw [hc]
    split <;> omega
  | killing hw hc hp => exact .killing hw (hrung.trans_le hc) (hpids hc)
  | killed hw hc => exact .killed hw (hrung.trans hc)
  | spawning hw hc => exact .spawning hw (hrung.trans hc)

/-- One action of `ctlproc`. -/
theorem Rung.act {t : Todo} {todo : List Todo} (h : Rung want s s.ringpending)
    (htodo : s.todo = t :: todo) (hok : s.RingFound (.act t)) (hexit : t ≠ .exitring) :
    Rung want ({ s with todo := todo }.perform t)
      ({ s with todo := todo }.perform t).ringpending := by
  rw [ringpending, htodo] at h
  rw [ringpending, perform_todo]
  cases t
  case ringpost => exact (h.post hok).frame rfl rfl
  case ringclear => exact h.clear.frame rfl rfl
  case ringspawn => exact h.spawn.frame rfl rfl
  case exitring => exact absurd rfl hexit
  all_goals exact h.frame rfl rfl

/-- A message is taken: what is pending is what the message asks for. -/
theorem Rung.take {want' : Bool} {todo : List Todo} (h : Rung want s [])
    (hd : todo.filterMap ringstage = [] ∧ want' = want ∨
      todo.filterMap ringstage = [.post, .clear] ∧ want' = false ∨
      todo.filterMap ringstage = [.spawn] ∧ want' = true ∧ s.rung = 0) :
    Rung want' { s with todo := todo } (ringpending { s with todo := todo }) := by
  obtain ⟨hc, hp⟩ := h.of_nil
  rw [ringpending]
  rcases hd with ⟨hnil, rfl⟩ | ⟨hkill, rfl⟩ | ⟨hspawn, rfl, hzero⟩
  · rw [hnil]
    exact h.frame rfl rfl
  · rw [hkill]
    refine .killing rfl (hc.trans_le ?_) hp
    split <;> omega
  · rw [hspawn]
    exact .spawning rfl hzero

theorem filterMap_ringstage_answer (cerror : Bool) (e : Option String) :
    (answer cerror e).filterMap ringstage = [] := by
  cases cerror <;> rfl

theorem ringAsked_snoc : ringAsked (es ++ [e]) = ringAfter (ringAsked es) e := by
  rw [ringAsked, List.foldl_append]
  rfl

/-- A command is taken. -/
theorem Rung.command {cmdline : String} {cerror : Bool} (h : Rung want s []) :
    (s.take (Ctlproc.command cerror (Cmd.ofFields (unquoted cmdline)))).Exiting ∨
      .exitring ∉ (s.take (Ctlproc.command cerror (Cmd.ofFields (unquoted cmdline)))).todo ∧
      Rung (ringAfter want (.command cmdline cerror))
        (s.take (Ctlproc.command cerror (Cmd.ofFields (unquoted cmdline))))
        (s.take (Ctlproc.command cerror (Cmd.ofFields (unquoted cmdline)))).ringpending := by
  have hanswer : ∀ e, Todo.exitring ∉ answer cerror e := by
    intro e
    cases cerror <;> simp [answer]
  rw [ringAfter]
  cases Cmd.ofFields (unquoted cmdline) with
  | exit => exact Or.inl (Or.inr (List.mem_append_right _ (by simp)))
  | on wtype wargs =>
    refine Or.inr ⟨?_, h.take (Or.inr (Or.inl ⟨?_, rfl⟩))⟩
    · simp [Ctlproc.take, Ctlproc.command, hanswer, watcherSpawn, watcherKill, ringprocKill]
    · rw [List.filterMap_append, filterMap_ringstage_answer]
      rfl
  | off =>
    refine Or.inr ⟨?_, h.take (Or.inr (Or.inl ⟨?_, rfl⟩))⟩
    · simp [Ctlproc.take, Ctlproc.command, hanswer, watcherKill, ringprocKill, status]
    · rw [List.filterMap_append, filterMap_ringstage_answer]
      rfl
  | pname name =>
    refine Or.inr ⟨?_, h.take (Or.inl ⟨?_, rfl⟩)⟩
    · simp [Ctlproc.take, Ctlproc.command, hanswer]
    · rw [List.filterMap_append, filterMap_ringstage_answer]
      rfl
  | invalid => exact Or.inr ⟨hanswer _, h.take (Or.inl ⟨filterMap_ringstage_answer .., rfl⟩)⟩
  | broken => exact Or.inl (Or.inl rfl)

/-- A watcher's state is taken. -/
theorem Rung.report {i : Nat} {state : Int} (h : Rung want s [])
    (hok : s.RingFound (.report i state)) :
    .exitring ∉ s.watcherstate state ∧
      Rung (ringAfter want (.report i state)) { s with todo := s.watcherstate state }
        (ringpending { s with todo := s.watcherstate state }) := by
  rw [ringAfter, watcherstate]
  by_cases hfail : state = -1
  · subst hfail
    refine ⟨?_, h.take (Or.inr (Or.inl ⟨rfl, rfl⟩))⟩
    simp [watcherKill, ringprocKill, status]
  · by_cases hrunning : state = 0
    · subst hrunning
      refine ⟨?_, h.take (Or.inr (Or.inl ⟨rfl, rfl⟩))⟩
      simp [ringprocKill, status]
    · have hzero : s.rung = 0 := (hok.resolve_left hfail).resolve_left hrunning
      rw [if_neg hfail, if_neg hrunning]
      by_cases hringing : state = 1
      · subst hringing
        refine ⟨?_, h.take (Or.inr (Or.inr ⟨rfl, rfl, hzero⟩))⟩
        simp [status]
      · rw [if_neg hringing, decide_eq_false hringing]
        refine ⟨List.not_mem_nil, .settled hzero (ringpid_of_rung hzero)⟩

/-- What holds at every moment: an `exit` is under way, or the ring processes are what the
messages ask for. -/
def Ruled (want : Bool) (s : Ctlproc) : Prop :=
  s.Exiting ∨ .exitring ∉ s.todo ∧ Rung want s s.ringpending

/-- An `exit` takes no further message, and ends the process. -/
theorem step_exiting (h : s.Exiting) (hstep : Step s e s') : s'.Exiting := by
  have hbusy : ¬ s.Ready := by
    rintro ⟨htodo, hgone⟩
    rcases h with h | h
    · rw [hgone] at h
      cases h
    · rw [htodo] at h
      cases h
  cases e with
  | command cmdline cerror => exact absurd (step_command hstep).1 hbusy
  | report i state => exact absurd (step_report hstep).1 hbusy
  | act t =>
    obtain ⟨todo, htodo, rfl⟩ := step_act hstep
    rcases h with h | h
    · left
      cases t <;> first | exact h | rfl
    · rw [htodo, List.mem_cons] at h
      rcases h with rfl | h
      · exact Or.inl rfl
      · right
        rw [perform_todo]
        exact h
  | watcherstart i =>
    obtain ⟨-, rfl⟩ := step_watcherstart hstep
    exact h
  | watcherend i =>
    obtain ⟨-, rfl⟩ := step_watcherend hstep
    exact h
  | ringstart i =>
    obtain ⟨-, rfl⟩ := step_ringstart hstep
    exact h
  | ring i =>
    obtain rfl := step_ring hstep
    exact h

theorem ringpending_of_ready (hr : s.Ready) : s.ringpending = [] := by
  rw [ringpending, hr.1]
  rfl

/-- One step, in which `ringproc_kill` overlooks no ring process. -/
theorem step_ruled (h : Ruled want s) (hok : s.RingFound e) (hstep : Step s e s') :
    Ruled (ringAfter want e) s' := by
  rcases h with hexit | ⟨hnone, h⟩
  · exact Or.inl (step_exiting hexit hstep)
  cases e with
  | command cmdline cerror =>
    obtain ⟨hr, rfl⟩ := step_command hstep
    rw [ringpending_of_ready hr] at h
    exact h.command
  | report i state =>
    obtain ⟨hr, -, rfl⟩ := step_report hstep
    rw [ringpending_of_ready hr] at h
    exact Or.inr (h.report hok)
  | act t =>
    obtain ⟨todo, htodo, rfl⟩ := step_act hstep
    rw [htodo, List.mem_cons, not_or] at hnone
    refine Or.inr ⟨?_, h.act htodo hok (Ne.symm hnone.1)⟩
    rw [perform_todo]
    exact hnone.2
  | watcherstart i =>
    obtain ⟨-, rfl⟩ := step_watcherstart hstep
    exact Or.inr ⟨hnone, h.frame rfl rfl⟩
  | watcherend i =>
    obtain ⟨-, rfl⟩ := step_watcherend hstep
    exact Or.inr ⟨hnone, h.frame rfl rfl⟩
  | ringstart i =>
    obtain ⟨hi, rfl⟩ := step_ringstart hstep
    exact Or.inr ⟨hnone, h.start hi⟩
  | ring i =>
    obtain rfl := step_ring hstep
    exact Or.inr ⟨hnone, h⟩

end Steps

/-- In every run in which `ringproc_kill` never runs while a ring process has yet to publish its
pid, and no state other than -1 and 0 comes while one rings: after each message there is one
ring process if the last one among the `on` and `off` commands and the states was a state 1,
and none otherwise. -/
theorem rings_follow (es : List Event) (s : Ctlproc) (h : Run (Guarded RingFound Step) start es s)
    (hready : s.Ready) : s.rung = if ringAsked es then 1 else 0 := by
  have hruled : Ruled (ringAsked es) s := by
    refine h.traced (J := fun es s => Ruled (ringAsked es) s)
      (Or.inr ⟨List.not_mem_nil, .settled rfl (ringpid_of_rung rfl)⟩) ?_
    intro es s e s' hs ⟨hok, hstep⟩
    rw [ringAsked_snoc]
    exact step_ruled hs hok hstep
  rcases hruled with hexit | ⟨-, hrung⟩
  · rcases hexit with hgone | hmem
    · rw [hready.2] at hgone
      cases hgone
    · rw [hready.1] at hmem
      cases hmem
  · rw [ringpending_of_ready hready] at hrung
    exact hrung.of_nil.1

/-- The steps of a state 1 of the first watcher, up to its last send. -/
def ringSteps : List Event :=
  .report 0 1 :: ([Todo.ringspawn] ++ status "ringing rotc -a 3").map .act

/-- A watcher rings, and the ring process publishes its pid before the watcher's next state ends
it; then it rings again. -/
theorem rings_follow_again : ∃ s, Run (Guarded RingFound Step) start
      (onSteps "on rotc -a 3" "rotc" ["-a", "3"] ++ .watcherstart 0 :: ringSteps ++ .ringstart 0 ::
        .report 0 0 :: (ringprocKill ++ status "running rotc -a 3").map .act ++ ringSteps) s ∧
      s.rings = [.killed, .fresh] ∧ s.rung = 1 := by
  obtain ⟨s, hrun, hready, hrings⟩ : ∃ s, Run (Guarded RingFound Step) start
      (onSteps "on rotc -a 3" "rotc" ["-a", "3"] ++ .watcherstart 0 :: ringSteps ++ .ringstart 0 ::
        .report 0 0 :: (ringprocKill ++ status "running rotc -a 3").map .act ++ ringSteps) s ∧
      s.Ready ∧ s.rings = [.killed, .fresh] :=
    Run.exists_of_execGuarded (by decide +kernel)
  refine ⟨s, hrun, hrings, (rings_follow _ s hrun hready).trans ?_⟩
  decide +kernel

/-- `off` comes before the ring process has published its pid: it rings on. -/
theorem unpublished_ring_survives : ∃ es s, Run Step start es s ∧ s.Ready ∧
    ringAsked es = false ∧ s.rung = 1 := by
  obtain ⟨s, hrun, hready, hrung⟩ : ∃ s, Run Step start
      (onSteps "on rotc -a 3" "rotc" ["-a", "3"] ++ .watcherstart 0 :: ringSteps ++
        .command "off" true :: (watcherKill ++ status "off" ++ [Todo.reply none]).map .act) s ∧
      s.Ready ∧ s.rung = 1 :=
    Run.exists_of_exec (by decide +kernel)
  exact ⟨_, s, hrun, hready, by decide +kernel, hrung⟩

end Ctlproc

end Aimsgui
