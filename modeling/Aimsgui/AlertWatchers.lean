import Aimsgui.Alert

/-!
# At most one live watcher

`watcher_kill` kills the watcher whose pid is in `watcherpid`, and a watcher puts its
pid there itself, in its first step. A watcher that has been spawned but has not taken
that step survives the `watcher_kill` of the next command, and nobody will ever kill
it. `Published` is the condition that rules this out. Under it `Tended` holds: between
two messages the only live watcher is the one of the last `on`, and while a message
kills it, `watcherpid` is its pid.
-/

namespace Aimsgui

open Transition

namespace Ctlproc

/-! ## What the messages ask for -/

/-- The number of `on` commands handled, and the watcher that should be alive: the one
of the last `on`, unless `off` or a failure came after it. -/
structure Asked where
  ons : Nat := 0
  latest : Option Nat := none
  deriving DecidableEq, Repr

/-- A message more. -/
def Asked.after (h : Asked) : Event → Asked
  | .command cmdline _ =>
    match Cmd.ofFields (unquoted cmdline) with
    | .on _ _ => ⟨h.ons + 1, some h.ons⟩
    | .off => ⟨h.ons, none⟩
    | _ => h
  | .report _ state => if state = -1 then ⟨h.ons, none⟩ else h
  | _ => h

/-- What has been asked for in a run. -/
def asked (es : List Event) : Asked := es.foldl Asked.after {}

/-- The watcher's state that is being handled, or was handled last, unless a command
was taken since. -/
def handling (es : List Event) : Option (Nat × Int) :=
  es.foldl (fun r e =>
    match e with
    | .command _ _ => none
    | .report i state => some (i, state)
    | _ => r) none

/-- A status line that tells of a watcher at work. -/
def announces (msg : String) : Bool :=
  "running ".toList.isPrefixOf msg.toList || "ringing ".toList.isPrefixOf msg.toList

/-- `watcher_kill` looks for the pid of the watcher only after every watcher that was
spawned has published its pid. -/
def Published (s : Ctlproc) (e : Event) : Prop :=
  e = .act .watcherpost → Proc.fresh ∉ s.watchers

instance (s : Ctlproc) (e : Event) : Decidable (Published s e) :=
  inferInstanceAs (Decidable (_ → _))

/-- The watcher has its process. -/
def Running (s : Ctlproc) (i : Nat) : Prop := s.watchers[i]? = some .running

/-- The watcher was spawned, was not killed and has not ended. -/
def Live (s : Ctlproc) (i : Nat) : Prop := ∃ p, s.watchers[i]? = some p ∧ p.live = true

theorem Running.live {s : Ctlproc} {i : Nat} (h : s.Running i) : s.Live i := ⟨_, h, rfl⟩

/-! ## The invariant -/

/-- The actions that the watchers depend on. -/
inductive Stage where
  | post | clear | spawn
  deriving DecidableEq, Repr

/-- The part that an action has in replacing the watcher. -/
def stage : Todo → Option Stage
  | .watcherpost => some .post
  | .watcherclear => some .clear
  | .watcherspawn => some .spawn
  | _ => none

/-- The actions of the message under way that the watchers depend on. -/
def pending (s : Ctlproc) : List Stage := s.todo.filterMap stage

/-- What is asked for once the watchers are killed: a new one, or none. -/
inductive Due (h : Asked) (s : Ctlproc) : List Stage → Prop where
  | off : s.watchers.length = h.ons → h.latest = none → Due h s []
  | on : s.watchers.length + 1 = h.ons → h.latest = some s.watchers.length → Due h s [.spawn]

/-- The watchers are as the messages ask for, up to what is pending. -/
inductive Tended (h : Asked) (s : Ctlproc) : List Stage → Prop where
  /-- only the latest watcher is alive, and `watcherpid` is its pid once it runs -/
  | settled : s.watchers.length = h.ons → (∀ i, s.Live i → h.latest = some i) →
      (∀ i, s.Running i → s.watcherpid = some i) → Tended h s []
  /-- a watcher that runs is about to be killed -/
  | killing {rest : List Stage} : Due h s rest → (∀ i j, s.Live i → s.Live j → i = j) →
      (∀ i, s.Running i → s.watcherpid = some i) → Tended h s (.post :: .clear :: rest)
  /-- all are killed -/
  | killed {rest : List Stage} : Due h s rest → (∀ i, ¬ s.Live i) → Tended h s (.clear :: rest)
  | spawning : Due h s [.spawn] → (∀ i, ¬ s.Live i) → Tended h s [.spawn]

section Steps

variable {h : Asked} {s s' : Ctlproc} {es : List Event} {e : Event} {l : List Stage}

/-- `Tended` holds of fewer watchers. -/
theorem Tended.mono (ht : Tended h s l) (hlen : s'.watchers.length = s.watchers.length)
    (hlive : ∀ i, s'.Live i → s.Live i) (hrun : ∀ i, s'.Running i → s.Running i)
    (hpid : s'.watcherpid = s.watcherpid) : Tended h s' l := by
  have hdue : ∀ {rest}, Due h s rest → Due h s' rest := by
    intro rest hd
    cases hd with
    | off hl hn => exact .off (hlen.trans hl) hn
    | on hl hn => exact .on (by rw [hlen, hl]) (by rw [hlen, hn])
  cases ht with
  | settled hl ha hr =>
    refine .settled (hlen.trans hl) (fun i hi => ha i (hlive i hi)) ?_
    intro i hi
    rw [hpid, hr i (hrun i hi)]
  | killing hd hu hr =>
    refine .killing (hdue hd) (fun i j hi hj => hu i j (hlive i hi) (hlive j hj)) ?_
    intro i hi
    rw [hpid, hr i (hrun i hi)]
  | killed hd hn => exact .killed (hdue hd) fun i hi => hn i (hlive i hi)
  | spawning hd hn => exact .spawning (hdue hd) fun i hi => hn i (hlive i hi)

/-- `Tended` depends only on the watchers and on `watcherpid`. -/
theorem Tended.frame (ht : Tended h s l) (hw : s'.watchers = s.watchers)
    (hpid : s'.watcherpid = s.watcherpid) : Tended h s' l := by
  refine ht.mono (by rw [hw]) ?_ ?_ hpid
  · intro i hi
    rwa [Live, hw] at hi
  · intro i hi
    rwa [Running, hw] at hi

theorem Tended.of_nil (ht : Tended h s []) : s.watchers.length = h.ons ∧
    (∀ i, s.Live i → h.latest = some i) ∧ (∀ i, s.Running i → s.watcherpid = some i) := by
  cases ht with
  | settled hl ha hr => exact ⟨hl, ha, hr⟩

theorem pending_of_ready (hr : s.Ready) : s.pending = [] := by
  rw [pending, hr.1]
  rfl

theorem postnote_length (procs : List Proc) (pid : Option Nat) :
    (postnote procs pid).length = procs.length := by
  cases pid with
  | none => rfl
  | some i => exact List.length_modify ..

/-- A kill leaves a process as it was, or dead. -/
theorem getElem?_postnote {procs : List Proc} {pid : Option Nat} {i : Nat} {p : Proc}
    (hp : (postnote procs pid)[i]? = some p) (hl : p.live = true) :
    procs[i]? = some p ∧ pid ≠ some i := by
  cases pid with
  | none => exact ⟨hp, by rintro ⟨⟩⟩
  | some j =>
    rw [postnote, List.getElem?_modify] at hp
    split at hp
    · obtain ⟨q, hq, rfl⟩ := Option.map_eq_some_iff.mp hp
      cases q <;> cases hl
    · rename_i hne
      exact ⟨by simpa using hp, fun h => hne (Option.some.inj h)⟩

/-- Killing the process of `watcherpid`, whatever is pending. -/
theorem Tended.postnote (ht : Tended h s l) :
    Tended h { s with watchers := postnote s.watchers s.watcherpid } l := by
  refine ht.mono (postnote_length ..) ?_ ?_ rfl
  · rintro i ⟨p, hp, hl⟩
    exact ⟨p, (getElem?_postnote hp hl).1, hl⟩
  · intro i hi
    exact (getElem?_postnote hi rfl).1

/-- After `watcher_kill` has posted its kill no watcher is alive, since each had
published its pid. -/
theorem Tended.post {rest : List Stage} (ht : Tended h s (.post :: rest))
    (hfresh : Proc.fresh ∉ s.watchers) :
    Tended h { s with watchers := Ctlproc.postnote s.watchers s.watcherpid } rest := by
  cases ht with
  | killing hd hu hr =>
    refine .killed ?_ ?_
    · cases hd with
      | off hl hn => exact .off ((postnote_length ..).trans hl) hn
      | on hl hn =>
        refine .on ?_ ?_
        · rw [postnote_length, hl]
        · rw [postnote_length, hn]
    · rintro i ⟨p, hp, hl⟩
      obtain ⟨hp, hne⟩ := getElem?_postnote hp hl
      cases p with
      | fresh => exact hfresh (List.mem_of_getElem? hp)
      | running => exact hne (hr i hp)
      | ended => cases hl
      | killed => cases hl

theorem Tended.clear {rest : List Stage} (ht : Tended h s (.clear :: rest)) :
    Tended h { s with watcherpid := none } rest := by
  cases ht with
  | killed hd hn =>
    cases hd with
    | off hl hnone =>
      refine .settled hl ?_ ?_
      · intro i hi
        exact absurd hi (hn i)
      · intro i hi
        exact absurd (Running.live hi) (hn i)
    | on hl hsome => exact .spawning (.on hl hsome) hn

theorem Tended.spawn {rest : List Stage} (ht : Tended h s (.spawn :: rest)) :
    Tended h { s with watchers := s.watchers ++ [.fresh] } rest := by
  cases ht with
  | spawning hd hn =>
    cases hd with
    | on hl hsome =>
      refine .settled ?_ ?_ ?_
      · rw [List.length_append, List.length_singleton, hl]
      · rintro i ⟨p, hp, hlive⟩
        rw [List.getElem?_append] at hp
        split at hp
        · exact absurd ⟨p, hp, hlive⟩ (hn i)
        · obtain ⟨hi, -⟩ := List.getElem?_eq_some_iff.mp hp
          rw [List.length_singleton] at hi
          rw [hsome]
          congr 1
          omega
      · intro i hi
        rw [Running, List.getElem?_append] at hi
        split at hi
        · exact absurd (Running.live hi) (hn i)
        · have hm := List.mem_of_getElem? hi
          rw [List.mem_singleton] at hm
          cases hm

/-- The first step of a watcher. -/
theorem Tended.start {i : Nat} (ht : Tended h s l) (hi : s.watchers[i]? = some .fresh) :
    Tended h { s with watchers := s.watchers.set i .running, watcherpid := some i } l := by
  have hlt : i < s.watchers.length := (List.getElem?_eq_some_iff.mp hi).1
  have hlive : s.Live i := ⟨_, hi, rfl⟩
  have hlive' : ∀ {w : Option Nat} j,
      Live { s with watchers := s.watchers.set i .running, watcherpid := w } j → s.Live j := by
    rintro w j ⟨p, hp, hl⟩
    by_cases hij : i = j
    · exact hij ▸ hlive
    · exact ⟨p, by simpa [List.getElem?_set_ne hij] using hp, hl⟩
  have hlen : (s.watchers.set i .running).length = s.watchers.length := List.length_set
  cases ht with
  | settled hl ha hr =>
    refine .settled (hlen.trans hl) (fun j hj => ha j (hlive' j hj)) ?_
    intro j hj
    rw [← ha i hlive, ha j (hlive' j (Running.live hj))]
  | killing hd hu hr =>
    refine .killing ?_ (fun j k hj hk => hu j k (hlive' j hj) (hlive' k hk)) ?_
    · cases hd with
      | off hl hn => exact .off (hlen.trans hl) hn
      | on hl hn => exact .on (by rw [hlen, hl]) (by rw [hlen, hn])
    · intro j hj
      exact congrArg some (hu i j hlive (hlive' j (Running.live hj)))
  | killed hd hn => exact absurd hlive (hn i)
  | spawning hd hn => exact absurd hlive (hn i)

/-- One action of `ctlproc`. -/
theorem Tended.act {t : Todo} {todo : List Todo} (ht : Tended h s s.pending)
    (htodo : s.todo = t :: todo) (hok : Published s (.act t)) :
    Tended h ({ s with todo := todo }.perform t) ({ s with todo := todo }.perform t).pending := by
  rw [pending, htodo] at ht
  rw [pending, perform_todo]
  cases t
  case watcherpost => exact (ht.post (hok rfl)).frame rfl rfl
  case watcherclear => exact ht.clear.frame rfl rfl
  case watcherspawn => exact ht.spawn.frame rfl rfl
  case exitwatcher => exact ht.postnote.frame rfl rfl
  all_goals exact ht.frame rfl rfl

/-- A message is taken: what is pending is what the message asks for. -/
theorem Tended.take {h' : Asked} {todo : List Todo} (ht : Tended h s [])
    (hd : todo.filterMap stage = [] ∧ h' = h ∨
      (∃ rest, todo.filterMap stage = .post :: .clear :: rest ∧ Due h' s rest)) :
    Tended h' { s with todo := todo } (pending { s with todo := todo }) := by
  obtain ⟨hl, ha, hr⟩ := ht.of_nil
  rcases hd with ⟨hnil, rfl⟩ | ⟨rest, hrest, hdue⟩
  · rw [pending, hnil]
    exact ht.frame rfl rfl
  · rw [pending, hrest]
    refine .killing ?_ ?_ hr
    · cases hdue with
      | off hl hn => exact .off hl hn
      | on hl hn => exact .on hl hn
    · intro i j hi hj
      exact Option.some.inj ((ha i hi).symm.trans (ha j hj))

theorem filterMap_stage_answer (cerror : Bool) (e : Option String) :
    (answer cerror e).filterMap stage = [] := by
  cases cerror <;> rfl

/-- A command is taken. -/
theorem Tended.command {cmdline : String} {cerror : Bool} (ht : Tended h s []) (hr : s.Ready) :
    Tended (h.after (.command cmdline cerror))
      (s.take (Ctlproc.command cerror (Cmd.ofFields (unquoted cmdline))))
      (s.take (Ctlproc.command cerror (Cmd.ofFields (unquoted cmdline)))).pending := by
  have hl := ht.of_nil.1
  rw [Asked.after]
  cases Cmd.ofFields (unquoted cmdline) with
  | exit =>
    refine ht.take (Or.inl ⟨?_, rfl⟩)
    rw [List.filterMap_append, filterMap_stage_answer]
    rfl
  | on wtype wargs =>
    refine ht.take (Or.inr ⟨[.spawn], ?_, ?_⟩)
    · rw [List.filterMap_append, filterMap_stage_answer]
      rfl
    · exact .on (by rw [hl]) (by rw [hl])
  | off =>
    refine ht.take (Or.inr ⟨[], ?_, .off hl rfl⟩)
    rw [List.filterMap_append, filterMap_stage_answer]
    rfl
  | pname name =>
    refine ht.take (Or.inl ⟨?_, rfl⟩)
    rw [List.filterMap_append, filterMap_stage_answer]
    rfl
  | invalid => exact ht.take (Or.inl ⟨filterMap_stage_answer .., rfl⟩)
  | broken =>
    rw [Ctlproc.command, Ctlproc.take, pending, hr.1]
    exact ht.frame rfl rfl

/-- A watcher's state is taken. -/
theorem Tended.report {i : Nat} {state : Int} (ht : Tended h s []) :
    Tended (h.after (.report i state)) { s with todo := s.watcherstate state }
      (pending { s with todo := s.watcherstate state }) := by
  refine ht.take ?_
  rw [Asked.after, watcherstate]
  by_cases hfail : state = -1
  · rw [if_pos hfail, if_pos hfail]
    exact Or.inr ⟨[], rfl, .off ht.of_nil.1 rfl⟩
  · rw [if_neg hfail, if_neg hfail]
    refine Or.inl ⟨?_, rfl⟩
    split
    · rfl
    · split <;> rfl

/-- One step, in which `watcher_kill` overlooks no watcher. -/
theorem step_tended (ht : Tended h s s.pending) (hok : Published s e) (hstep : Step s e s') :
    Tended (h.after e) s' s'.pending := by
  cases e with
  | command cmdline cerror =>
    obtain ⟨hr, rfl⟩ := step_command hstep
    rw [pending_of_ready hr] at ht
    exact ht.command hr
  | report i state =>
    obtain ⟨hr, -, rfl⟩ := step_report hstep
    rw [pending_of_ready hr] at ht
    exact ht.report
  | act t =>
    obtain ⟨todo, htodo, rfl⟩ := step_act hstep
    exact ht.act htodo hok
  | watcherstart i =>
    obtain ⟨hi, rfl⟩ := step_watcherstart hstep
    exact ht.start hi
  | watcherend i =>
    obtain ⟨hi, rfl⟩ := step_watcherend hstep
    refine ht.mono List.length_set ?_ ?_ rfl
    · rintro j ⟨p, hp, hl⟩
      by_cases hij : i = j
      · exact hij ▸ ⟨_, hi, rfl⟩
      · exact ⟨p, by simpa [List.getElem?_set_ne hij] using hp, hl⟩
    · intro j hj
      by_cases hij : i = j
      · exact hij ▸ hi
      · simpa [Running, List.getElem?_set_ne hij] using hj
  | ringstart i =>
    obtain ⟨-, rfl⟩ := step_ringstart hstep
    exact ht.frame rfl rfl
  | ring i =>
    obtain rfl := step_ring hstep
    exact ht

/-! ## The statuses that are put out -/

/-- What is being handled is a state of the latest watcher. -/
def Heeded (es : List Event) : Prop :=
  ∃ i state, handling es = some (i, state) ∧ (asked es).latest = some i

theorem asked_snoc : asked (es ++ [e]) = (asked es).after e := by
  rw [asked, asked, List.foldl_append]
  rfl

/-- Steps that take no message leave what is asked for and what is handled alone. -/
theorem heeded_snoc (hcmd : ∀ c r, e ≠ .command c r) (hrep : ∀ i st, e ≠ .report i st)
    (hh : Heeded es) : Heeded (es ++ [e]) := by
  obtain ⟨i, state, hs, hl⟩ := hh
  refine ⟨i, state, ?_, ?_⟩
  · rw [handling, List.foldl_append] at *
    cases e with
    | command c r => exact absurd rfl (hcmd c r)
    | report i st => exact absurd rfl (hrep i st)
    | _ => exact hs
  · rw [asked_snoc]
    cases e with
    | command c r => exact absurd rfl (hcmd c r)
    | report i st => exact absurd rfl (hrep i st)
    | _ => exact hl

/-- Commands put no status of a watcher at work out. -/
theorem not_announces_command {cerror : Bool} {c : Cmd} {todo : List Todo} {msg : String}
    (hc : command cerror c = some todo) (hm : .out (some msg) ∈ todo) : announces msg = false := by
  have hanswer : ∀ e, Todo.out (some msg) ∉ answer cerror e := by
    intro e
    cases cerror <;> simp [answer]
  cases c with
  | exit =>
    obtain rfl := Option.some.inj hc
    simp only [List.mem_append, hanswer, false_or] at hm
    obtain rfl : msg = "exit" := by simpa using hm
    decide +kernel
  | on wtype wargs =>
    obtain rfl := Option.some.inj hc
    simp [hanswer, watcherSpawn, watcherKill, ringprocKill] at hm
  | off =>
    obtain rfl := Option.some.inj hc
    obtain rfl : msg = "off" := by
      simpa [hanswer, watcherKill, ringprocKill, status] using hm
    decide +kernel
  | pname name =>
    obtain rfl := Option.some.inj hc
    obtain rfl : msg = "pname " ++ name := by simpa [hanswer] using hm
    rw [announces, String.toList_append]
    rfl
  | invalid =>
    obtain rfl := Option.some.inj hc
    exact absurd hm (hanswer _)
  | broken => cases hc

/-- A failed watcher causes no status of a watcher at work. -/
theorem ne_failure_of_announces {state : Int} {msg : String}
    (hm : .out (some msg) ∈ s.watcherstate state) (ha : announces msg = true) : state ≠ -1 := by
  rintro rfl
  obtain rfl : msg = "off" := by
    simpa [watcherstate, watcherKill, ringprocKill, status] using hm
  revert ha
  decide +kernel

/-- Between two messages the only live watcher is the one that the messages handled so far ask
for, and what is put out about a watcher at work comes from that watcher. -/
def OneWatcher (es : List Event) (s : Ctlproc) : Prop :=
  (s.todo = [] → ∀ i, s.Live i → (asked es).latest = some i) ∧
    ∀ msg, .out (some msg) ∈ s.todo → announces msg = true → Heeded es

/-- What is put out about a watcher at work stays heeded. -/
theorem step_heeded (ht : Tended (asked es) s s.pending)
    (hh : ∀ msg, .out (some msg) ∈ s.todo → announces msg = true → Heeded es)
    (hstep : Step s e s') :
    ∀ msg, .out (some msg) ∈ s'.todo → announces msg = true → Heeded (es ++ [e]) := by
  intro msg hm ha
  by_cases hcmd : ∃ c r, e = .command c r
  · obtain ⟨c, r, rfl⟩ := hcmd
    obtain ⟨hr, rfl⟩ := step_command hstep
    cases hc : command r (Cmd.ofFields (unquoted c)) with
    | none =>
      rw [hc, take, hr.1] at hm
      cases hm
    | some todo =>
      rw [hc] at hm
      rw [not_announces_command hc hm] at ha
      cases ha
  · by_cases hrep : ∃ i st, e = .report i st
    · obtain ⟨i, state, rfl⟩ := hrep
      obtain ⟨hr, hi, rfl⟩ := step_report hstep
      rw [pending_of_ready hr] at ht
      refine ⟨i, state, ?_, ?_⟩
      · rw [handling, List.foldl_append]
        rfl
      · rw [asked_snoc, Asked.after, if_neg (ne_failure_of_announces hm ha)]
        exact ht.of_nil.2.1 i (Running.live hi)
    · have hcmd' : ∀ c r, e ≠ .command c r := fun c r he => hcmd ⟨c, r, he⟩
      have hrep' : ∀ i st, e ≠ .report i st := fun i st he => hrep ⟨i, st, he⟩
      exact heeded_snoc hcmd' hrep' (hh msg (step_todo hcmd' hrep' hstep hm) ha)

end Steps

/-- **At most one live watcher**, as long as `watcher_kill` never runs while a spawned
watcher has yet to publish its pid: in every such run of `ctlproc` with its watchers,
between two messages a live watcher is the one of the latest `on`, which came after
every `off` and every failure handled; and a "running" or "ringing" status is only put
out for a state of that watcher. -/
theorem one_live_watcher (es : List Event) (s : Ctlproc)
    (h : Run (Guarded Published Step) start es s) : OneWatcher es s := by
  have hinv : Tended (asked es) s s.pending ∧
      ∀ msg, .out (some msg) ∈ s.todo → announces msg = true → Heeded es := by
    refine h.traced (J := fun es s => Tended (asked es) s s.pending ∧
      ∀ msg, .out (some msg) ∈ s.todo → announces msg = true → Heeded es) ⟨?_, ?_⟩ ?_
    · refine .settled rfl ?_ ?_
      · rintro i ⟨p, hp, -⟩
        cases hp
      · rintro i ⟨⟩
    · rintro msg ⟨⟩
    · rintro es s e s' ⟨ht, hh⟩ ⟨hok, hstep⟩
      refine ⟨?_, step_heeded ht hh hstep⟩
      rw [asked_snoc]
      exact step_tended ht hok hstep
  refine ⟨?_, hinv.2⟩
  intro htodo
  have ht := hinv.1
  rw [pending, htodo] at ht
  exact ht.of_nil.2.1

/-- The steps of an `on` command, up to its answer. -/
def onSteps (cmdline wtype : String) (wargs : List String) : List Event :=
  .command cmdline true :: (watcherSpawn wtype wargs ++ [Todo.reply none]).map .act

/-- A watcher is spawned, publishes its pid and reports that it is running. -/
theorem one_live_watcher_running : ∃ es s, execGuarded Published step start es = some s ∧
    s.todo = ringprocKill ++ status "running rotc -a 3" ∧ OneWatcher es s := by
  refine ⟨onSteps "on rotc -a 3" "rotc" ["-a", "3"] ++ [.watcherstart 0, .report 0 0],
    { todo := ringprocKill ++ status "running rotc -a 3", watcherpid := some 0,
      watchertype := "rotc", watcherargs := ["-a", "3"], watchers := [.running] }, ?_, rfl, ?_⟩
  · decide +kernel
  · refine one_live_watcher _ _ (Run.of_execGuarded ?_)
    decide +kernel

/-- `off` comes before the watcher of `on` has published its pid: the watcher lives on,
and its state is put out as "running". -/
theorem unpublished_watcher_survives : ∃ es s, exec step start es = some s ∧
    s.todo = [] ∧ s.Live 0 ∧ (asked es).latest = none ∧ ¬ OneWatcher es s := by
  refine ⟨onSteps "on rotc -a 3" "rotc" ["-a", "3"] ++ .command "off" true ::
      (watcherKill ++ status "off" ++ [Todo.reply none]).map .act,
    { watchers := [.fresh] }, ?_, rfl, ⟨.fresh, rfl, rfl⟩, ?_, ?_⟩
  · decide +kernel
  · decide +kernel
  · rintro ⟨hlive, -⟩
    have hlatest := hlive rfl 0 ⟨.fresh, rfl, rfl⟩
    revert hlatest
    decide +kernel

end Ctlproc

end Aimsgui
