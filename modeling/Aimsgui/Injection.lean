import Aimsgui.Handled
import Aimsgui.Lib.Fifo
import Aimsgui.Lib.Run
import Aimsgui.Mainloop

/-!
# Injected keys

A `key` request injects a key as if it had been pressed: the main loop sends it to
`bufferproc`, and receives it back on `fakekbd` when it gets there. The main loop does not
receive while it sends, so `bufferproc` must always be ready to take another string. It is,
and the keys stay in order (`injection_reliable`).
-/

namespace Aimsgui

open Transition

/-- `bufferproc` -/
structure Bufferproc where
  /-- the lists `h` and `t` -/
  q : Fifo String := {}
  /-- what the `alt` offers on `out`, once the process is at it -/
  alt : Option (Option String) := none
  deriving DecidableEq, Repr

namespace Bufferproc

/-- What `bufferproc` and its neighbours do. -/
inductive Act where
  /-- the process goes to its `alt` -/
  | loop
  /-- somebody sends a string on `in` -/
  | send (x : String)
  /-- somebody receives a string on `out` -/
  | receive (s : String)
  deriving DecidableEq, Repr

namespace Act

/-- The string that is sent to `bufferproc`. -/
def sent : Act → List String
  | send x => [x]
  | _ => []

/-- The string that is received from it. -/
def received : Act → List String
  | receive s => [s]
  | _ => []

end Act

/-- From the top of the loop to the `alt`. Without an element the offer is on `dummyout`, where
nobody receives. -/
def loop (b : Bufferproc) : Option Bufferproc :=
  if b.q.nonempty then
    match b.q.refill.h with
    | s :: _ => some { q := b.q.refill, alt := some (some s) }
    | [] => none
  else some { b with alt := some none }

/-- A step; nothing is possible after a failure. -/
def step (b : Bufferproc) : Act → Option Bufferproc
  | .loop =>
    match b.alt with
    | none => b.loop
    | some _ => none
  | .send x =>
    match b.alt with
    | some _ => some { q := b.q.put x, alt := none }
    | none => none
  | .receive s =>
    match b.alt, b.q.h with
    | some (some s'), _ :: h => if s = s' then some { q := { b.q with h := h }, alt := none } else none
    | _, _ => none

/-- What is offered is at the head of the front list; if nothing is, the queue is empty. -/
def Offering (b : Bufferproc) : Option (Option String) → Prop
  | none => True
  | some none => b.q.contents = []
  | some (some s) => b.q.h.head? = some s

variable {b b' : Bufferproc} {a : Act} {as : List Act} {s x : String} {rest : List String}

/-- The process gets to its `alt`, and offers the head of the queue there. -/
theorem loop_spec (b : Bufferproc) : ∃ b', b.loop = some b' ∧ b'.q.contents = b.q.contents ∧
    b'.alt = some b.q.contents.head? ∧ Offering b' b'.alt := by
  rw [loop]
  by_cases hq : b.q.nonempty = true
  · rw [if_pos hq]
    cases hh : b.q.refill.h with
    | nil => exact absurd (b.q.refill_h_eq_nil hh).1 (b.q.nonempty_iff.mp hq)
    | cons s h =>
      have hhead : b.q.contents.head? = some s := by
        rw [← Fifo.contents_refill, Fifo.contents, hh]
        rfl
      refine ⟨_, rfl, Fifo.contents_refill _, by rw [hhead], ?_⟩
      rw [Offering, hh]
      rfl
  · rw [if_neg hq]
    have hnil : b.q.contents = [] := b.q.nonempty_eq_false.mp (Bool.eq_false_iff.mpr hq)
    exact ⟨_, rfl, rfl, by rw [hnil]; rfl, hnil⟩

/-- A step moves what it says, and offers only what is queued. -/
theorem step_moves (hb : Offering b b.alt) (h : b.step a = some b') :
    Fifo.Moves b.q a.sent a.received b'.q ∧ Offering b' b'.alt := by
  cases a with
  | loop =>
    rw [step] at h
    split at h
    · obtain ⟨b₁, hloop, hcontents, -, hoffer⟩ := loop_spec b
      obtain rfl := Option.some.inj (hloop.symm.trans h)
      exact ⟨Fifo.Moves.of_contents_eq hcontents, hoffer⟩
    · cases h
  | send x =>
    rw [step] at h
    split at h
    · obtain rfl := Option.some.inj h
      exact ⟨Fifo.Moves.put _ _, trivial⟩
    · cases h
  | receive s =>
    rw [step] at h
    split at h
    · rename_i s' s'' front halt hfront
      split_ifs at h with hs
      obtain rfl := Option.some.inj h
      subst hs
      rw [halt, Offering, hfront] at hb
      obtain rfl := Option.some.inj hb
      refine ⟨?_, trivial⟩
      rw [Fifo.Moves, Fifo.contents, Fifo.contents, hfront]
      exact List.append_nil _
    · cases h

/-- What is kept along a run. -/
theorem run_moves (h : Run (StepOf step) {} as b) :
    Fifo.Moves {} (as.flatMap Act.sent) (as.flatMap Act.received) b.q ∧ Offering b b.alt := by
  refine h.traced
    (J := fun as b => Fifo.Moves {} (as.flatMap Act.sent) (as.flatMap Act.received) b.q ∧
      Offering b b.alt) ⟨Fifo.Moves.of_contents_eq rfl, trivial⟩ ?_
  rintro as b a b' ⟨hmoves, hoffer⟩ hstep
  obtain ⟨hmoves', hoffer'⟩ := step_moves hoffer hstep
  simp only [List.flatMap_append, List.flatMap_cons, List.flatMap_nil, List.append_nil]
  exact ⟨hmoves.trans hmoves', hoffer'⟩

/-- The step is possible, if not at once then when the process has got to its `alt`. -/
def Ready (b : Bufferproc) (a : Act) : Prop :=
  (∃ b', b.step a = some b') ∨ ∃ b₁ b', b.step .loop = some b₁ ∧ b₁.step a = some b'

theorem ready_send (b : Bufferproc) (x : String) : Ready b (.send x) := by
  cases halt : b.alt with
  | none =>
    obtain ⟨b₁, hloop, -, halt₁, -⟩ := loop_spec b
    refine Or.inr ⟨b₁, { q := b₁.q.put x, alt := none }, ?_, ?_⟩
    · rw [step, halt]
      exact hloop
    · rw [step, halt₁]
  | some o =>
    refine Or.inl ⟨{ q := b.q.put x, alt := none }, ?_⟩
    rw [step, halt]

/-- What is offered can be received. -/
theorem receive_offered (halt : b.alt = some (some s)) (hb : Offering b b.alt) :
    ∃ b', b.step (.receive s) = some b' := by
  rw [halt, Offering] at hb
  obtain ⟨h, hfront⟩ := List.head?_eq_some_iff.mp hb
  refine ⟨{ q := { b.q with h := h }, alt := none }, ?_⟩
  rw [step, halt, hfront]
  exact if_pos rfl

/-- The first string of the queue can be received. -/
theorem ready_receive (hb : Offering b b.alt) (hcontents : b.q.contents = s :: rest) :
    Ready b (.receive s) := by
  cases halt : b.alt with
  | none =>
    obtain ⟨b₁, hloop, -, halt₁, hoffer₁⟩ := loop_spec b
    rw [hcontents, List.head?_cons] at halt₁
    obtain ⟨b', hb'⟩ := receive_offered halt₁ hoffer₁
    refine Or.inr ⟨b₁, b', ?_, hb'⟩
    rw [step, halt]
    exact hloop
  | some o =>
    refine Or.inl (receive_offered ?_ hb)
    rw [halt, Offering.eq_def] at hb
    cases o with
    | none =>
      rw [hcontents] at hb
      cases hb
    | some s' =>
      obtain ⟨h, hfront⟩ := List.head?_eq_some_iff.mp hb
      rw [Fifo.contents, hfront, List.cons_append] at hcontents
      rw [halt, (List.cons_eq_cons.mp hcontents).1]

/-- Nothing is received from an empty queue. -/
theorem not_receive (hcontents : b.q.contents = []) (s : String) :
    b.step (.receive s) = none := by
  have hfront : b.q.h = [] := (List.append_eq_nil_iff.mp hcontents).1
  rw [step]
  split
  · rename_i hcons
    rw [hfront] at hcons
    cases hcons
  · rfl

end Bufferproc

/-! ## The main loop and `bufferproc` -/

/-- The string that is sent to `bufferproc`, if that is what it is. -/
def Send.injected : Send → Option String
  | .fakekbd s => some s
  | _ => none

/-- A manager and its `bufferproc`, which is spawned by the first `key` request. -/
structure Injector where
  session : Session
  /-- what the main loop has still to send on `fakekbdin` before it is back at its `alt` -/
  sending : List String := []
  buffer : Option Bufferproc := none

namespace Injector

/-- A step of the manager or of `bufferproc`. -/
inductive Happening where
  /-- a turn of the main loop -/
  | turn (e : Event)
  /-- `bufferproc` goes to its `alt` -/
  | loop
  /-- the main loop sends a string to `bufferproc` -/
  | send (x : String)
  /-- the main loop receives a key from `bufferproc`, and has a turn with it -/
  | receive (s : String)

/-- What `bufferproc` does when something happens. -/
def Happening.act : Happening → Option Bufferproc.Act
  | turn _ => none
  | loop => some .loop
  | send x => some (.send x)
  | receive s => some (.receive s)

/-- No client has joined, and `bufferproc` is not there yet. -/
def start (screen : Rect) : Injector := { session := .start screen }

/-- What a turn has sent to `bufferproc`. -/
def injected (s s' : Session) : List String :=
  (s'.wm.out.drop s.wm.out.length).filterMap Send.injected

/-- A turn of the main loop. In a `key` request it has to send a string to `bufferproc`, which
it spawns when there is none. -/
def turned (m : Manager) (env : Env) (k : Injector) (e : Event) : Option Injector :=
  (k.session.step m env e).map fun s' =>
    { session := s'
      sending := injected k.session s'
      buffer := if injected k.session s' = [] then k.buffer else some (k.buffer.getD {}) }

/-- One step of the two processes. While it sends, the main loop receives nothing. -/
def step (m : Manager) (env : Env) (k : Injector) : Happening → Option Injector
  | .turn e => if k.sending = [] then turned m env k e else none
  | .loop => (k.buffer.bind (·.step .loop)).map fun b => { k with buffer := some b }
  | .send x =>
    match k.sending with
    | x' :: rest =>
      if x = x' then
        (k.buffer.bind (·.step (.send x))).map fun b => { k with sending := rest, buffer := some b }
      else none
    | [] => none
  | .receive s =>
    if k.sending = [] then
      (k.buffer.bind (·.step (.receive s))).bind fun b =>
        turned m env { k with buffer := some b } (.key (int s))
    else none

variable {m : Manager} {env : Env} {k k' : Injector} {h : Happening} {hs : List Happening}
  {screen : Rect}

/-- The main loop sends to a process that is there. -/
def Spawned (k : Injector) : Prop := k.sending ≠ [] → k.buffer ≠ none

/-- A turn spawns `bufferproc` if it has something for it, and leaves one that is there alone. -/
theorem turned_buffer {e : Event} (h : turned m env k e = some k') :
    Spawned k' ∧ k'.buffer.getD {} = k.buffer.getD {} := by
  obtain ⟨s', -, rfl⟩ := Option.map_eq_some_iff.mp h
  by_cases hnil : injected k.session s' = []
  · simp only [Spawned, hnil, if_pos]
    exact ⟨fun hne => absurd rfl hne, trivial⟩
  · simp only [Spawned, if_neg hnil]
    exact ⟨fun _ hnone => Option.some_ne_none _ hnone, rfl⟩

/-- The part of `bufferproc` in what happens: it takes a step of its own, or none. -/
theorem step_buffer (hstep : k.step m env h = some k') : Spawned k' ∧
    (h.act = none ∧ k'.buffer.getD {} = k.buffer.getD {} ∨
      ∃ a, h.act = some a ∧ (k.buffer.getD {}).step a = some (k'.buffer.getD {})) := by
  cases h with
  | turn e =>
    rw [step] at hstep
    split_ifs at hstep
    obtain ⟨hspawned, hbuffer⟩ := turned_buffer hstep
    exact ⟨hspawned, Or.inl ⟨rfl, hbuffer⟩⟩
  | loop =>
    obtain ⟨b', hb', rfl⟩ := Option.map_eq_some_iff.mp hstep
    obtain ⟨b, hb, hloop⟩ := Option.bind_eq_some_iff.mp hb'
    refine ⟨fun _ hnone => Option.some_ne_none _ hnone, Or.inr ⟨.loop, rfl, ?_⟩⟩
    rw [hb]
    exact hloop
  | send x =>
    rw [step] at hstep
    split at hstep
    · split_ifs at hstep
      obtain ⟨b', hb', rfl⟩ := Option.map_eq_some_iff.mp hstep
      obtain ⟨b, hb, hsend⟩ := Option.bind_eq_some_iff.mp hb'
      refine ⟨fun _ hnone => Option.some_ne_none _ hnone, Or.inr ⟨.send x, rfl, ?_⟩⟩
      rw [hb]
      exact hsend
    · cases hstep
  | receive s =>
    rw [step] at hstep
    split_ifs at hstep
    obtain ⟨b', hb', hturned⟩ := Option.bind_eq_some_iff.mp hstep
    obtain ⟨b, hb, hreceive⟩ := Option.bind_eq_some_iff.mp hb'
    obtain ⟨hspawned, hbuffer⟩ := turned_buffer hturned
    refine ⟨hspawned, Or.inr ⟨.receive s, rfl, ?_⟩⟩
    rw [hb, hbuffer]
    exact hreceive

/-- In a run of the two processes `bufferproc` has a run of its own. -/
theorem run_buffer (h : Run (StepOf (step m env)) (start screen) hs k) : Spawned k ∧
    Run (StepOf Bufferproc.step) {} (hs.filterMap Happening.act) (k.buffer.getD {}) := by
  refine h.traced (J := fun hs k => Spawned k ∧
    Run (StepOf Bufferproc.step) {} (hs.filterMap Happening.act) (k.buffer.getD {})) ?_ ?_
  · exact ⟨fun hne => absurd rfl hne, Run.nil⟩
  · rintro hs k h k' ⟨-, hrun⟩ hstep
    obtain ⟨hspawned', hact⟩ := step_buffer hstep
    refine ⟨hspawned', ?_⟩
    rw [List.filterMap_append]
    rcases hact with ⟨hnone, hbuffer⟩ | ⟨a, hsome, hbuffer⟩
    · rw [List.filterMap_cons_none hnone, List.filterMap_nil, List.append_nil, hbuffer]
      exact hrun
    · rw [List.filterMap_cons_some hsome, List.filterMap_nil]
      exact hrun.snoc hbuffer

/-- What is possible, if not at once then when `bufferproc` has got to its `alt`. -/
def Ready (m : Manager) (env : Env) (k : Injector) (h : Happening) : Prop :=
  (∃ k', k.step m env h = some k') ∨
    ∃ k₁ k', k.step m env .loop = some k₁ ∧ k₁.step m env h = some k'

theorem ready_send {x : String} {rest : List String} (hk : Spawned k) (hx : k.sending = x :: rest) :
    Ready m env k (.send x) := by
  obtain ⟨b, hb⟩ := Option.ne_none_iff_exists'.mp (hk (by rw [hx]; exact List.cons_ne_nil _ _))
  rcases b.ready_send x with ⟨b', hsend⟩ | ⟨b₁, b', hloop, hsend⟩
  · refine Or.inl ⟨{ k with sending := rest, buffer := some b' }, ?_⟩
    rw [step, hx, hb]
    simp only [if_true, Option.bind_some, hsend, Option.map_some]
  · refine Or.inr ⟨{ k with buffer := some b₁ }, { k with sending := rest, buffer := some b' }, ?_, ?_⟩
    · rw [step, hb, Option.bind_some, hloop]
      rfl
    · rw [step, hx]
      simp only [if_true, Option.bind_some, hsend, Option.map_some]

/-- When the main loop is back at its `alt`, it can receive the next key. -/
theorem ready_receive {b : Bufferproc} {s : String} {rest : List String}
    (hoffer : Bufferproc.Offering b b.alt) (hk : k.sending = []) (hb : k.buffer = some b)
    (hcontents : b.q.contents = s :: rest) : Ready m env k (.receive s) := by
  have hturned : ∀ k : Injector, ∃ k', turned m env k (.key (int s)) = some k' :=
    fun k => ⟨_, rfl⟩
  rcases Bufferproc.ready_receive hoffer hcontents with ⟨b', hreceive⟩ | ⟨b₁, b', hloop, hreceive⟩
  · obtain ⟨k', hk'⟩ := hturned { k with buffer := some b' }
    refine Or.inl ⟨k', ?_⟩
    rw [step, if_pos hk, hb, Option.bind_some, hreceive]
    exact hk'
  · obtain ⟨k', hk'⟩ := hturned { k with buffer := some b' }
    refine Or.inr ⟨{ k with buffer := some b₁ }, k', ?_, ?_⟩
    · rw [step, hb, Option.bind_some, hloop]
      rfl
    · rw [step, if_pos hk, Option.bind_some, hreceive]
      exact hk'

/-- What is true of `bufferproc` after a run. -/
structure Fed (as : List Bufferproc.Act) (b : Bufferproc) : Prop where
  /-- what was received was sent before, in the same order -/
  received : as.flatMap Bufferproc.Act.received <+: as.flatMap Bufferproc.Act.sent
  /-- and what was not received is stored -/
  stored : as.flatMap Bufferproc.Act.sent = as.flatMap Bufferproc.Act.received ++ b.q.contents
  offer : ∀ s, b.alt = some (some s) → b.q.contents.head? = some s
  silent : b.q.contents = [] → ∀ s, b.step (.receive s) = none
  ready : ∀ x, b.Ready (.send x)

/-- The main loop waits for `bufferproc` only to send it a string, and does not wait for long. -/
structure Unblocked (m : Manager) (env : Env) (k : Injector) : Prop where
  send : ∀ x rest, k.sending = x :: rest → Ready m env k (.send x)
  receive : k.sending = [] → ∀ s rest, (k.buffer.getD {}).q.contents = s :: rest →
    Ready m env k (.receive s)

theorem fed {as : List Bufferproc.Act} {b : Bufferproc}
    (h : Run (StepOf Bufferproc.step) {} as b) : Fed as b := by
  obtain ⟨hmoves, hoffer⟩ := Bufferproc.run_moves h
  refine ⟨⟨_, hmoves.ins_eq.symm⟩, hmoves.ins_eq, ?_, Bufferproc.not_receive, b.ready_send⟩
  intro s halt
  rw [halt, Bufferproc.Offering] at hoffer
  obtain ⟨front, hfront⟩ := List.head?_eq_some_iff.mp hoffer
  rw [Fifo.contents, hfront]
  rfl

/-- Whatever is sent to `bufferproc` and received from it: the strings stay in order, nothing is
offered that is not there, and another string can always be sent. So however the turns of the
main loop, which sends to it and receives from it, and its own steps follow one another, the
two never wait for each other. -/
theorem injection_reliable :
    (∀ as b, Run (StepOf Bufferproc.step) {} as b → Fed as b) ∧
      ∀ m env screen hs k, Run (StepOf (step m env)) (start screen) hs k →
        Fed (hs.filterMap Happening.act) (k.buffer.getD {}) ∧ Unblocked m env k := by
  refine ⟨fun as b => fed, ?_⟩
  intro m env screen hs k h
  obtain ⟨hspawned, hrun⟩ := run_buffer h
  obtain ⟨-, hoffer⟩ := Bufferproc.run_moves hrun
  refine ⟨fed hrun, fun x rest => ready_send hspawned, ?_⟩
  intro hk s rest hcontents
  cases hb : k.buffer with
  | none =>
    rw [hb] at hcontents
    cases hcontents
  | some b =>
    rw [hb] at hoffer hcontents
    exact ready_receive hoffer hk hb hcontents

/-- A key is injected and comes back to the client that has the keyboard, while another one waits. -/
theorem injection_reliable_key :
    ∃ k, Run (StepOf (step .topwin default)) (start ⟨⟨0, 0⟩, ⟨640, 480⟩⟩)
        [.turn (.opened 0), .turn (.join 0), .turn (.request 0 "start kbd" []),
          .turn (.request 0 "key 97" []), .loop, .send "97", .loop,
          .turn (.request 0 "key 98" []), .send "98", .loop, .receive "97"] k ∧
      Send.kbd 0 97 ∈ k.session.wm.out ∧
      Fed [.loop, .send "97", .loop, .send "98", .loop, .receive "97"] (k.buffer.getD {}) ∧
      Unblocked .topwin default k := by
  obtain ⟨k, hrun, hkey⟩ : ∃ k, Run (StepOf (step .topwin default)) (start ⟨⟨0, 0⟩, ⟨640, 480⟩⟩)
      [.turn (.opened 0), .turn (.join 0), .turn (.request 0 "start kbd" []),
        .turn (.request 0 "key 97" []), .loop, .send "97", .loop,
        .turn (.request 0 "key 98" []), .send "98", .loop, .receive "97"] k ∧
      Send.kbd 0 97 ∈ k.session.wm.out :=
    Run.exists_of_exec (by decide +kernel)
  obtain ⟨hfed, hunblocked⟩ := injection_reliable.2 .topwin default _ _ k hrun
  exact ⟨k, hrun, hkey, hfed, hunblocked⟩

end Injector

end Aimsgui
