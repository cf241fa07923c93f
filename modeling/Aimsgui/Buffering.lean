import Aimsgui.Childminder

/-!
# Keys and control messages are buffered reliably

What the window manager sends to a client on `kbd` and `ctl` reaches the client
in order, without loss or duplication, whatever else `childminder` is doing: the
two queues are FIFOs in both phases of the process, the `peek`s at the top of
the loop rebalance them without changing their contents, and no other branch
touches them.

`step_moves` says what one communication moves in the two queues; `run_moves`
adds the moves of a run up.
-/

namespace Aimsgui

open Transition

namespace Act

/-- The keys the window manager sends in a communication. -/
def keysSent : Act → List Int
  | .key k => [k]
  | _ => []

/-- The keys the client receives in a communication. -/
def keysReceived : Act → List Int
  | .outkbd k => [k]
  | _ => []

/-- The control messages the window manager sends in a communication. -/
def ctlSent : Act → List String
  | .ctl e => [e]
  | _ => []

/-- The control messages the client receives in a communication. -/
def ctlReceived : Act → List String
  | .outctl e => [e]
  | _ => []

end Act

namespace Childminder

/-- What the communication `a` moves in the two queues between `m` and `m'`. -/
def Moves (m : Childminder) (a : Act) (m' : Childminder) : Prop :=
  Fifo.Moves m.kbdq a.keysSent a.keysReceived m'.kbdq ∧
    Fifo.Moves m.ctlq a.ctlSent a.ctlReceived m'.ctlq

/-- A branch that leaves both queues alone moves nothing, if it is not about them. -/
theorem moves_of_eq {m m' : Childminder} {a : Act}
    (ha : a.keysSent = [] ∧ a.keysReceived = [] ∧ a.ctlSent = [] ∧ a.ctlReceived = [])
    (hk : m'.kbdq = m.kbdq) (hc : m'.ctlq = m.ctlq) : Moves m a m' := by
  obtain ⟨h₁, h₂, h₃, h₄⟩ := ha
  rw [Moves, h₁, h₂, h₃, h₄, hk, hc]
  exact ⟨Fifo.Moves.of_contents_eq rfl, Fifo.Moves.of_contents_eq rfl⟩

theorem moves_key (m : Childminder) (k : Int) :
    Moves m (.key k) { m with kbdq := m.kbdq.put k } :=
  ⟨Fifo.Moves.put _ _, Fifo.Moves.of_contents_eq rfl⟩

theorem moves_ctl (m : Childminder) (e : String) :
    Moves m (.ctl e) { m with ctlq := m.ctlq.put e } :=
  ⟨Fifo.Moves.of_contents_eq rfl, Fifo.Moves.put _ _⟩

/-- The `Reply` loop: only `key` and `ctl` move anything. -/
theorem replyAlt_moves {m m' : Childminder} {a : Act} (h : m.replyAlt a = some m') :
    Moves m a m' := by
  cases a
  case key k =>
    obtain rfl := Option.some.inj h
    exact moves_key m k
  case ctl e =>
    obtain rfl := Option.some.inj h
    exact moves_ctl m e
  case reply | stop =>
    obtain rfl := Option.some.inj h
    exact moves_of_eq ⟨rfl, rfl, rfl, rfl⟩ rfl rfl
  case ptr p =>
    obtain rfl := Option.some.inj h
    exact moves_of_eq ⟨rfl, rfl, rfl, rfl⟩ (putptr_kbdq m p) (putptr_ctlq m p)
  all_goals cases h

/-- The main loop: the client receives the heads that are offered, the window
manager's messages join at the back, and the other branches move nothing. -/
theorem mainAlt_moves {m m' : Childminder} {o : Offer} {a : Act}
    (hkey : o.key = m.kbdq.contents.head?) (hctl : o.ctl = m.ctlq.contents.head?)
    (h : m.mainAlt o a = some m') : Moves m a m' := by
  cases a <;> simp only [mainAlt] at h
  case outkbd k =>
    split at h
    · rename_i hk
      obtain rfl := Option.some.inj h
      exact ⟨Fifo.Moves.get (hkey ▸ hk), Fifo.Moves.of_contents_eq rfl⟩
    · cases h
  case outctl e =>
    split at h
    · rename_i he
      obtain rfl := Option.some.inj h
      exact ⟨Fifo.Moves.of_contents_eq rfl, Fifo.Moves.get (hctl ▸ he)⟩
    · cases h
  case outptr p =>
    split at h
    · obtain rfl := Option.some.inj h
      exact moves_of_eq ⟨rfl, rfl, rfl, rfl⟩ rfl rfl
    · cases h
  case outimg i =>
    split at h
    · obtain ⟨hk, hc, -⟩ := imgsent_frame h
      exact moves_of_eq ⟨rfl, rfl, rfl, rfl⟩ hk hc
    · cases h
  case key k =>
    obtain rfl := Option.some.inj h
    exact moves_key m k
  case ctl e =>
    obtain rfl := Option.some.inj h
    exact moves_ctl m e
  case ptr p =>
    cases p with
    | none =>
      obtain rfl := Option.some.inj h
      exact moves_of_eq ⟨rfl, rfl, rfl, rfl⟩ rfl rfl
    | some p =>
      obtain rfl := Option.some.inj h
      exact moves_of_eq ⟨rfl, rfl, rfl, rfl⟩ (putptr_kbdq m _) (putptr_ctlq m _)
  case image p i answer =>
    split at h <;> split at h
    case isTrue.isTrue =>
      obtain rfl := Option.some.inj h
      exact moves_of_eq ⟨rfl, rfl, rfl, rfl⟩ rfl rfl
    case isFalse.isTrue =>
      obtain rfl := Option.some.inj h
      exact moves_of_eq ⟨rfl, rfl, rfl, rfl⟩ (imgaccept_kbdq m p i) (imgaccept_ctlq m p i)
    all_goals cases h
  case stop =>
    obtain rfl := Option.some.inj h
    exact moves_of_eq ⟨rfl, rfl, rfl, rfl⟩ rfl rfl
  case reply => cases h

/-- Peeking rebalances the queues without changing their contents. -/
theorem Moves.of_peeked {m m' : Childminder} {a : Act} (h : Moves m.peeked a m') :
    Moves m a m' := by
  obtain ⟨hk, hc⟩ := h
  unfold Fifo.Moves at hk hc
  rw [peeked_kbdq_contents] at hk
  rw [peeked_ctlq_contents] at hc
  exact ⟨hk, hc⟩

/-- One communication of the process, in either phase. -/
theorem step_moves {m m' : Childminder} {a : Act} (h : Step m a m') : Moves m a m' := by
  simp only [StepOf, step] at h
  split at h
  · exact replyAlt_moves h
  · refine Moves.of_peeked (mainAlt_moves ?_ ?_ h)
    · rw [peeked_kbdq_contents, offers_key]
    · rw [peeked_ctlq_contents, offers_ctl]
  · cases h

/-- The moves of a run add up, from any state of the process. -/
theorem run_moves {m m' : Childminder} {as : List Act} (h : Run Step m as m') :
    Fifo.Moves m.kbdq (as.flatMap Act.keysSent) (as.flatMap Act.keysReceived) m'.kbdq ∧
      Fifo.Moves m.ctlq (as.flatMap Act.ctlSent) (as.flatMap Act.ctlReceived) m'.ctlq := by
  refine h.traced
    (J := fun as m' =>
      Fifo.Moves m.kbdq (as.flatMap Act.keysSent) (as.flatMap Act.keysReceived) m'.kbdq ∧
        Fifo.Moves m.ctlq (as.flatMap Act.ctlSent) (as.flatMap Act.ctlReceived) m'.ctlq)
    ⟨Fifo.Moves.of_contents_eq rfl, Fifo.Moves.of_contents_eq rfl⟩ ?_
  rintro as m₁ a m₂ ⟨hk, hc⟩ hstep
  obtain ⟨hk', hc'⟩ := step_moves hstep
  simp only [List.flatMap_append, List.flatMap_cons, List.flatMap_nil, List.append_nil]
  exact ⟨hk.trans hk', hc.trans hc'⟩

/-- **Reliable buffering.** In every run of a client's `childminder`, from its
start and through both of its phases, the keys and the control messages that the
client has received are prefixes of those that were sent, and what was sent but
not received is exactly what is queued, in order. -/
theorem buffering_reliable (as : List Act) (m : Childminder) (h : Run Step start as m) :
    (as.flatMap Act.keysReceived <+: as.flatMap Act.keysSent ∧
      as.flatMap Act.keysSent = as.flatMap Act.keysReceived ++ m.kbdq.contents) ∧
    (as.flatMap Act.ctlReceived <+: as.flatMap Act.ctlSent ∧
      as.flatMap Act.ctlSent = as.flatMap Act.ctlReceived ++ m.ctlq.contents) := by
  obtain ⟨hk, hc⟩ := run_moves h
  exact ⟨⟨⟨_, hk.ins_eq.symm⟩, hk.ins_eq⟩, ⟨⟨_, hc.ins_eq.symm⟩, hc.ins_eq⟩⟩

/-- Two keys sent around the connection reply, the first received by the client. -/
theorem buffering_reliable_run :
    [Act.key 97, .ctl "raise", .reply, .key 98, .outkbd 97].flatMap Act.keysSent =
      [97] ++ [98] := by
  have h : exec step start [.key 97, .ctl "raise", .reply, .key 98, .outkbd 97] =
      some { start with phase := .main, kbdq := ⟨[], [98]⟩, ctlq := ⟨["raise"], []⟩ } := by
    decide
  exact (buffering_reliable _ _ (Run.of_exec h)).1.2

end Childminder
end Aimsgui
