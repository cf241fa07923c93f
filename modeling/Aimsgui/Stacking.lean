import Aimsgui.Zorder
import Aimsgui.Lib.Run

/-!
# The z-order over any sequence of operations

`Stack` is a z-order of any number of clients, with those that have been removed: nothing is
done with a client after it has been removed. However the operations follow one another, and
although `bottom` may be the wrong client, the links from `zorder` on end, and they visit the
clients that were raised or lowered and not removed (`zorder_wellformed`).
-/

namespace Aimsgui

open Links Transition Zorder

/-- An operation on the z-order. -/
inductive Stacking where
  | top (c : Cid)
  | bottom (c : Cid)
  | remove (c : Cid)
  deriving DecidableEq, Repr

/-- The client that is moved. -/
def Stacking.client : Stacking → Cid
  | top c | bottom c | remove c => c

/-- A z-order, and the clients that have been removed. -/
structure Stack where
  q : Zorder
  removed : List Cid := []

namespace Stack

/-- `n` clients, none of them on the screen. -/
def start (n : Nat) : Stack := { q := { refs := n } }

/-- One operation of `Xwmsrv`, on a client that exists and has not been removed. -/
def step (s : Stack) (op : Stacking) : Option Stack :=
  if op.client < s.q.refs ∧ op.client ∉ s.removed then
    match op with
    | .top c => some { s with q := Xwmsrv.top s.q c }
    | .bottom c => some { s with q := Xwmsrv.bottom s.q c }
    | .remove c => some { q := Xwmsrv.remove s.q c, removed := c :: s.removed }
  else none

variable {s s' : Stack} {op : Stacking} {ops : List Stacking} {n : Nat} {l : List Cid} {c : Cid}

/-- The links list `l`, none of whose clients has been removed, and `bottom` is one of them. -/
structure Stacked (s : Stack) (l : List Cid) : Prop where
  standing : Standing s.q s.removed l
  anchored : Anchored s.q l

theorem Stacked.order_eq (h : s.Stacked l) : s.q.order = l := h.standing.listed.order_eq

theorem start_stacked : (start n).Stacked [] where
  standing :=
    { listed := ⟨.nil, List.nodup_nil, fun _ hm => absurd hm List.not_mem_nil, fun _ _ _ => rfl⟩
      present := fun _ hm => absurd hm List.not_mem_nil }
  anchored := by rintro b ⟨⟩

/-- What an operation does to the list of the clients: the one that is moved comes first, comes
last or stays there, or goes. -/
def Moved (l l' : List Cid) : Stacking → Prop
  | .top c => l' = c :: l.erase c
  | .bottom c => c ∈ l ∧ l' = l ∨ l' = l.erase c ++ [c]
  | .remove c => l' = l.erase c

/-- One operation: the links list what they should again. -/
theorem step_stacked (h : s.Stacked l) (hstep : s.step op = some s') :
    ∃ l', s'.Stacked l' ∧ Moved l l' op := by
  cases op with
  | top c =>
    simp only [step] at hstep
    split_ifs at hstep with hop
    obtain rfl := Option.some.inj hstep
    exact ⟨_, ⟨h.standing.xtop hop.1 hop.2, h.anchored.top h.standing.listed⟩, rfl⟩
  | bottom c =>
    simp only [step] at hstep
    split_ifs at hstep with hop
    obtain rfl := Option.some.inj hstep
    refine ⟨_, ⟨h.standing.xsink hop.1 hop.2, h.anchored.sink⟩, ?_⟩
    rw [Moved]
    split_ifs with hlast
    · exact Or.inl ⟨h.anchored c hlast, rfl⟩
    · exact Or.inr rfl
  | remove c =>
    simp only [step] at hstep
    split_ifs at hstep with hop
    obtain rfl := Option.some.inj hstep
    exact ⟨_, ⟨h.standing.xremove hop.2, h.anchored.remove h.standing.listed⟩, rfl⟩

/-- The other clients keep their order. -/
theorem Moved.erase_eq {l' : List Cid} (hnd : l.Nodup) (h : Moved l l' op) :
    l'.erase op.client = l.erase op.client := by
  have hnot : op.client ∉ l.erase op.client := not_mem_erase hnd
  cases op with
  | top c =>
    obtain rfl := h
    exact List.erase_cons_head ..
  | bottom c =>
    rcases h with ⟨-, rfl⟩ | rfl
    · rfl
    · have hlast : (l.erase c ++ [c]).erase c = l.erase c ++ [c].erase c :=
        List.erase_append_right _ hnot
      refine hlast.trans ?_
      rw [List.erase_cons_head, List.append_nil, Stacking.client]
  | remove c =>
    obtain rfl := h
    exact List.erase_of_not_mem hnot

/-- Who is listed after an operation. -/
theorem Moved.mem_iff {l' : List Cid} {a : Cid} (hnd : l.Nodup) (h : Moved l l' op) :
    a ∈ l' ↔ (a ∈ l ∨ op = .top a ∨ op = .bottom a) ∧ op ≠ .remove a := by
  cases op with
  | top c =>
    obtain rfl := h
    by_cases hac : a = c
    · simp [hac]
    · simp [hac, Ne.symm hac, List.mem_erase_of_ne hac]
  | bottom c =>
    rcases h with ⟨hc, rfl⟩ | rfl
    · by_cases hac : a = c
      · simp [hac, hc]
      · simp [Ne.symm hac]
    · by_cases hac : a = c
      · simp [hac]
      · simp [hac, Ne.symm hac, List.mem_erase_of_ne hac]
  | remove c =>
    obtain rfl := h
    by_cases hac : a = c
    · simp [hac, not_mem_erase hnd]
    · simp [Ne.symm hac, List.mem_erase_of_ne hac]

/-- What is known after the operations `ops`. -/
structure Recorded (ops : List Stacking) (s : Stack) : Prop where
  removed : ∀ c, c ∈ s.removed ↔ .remove c ∈ ops
  stacked : ∃ l, s.Stacked l ∧
    ∀ c, c ∈ l ↔ (.top c ∈ ops ∨ .bottom c ∈ ops) ∧ .remove c ∉ ops

/-- The client has not been removed before, and only `remove` removes it. -/
theorem step_removed (hstep : s.step op = some s') :
    op.client ∉ s.removed ∧ ∀ c, c ∈ s'.removed ↔ c ∈ s.removed ∨ op = .remove c := by
  cases op with
  | top c =>
    simp only [step] at hstep
    split_ifs at hstep with hop
    obtain rfl := Option.some.inj hstep
    exact ⟨hop.2, fun a => by simp⟩
  | bottom c =>
    simp only [step] at hstep
    split_ifs at hstep with hop
    obtain rfl := Option.some.inj hstep
    exact ⟨hop.2, fun a => by simp⟩
  | remove c =>
    simp only [step] at hstep
    split_ifs at hstep with hop
    obtain rfl := Option.some.inj hstep
    refine ⟨hop.2, fun a => ?_⟩
    rw [List.mem_cons, or_comm, Stacking.remove.injEq, eq_comm]

theorem step_recorded (h : Recorded ops s) (hstep : s.step op = some s') :
    Recorded (ops ++ [op]) s' := by
  obtain ⟨l, hl, hmem⟩ := h.stacked
  obtain ⟨l', hl', hmoved⟩ := step_stacked hl hstep
  obtain ⟨hkept, hremoved⟩ := step_removed hstep
  rw [h.removed] at hkept
  refine ⟨?_, l', hl', ?_⟩
  · intro c
    rw [hremoved, h.removed, List.mem_append, List.mem_singleton, eq_comm (a := op)]
  · intro c
    rw [hmoved.mem_iff hl.standing.listed.nodup, hmem]
    simp only [List.mem_append, List.mem_singleton, eq_comm (b := op), not_or]
    -- an operation other than a removal is on a client that has not been removed
    have htop : op = .top c → .remove c ∉ ops := by
      rintro rfl
      exact hkept
    have hbottom : op = .bottom c → .remove c ∉ ops := by
      rintro rfl
      exact hkept
    tauto

/-- After any operations on any clients, of which removing is the last one on a client: the
links end, they visit each client once that was raised or lowered and not removed, and no
other; a client that is raised comes first, and no operation changes the order of the
clients that it does not move. -/
theorem zorder_wellformed (h : Run (StepOf step) (start n) ops s) :
    Chain s.q.znext s.q.zorder s.q.order ∧ s.q.order.Nodup ∧
      (∀ c, c ∈ s.q.order ↔ (.top c ∈ ops ∨ .bottom c ∈ ops) ∧ .remove c ∉ ops) ∧
      (∀ c s', s.step (.top c) = some s' → s'.q.order.head? = some c) ∧
      ∀ op s', s.step op = some s' →
        s'.q.order.erase op.client = s.q.order.erase op.client := by
  have hrecorded : Recorded ops s := by
    refine h.traced ⟨fun c => ?_, [], start_stacked, fun c => ?_⟩ ?_
    · exact iff_of_false List.not_mem_nil List.not_mem_nil
    · simp
    · intro ops s op s' hs hstep
      exact step_recorded hs hstep
  obtain ⟨l, hl, hmem⟩ := hrecorded.stacked
  rw [hl.order_eq]
  refine ⟨hl.standing.listed.chain, hl.standing.listed.nodup, hmem, ?_, ?_⟩
  · intro c s' hstep
    obtain ⟨l', hl', hmoved⟩ := step_stacked hl hstep
    obtain rfl : l' = c :: l.erase c := hmoved
    rw [hl'.order_eq, List.head?_cons]
  · intro op s' hstep
    obtain ⟨l', hl', hmoved⟩ := step_stacked hl hstep
    rw [hl'.order_eq]
    exact hmoved.erase_eq hl.standing.listed.nodup

/-- Four clients; the first is removed, which leaves `bottom` at the new first one, and then
the third is lowered. -/
theorem zorder_wellformed_four :
    ∃ s, Run (StepOf step) (start 4)
        [.bottom 0, .bottom 1, .bottom 2, .bottom 3, .remove 0, .bottom 1, .bottom 2] s ∧
      s.q.order = [1, 3, 2] ∧ Chain s.q.znext s.q.zorder s.q.order := by
  obtain ⟨s, hrun, horder⟩ : ∃ s, Run (StepOf step) (start 4)
      [.bottom 0, .bottom 1, .bottom 2, .bottom 3, .remove 0, .bottom 1, .bottom 2] s ∧
        s.q.order = [1, 3, 2] :=
    Run.exists_of_exec (by decide +kernel)
  exact ⟨s, hrun, horder, (zorder_wellformed hrun).1⟩

end Stack

end Aimsgui
