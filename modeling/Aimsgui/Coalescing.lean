import Aimsgui.Queues
import Aimsgui.Lib.Run
import Mathlib.Data.List.Chain

/-!
# Merging pointer events

A `Ptrqueue` merges an event into the one put last, if the buttons are the same, so that no
two neighbouring events should have the same buttons. `get` forgets the last event when the
front list runs out, even if the back list is not empty: the last event is then still in the
queue, and the next one is not merged into it. `peek` turns the back list over, so it can
bring this about. As long as no `get` takes the last element of the front list away from a
back list that is not empty, the events are merged as they should be, and the peeks do not
matter (`coalesces`).
-/

namespace Aimsgui

open Transition

/-- An operation on a `Ptrqueue`. -/
inductive Ptrop where
  /-- a record of an event is made -/
  | event (p : Pointer)
  | put (s : Ref)
  | get
  | peek
  deriving DecidableEq, Repr

/-- A `Ptrqueue`, and the records of the events. -/
structure Eventq where
  q : Ptrqueue := {}
  mem : List Pointer := []
  deriving DecidableEq, Repr

namespace Ptrqueue

variable {q q' : Ptrqueue} {a : Option Ref} {rest : List (Option Ref)}

/-- `get`, when it is known what the front list is after it has been refilled. -/
theorem get_eq (h : q.toFifo.refill.h = a :: rest) : q.get =
    (a, { toFifo := { q.toFifo.refill with h := rest }
          last := if rest.isEmpty then none else q.last }) := by
  rw [get, h]

theorem get_of_contents_nil (h : q.contents = []) : q.get.2.last = q.last := by
  have hrefill : q.toFifo.refill.h = [] := by
    rw [contents, ← Fifo.contents_refill] at h
    exact (List.append_eq_nil_iff.mp h).1
  rw [get, hrefill]

theorem refill_of_front (h : q.h = a :: rest) : q.toFifo.refill = q.toFifo := by
  rw [Fifo.refill, h]

/-- An empty front list is refilled with everything. -/
theorem refill_of_back (h : q.h = []) : q.toFifo.refill = { h := q.contents, t := [] } := by
  rw [Fifo.refill, h, contents, Fifo.contents, h, List.reverseAux_eq, List.append_nil]
  rfl

theorem peek_of_front (h : q.h = a :: rest) : q.peek.2.h = q.h := by
  have hrefill : q.toFifo.refill.h = a :: rest := by rw [refill_of_front h, h]
  rw [peek, get_eq hrefill, h]
  rfl

/-- Queues with the same events of which the front lists are empty are the same. -/
theorem eq_of_back (h : q.h = []) (h' : q'.h = []) (hcontents : q'.contents = q.contents)
    (hlast : q'.last = q.last) : q' = q := by
  obtain ⟨⟨front, back⟩, last⟩ := q
  obtain ⟨⟨front', back'⟩, last'⟩ := q'
  obtain rfl : front = [] := h
  obtain rfl : front' = [] := h'
  obtain rfl : last' = last := hlast
  obtain rfl : back' = back := List.reverse_injective hcontents
  rfl

end Ptrqueue

namespace Eventq

/-- The queue after an operation. Only records that have been made are put. -/
def step (s : Eventq) : Ptrop → Option Eventq
  | .event p => some { s with mem := s.mem ++ [p] }
  | .put r =>
    if r < s.mem.length then (s.q.put s.mem (some r)).map fun (q, mem) => { q := q, mem := mem }
    else none
  | .get => some { s with q := s.q.get.2 }
  | .peek => some { s with q := s.q.peek.2 }

/-- The buttons of the queued events. -/
def buttons (s : Eventq) : List (Option Int) := s.q.contents.map (Option.map (buttonsAt s.mem))

/-- No two neighbouring events in the queue have the same buttons. -/
def Distinct (s : Eventq) : Prop := s.buttons.IsChain (· ≠ ·)

instance (s : Eventq) : Decidable s.Distinct := inferInstanceAs (Decidable (List.IsChain _ _))

/-- The operation is not a `get` of the last element of the front list while there are more in
the back list. -/
def Unspoilt (s : Eventq) (op : Ptrop) : Prop :=
  op = .get → ¬ (s.q.h.length = 1 ∧ s.q.t ≠ [])

instance (s : Eventq) (op : Ptrop) : Decidable (Unspoilt s op) :=
  inferInstanceAs (Decidable (_ → _))

/-- `last` is the last event of the queue, and neighbouring events have different buttons. -/
structure Coalesced (s : Eventq) : Prop where
  last : s.q.contents.getLast? = s.q.last.map some
  bound : ∀ r, some r ∈ s.q.contents → r < s.mem.length
  distinct : s.Distinct

variable {s s' t t' : Eventq} {op : Ptrop} {ops : List Ptrop} {p : Pointer} {r : Ref}

/-! ## What an operation does -/

/-- Merging an event leaves the buttons of all records as they were. -/
theorem buttonsAt_merge {mem : List Pointer} {last : Ref}
    (h : buttonsAt mem r = buttonsAt mem last) :
    buttonsAt (mem.set last (mem.getD r default)) = buttonsAt mem := by
  funext a
  rw [buttonsAt, buttonsAt, List.getD_eq_getElem?_getD, List.getElem?_set]
  split_ifs with ha hlt
  · subst ha
    exact h
  · subst ha
    rw [List.getD_eq_getElem?_getD, List.getElem?_eq_none (not_lt.mp hlt)]
  · rw [List.getD_eq_getElem?_getD]

/-- An event that is put is appended to the queue, or merged into the last one. -/
theorem put_cases (h : s.step (.put r) = some s') : r < s.mem.length ∧
    ((∀ last, s.q.last = some last → buttonsAt s.mem r ≠ buttonsAt s.mem last) ∧
        s' = { s with q := { toFifo := s.q.toFifo.put (some r), last := some r } } ∨
      ∃ last, s.q.last = some last ∧ buttonsAt s.mem r = buttonsAt s.mem last ∧
        s' = { s with mem := s.mem.set last (s.mem.getD r default) }) := by
  rw [step] at h
  split_ifs at h with hr
  refine ⟨hr, ?_⟩
  by_cases hsame : ∃ last, s.q.last = some last ∧ buttonsAt s.mem r = buttonsAt s.mem last
  · obtain ⟨last, hlast, hbuttons⟩ := hsame
    rw [Ptrqueue.put_merge s.q hlast hbuttons] at h
    exact Or.inr ⟨last, hlast, hbuttons, (Option.some.inj h).symm⟩
  · have hne : ∀ last, s.q.last = some last → buttonsAt s.mem r ≠ buttonsAt s.mem last :=
      fun last hlast hbuttons => hsame ⟨last, hlast, hbuttons⟩
    rw [Ptrqueue.put_append s.q hne] at h
    exact Or.inl ⟨hne, (Option.some.inj h).symm⟩

/-- A queue that is not empty, after the front list has been refilled: if only one event is in
front, there are no others. -/
theorem refill_cases {a : Option Ref} {cs : List (Option Ref)} (hcontents : s.q.contents = a :: cs)
    (hok : Unspoilt s .get) : ∃ rest back, s.q.toFifo.refill = { h := a :: rest, t := back } ∧
      rest ++ back.reverse = cs ∧ (rest = [] → cs = []) := by
  cases hfront : s.q.h with
  | nil =>
    rw [Ptrqueue.refill_of_back hfront, hcontents]
    exact ⟨cs, [], rfl, List.append_nil _, id⟩
  | cons b rest =>
    have hsplit : b :: (rest ++ s.q.t.reverse) = a :: cs := by
      rw [← hcontents, Ptrqueue.contents, Fifo.contents, hfront, List.cons_append]
    obtain ⟨rfl, hrest⟩ := List.cons_eq_cons.mp hsplit
    refine ⟨rest, s.q.t, ?_, hrest, ?_⟩
    · rw [Ptrqueue.refill_of_front hfront, ← hfront]
    · rintro rfl
      have hback : s.q.t = [] := by
        by_contra hne
        exact hok rfl ⟨by rw [hfront]; rfl, hne⟩
      rw [← hrest, hback]
      rfl

/-- With `Unspoilt`, `get` forgets the last event only if it takes it away. -/
theorem last_get (h : s.q.contents.getLast? = s.q.last.map some) (hok : Unspoilt s .get) :
    s.q.contents.tail.getLast? = s.q.get.2.last.map some := by
  cases hcontents : s.q.contents with
  | nil =>
    rw [Ptrqueue.get_of_contents_nil hcontents, ← h, hcontents]
    rfl
  | cons a cs =>
    obtain ⟨rest, back, hrefill, hcs, hall⟩ := refill_cases hcontents hok
    have hget := Ptrqueue.get_eq (q := s.q) (congrArg Fifo.h hrefill)
    rw [hget, List.tail_cons]
    cases rest with
    | nil =>
      rw [hall rfl]
      rfl
    | cons b rest =>
      rw [hcontents, ← hcs, List.cons_append, List.getLast?_cons_cons] at h
      rw [← hcs]
      exact h

/-! ## The step -/

theorem Coalesced.event (h : Coalesced s) (p : Pointer) :
    Coalesced { s with mem := s.mem ++ [p] } where
  last := h.last
  bound r hr := by
    calc r < s.mem.length := h.bound r hr
      _ ≤ (s.mem ++ [p]).length := by
        rw [List.length_append]
        omega
  distinct := by
    have hbuttons : s.q.contents.map (Option.map (buttonsAt (s.mem ++ [p]))) = s.buttons := by
      refine List.map_congr_left ?_
      rintro (_ | r) hr
      · rfl
      · exact congrArg some (buttonsAt_old s.mem p (h.bound r hr))
    rw [Distinct, buttons, hbuttons]
    exact h.distinct

theorem Coalesced.put (h : Coalesced s) (hstep : s.step (.put r) = some s') : Coalesced s' := by
  obtain ⟨hr, ⟨hne, rfl⟩ | ⟨last, hlast, hbuttons, rfl⟩⟩ := put_cases hstep
  · have hcontents : (s.q.toFifo.put (some r)).contents = s.q.contents ++ [some r] :=
      Fifo.contents_put _ _
    refine ⟨?_, ?_, ?_⟩
    · rw [Ptrqueue.contents, hcontents, List.getLast?_concat]
      rfl
    · intro a ha
      rw [Ptrqueue.contents, hcontents] at ha
      rcases List.mem_append.mp ha with ha | ha
      · exact h.bound a ha
      · obtain rfl := Option.some.inj (List.mem_singleton.mp ha)
        exact hr
    · rw [Distinct, buttons, Ptrqueue.contents, hcontents, List.map_append, List.isChain_append]
      refine ⟨h.distinct, List.isChain_singleton _, ?_⟩
      -- the last event of the queue is `last`, whose buttons are others
      intro x hx y hy
      rw [List.getLast?_map, h.last] at hx
      obtain rfl := Option.some.inj hy
      cases hlast : s.q.last with
      | none =>
        rw [hlast] at hx
        cases hx
      | some last =>
        rw [hlast] at hx
        obtain rfl := Option.some.inj hx
        intro heq
        exact hne last hlast (Option.some.inj heq).symm
  · refine ⟨h.last, ?_, ?_⟩
    · intro a ha
      rw [List.length_set]
      exact h.bound a ha
    · rw [Distinct, buttons, buttonsAt_merge hbuttons]
      exact h.distinct

/-- What an operation keeps. -/
theorem step_coalesced (h : Coalesced s) (hok : Unspoilt s op) (hstep : s.step op = some s') :
    Coalesced s' := by
  cases op with
  | event p =>
    obtain rfl := Option.some.inj hstep
    exact h.event p
  | put r => exact h.put hstep
  | get =>
    obtain rfl := Option.some.inj hstep
    refine ⟨?_, ?_, ?_⟩
    · rw [Ptrqueue.contents_get]
      exact last_get h.last hok
    · intro a ha
      rw [Ptrqueue.contents_get] at ha
      exact h.bound a (List.mem_of_mem_tail ha)
    · rw [Distinct, buttons, Ptrqueue.contents_get, List.map_tail]
      exact h.distinct.tail
  | peek =>
    obtain rfl := Option.some.inj hstep
    refine ⟨?_, ?_, ?_⟩
    · rw [Ptrqueue.contents_peek, Ptrqueue.peek_last]
      exact h.last
    · intro a ha
      rw [Ptrqueue.contents_peek] at ha
      exact h.bound a ha
    · rw [Distinct, buttons, Ptrqueue.contents_peek]
      exact h.distinct

/-! ## The same without the peeks -/

/-- `s'` holds what `s` holds, and more of it in front, if it has turned its back list over. -/
structure Ahead (s s' : Eventq) : Prop where
  mem : s'.mem = s.mem
  contents : s'.q.contents = s.q.contents
  last : s'.q.last = s.q.last
  back : s.q.h = [] → s'.q.h = []
  front : s'.q.h = [] ∨ s.q.h <+: s'.q.h

theorem Ahead.refl (s : Eventq) : Ahead s s := ⟨rfl, rfl, rfl, id, Or.inr (List.prefix_refl _)⟩

/-- A `peek` may turn the back list over. -/
theorem Ahead.peek (h : Ahead s s') : Ahead { s with q := s.q.peek.2 } s' := by
  refine ⟨h.mem, h.contents.trans (Ptrqueue.contents_peek _).symm,
    h.last.trans (Ptrqueue.peek_last _).symm, ?_, ?_⟩
  · intro hback
    cases hfront : s.q.h with
    | nil => exact h.back hfront
    | cons a rest =>
      rw [Ptrqueue.peek_of_front hfront, hfront] at hback
      cases hback
  · cases hfront : s.q.h with
    | nil => exact Or.inl (h.back hfront)
    | cons a rest =>
      rw [Ptrqueue.peek_of_front hfront]
      exact h.front

/-- What is in front of `s` is in front of `s'` once that has been refilled. -/
theorem Ahead.prefix_refill (h : Ahead s s') : s.q.toFifo.refill.h <+: s'.q.toFifo.refill.h := by
  cases hfront : s.q.h with
  | nil =>
    have hsame := Ptrqueue.eq_of_back hfront (h.back hfront) h.contents h.last
    exact hsame ▸ List.prefix_rfl
  | cons a rest =>
    rw [Ptrqueue.refill_of_front hfront]
    rcases h.front with hback | hprefix
    · rw [Ptrqueue.refill_of_back hback, h.contents]
      exact List.prefix_append _ _
    · obtain ⟨more, hmore⟩ := hprefix
      rw [hfront, List.cons_append] at hmore
      rw [Ptrqueue.refill_of_front hmore.symm, ← hmore, hfront, ← List.cons_append]
      exact List.prefix_append _ _

theorem Ahead.unspoilt (h : Ahead s s') (hok : Unspoilt s .get) : Unspoilt s' .get := by
  rintro - ⟨hone, hback'⟩
  obtain ⟨a, hfront'⟩ := List.length_eq_one_iff.mp hone
  have hcontents : s.q.contents = a :: s'.q.t.reverse := by
    rw [← h.contents, Ptrqueue.contents, Fifo.contents, hfront']
    rfl
  obtain ⟨rest, back, hrefill, -, hall⟩ := refill_cases hcontents hok
  have hprefix := h.prefix_refill
  rw [hrefill, Ptrqueue.refill_of_front hfront', hfront'] at hprefix
  obtain ⟨more, hmore⟩ := hprefix
  obtain ⟨rfl, -⟩ := List.append_eq_nil_iff.mp (List.cons_eq_cons.mp hmore).2
  exact hback' (List.reverse_eq_nil_iff.mp (hall rfl))

/-- `get` takes the same event from both queues. -/
theorem Ahead.get (h : Ahead s s') (hok : Unspoilt s .get) :
    Ahead { s with q := s.q.get.2 } { s' with q := s'.q.get.2 } := by
  have hcontents : s'.q.get.2.contents = s.q.get.2.contents := by
    rw [Ptrqueue.contents_get, Ptrqueue.contents_get, h.contents]
  cases hs : s.q.contents with
  | nil =>
    have hs' : s'.q.contents = [] := h.contents.trans hs
    have hback : ∀ q : Ptrqueue, q.contents = [] → q.get.2.h = [] := by
      intro q hq
      have hempty : q.get.2.contents = [] := by rw [Ptrqueue.contents_get, hq, List.tail_nil]
      exact (List.append_eq_nil_iff.mp hempty).1
    refine ⟨h.mem, hcontents, ?_, fun _ => hback _ hs', Or.inl (hback _ hs')⟩
    rw [Ptrqueue.get_of_contents_nil hs, Ptrqueue.get_of_contents_nil hs']
    exact h.last
  | cons a cs =>
    have hs' : s'.q.contents = a :: cs := h.contents.trans hs
    obtain ⟨rest, back, hrefill, hcs, hall⟩ := refill_cases hs hok
    obtain ⟨rest', back', hrefill', hcs', hall'⟩ := refill_cases hs' (h.unspoilt hok)
    have hprefix := h.prefix_refill
    rw [hrefill, hrefill'] at hprefix
    obtain ⟨more, hmore⟩ := hprefix
    obtain rfl := (List.cons_eq_cons.mp hmore).2
    -- both fronts run out at the same time, since then there is nothing left
    have hempty : rest = [] → more = [] := by
      rintro rfl
      rw [hall rfl] at hcs'
      exact (List.append_eq_nil_iff.mp hcs').1
    have hget := Ptrqueue.get_eq (q := s.q) (congrArg Fifo.h hrefill)
    have hget' := Ptrqueue.get_eq (q := s'.q) (congrArg Fifo.h hrefill')
    refine ⟨h.mem, hcontents, ?_, ?_, ?_⟩
    · simp only [hget, hget', h.last]
      cases rest with
      | nil =>
        rw [hempty rfl]
        rfl
      | cons b rest => rfl
    · simp only [hget, hget']
      rintro rfl
      rw [hempty rfl]
      rfl
    · simp only [hget, hget']
      exact Or.inr (List.prefix_append _ _)

/-- Both queues do the same. -/
theorem Ahead.step (h : Ahead s s') (hok : Unspoilt s op) (hop : op ≠ .peek)
    (hstep : s.step op = some t) : ∃ t', s'.step op = some t' ∧ Unspoilt s' op ∧ Ahead t t' := by
  cases op with
  | event p =>
    obtain rfl := Option.some.inj hstep
    refine ⟨_, rfl, nofun, ?_, h.contents, h.last, h.back, h.front⟩
    rw [h.mem]
  | put r =>
    obtain ⟨hr, ⟨hne, rfl⟩ | ⟨last, hlast, hbuttons, rfl⟩⟩ := put_cases hstep
    · refine ⟨{ s' with q := { toFifo := s'.q.toFifo.put (some r), last := some r } }, ?_, nofun,
        h.mem, ?_, rfl, h.back, h.front⟩
      · rw [Eventq.step, if_pos (h.mem ▸ hr), h.mem, Ptrqueue.put_append s'.q (h.last ▸ hne)]
        rfl
      · have hcontents : s'.q.toFifo.contents = s.q.toFifo.contents := h.contents
        rw [Ptrqueue.contents, Ptrqueue.contents, Fifo.contents_put, Fifo.contents_put, hcontents]
    · refine ⟨{ s' with mem := s.mem.set last (s.mem.getD r default) }, ?_, nofun, rfl, h.contents,
        h.last, h.back, h.front⟩
      rw [Eventq.step, if_pos (h.mem ▸ hr), h.mem,
        Ptrqueue.put_merge s'.q (h.last.trans hlast) hbuttons]
      rfl
  | get =>
    obtain rfl := Option.some.inj hstep
    exact ⟨_, rfl, h.unspoilt hok, h.get hok⟩
  | peek => exact absurd rfl hop

/-- The run of the operations other than `peek`. -/
theorem unpeeked (h : Run (Guarded Unspoilt (StepOf step)) {} ops s) :
    ∃ s', Run (Guarded Unspoilt (StepOf step)) {} (ops.filter (· ≠ .peek)) s' ∧ Ahead s s' := by
  induction h with
  | nil => exact ⟨{}, Run.nil, Ahead.refl _⟩
  | @snoc ops op s t hrun hstep ih =>
    obtain ⟨s', hrun', hahead⟩ := ih
    by_cases hop : op = .peek
    · subst hop
      obtain rfl := Option.some.inj hstep.2
      refine ⟨s', ?_, hahead.peek⟩
      rw [List.filter_append, List.filter_cons_of_neg (by simp), List.filter_nil, List.append_nil]
      exact hrun'
    · obtain ⟨t', hstep', hok', hahead'⟩ := hahead.step hstep.1 hop hstep.2
      refine ⟨t', ?_, hahead'⟩
      rw [List.filter_append, List.filter_cons_of_pos (by simpa using hop), List.filter_nil]
      exact hrun'.snoc ⟨hok', hstep'⟩

/-- After a `get` that is not `Unspoilt`, the next event with the buttons of the last one is not
merged into it. -/
theorem exists_neighbours (h : Coalesced s) (hspoilt : ¬ Unspoilt s .get) :
    ∃ p t, Run (StepOf step) s [.get, .event p, .put s.mem.length] t ∧ ¬ t.Distinct := by
  obtain ⟨hone, hback⟩ : s.q.h.length = 1 ∧ s.q.t ≠ [] := by
    by_contra hok
    exact hspoilt fun _ => hok
  obtain ⟨a, hfront⟩ := List.length_eq_one_iff.mp hone
  obtain ⟨b, back, hcons⟩ := List.exists_cons_of_ne_nil hback
  have hcontents : s.q.contents = a :: (back.reverse ++ [b]) := by
    rw [Ptrqueue.contents, Fifo.contents, hfront, hcons, List.reverse_cons]
    rfl
  -- the last event is in the back list, and stays in the queue
  obtain ⟨r, -, rfl⟩ : ∃ r, s.q.last = some r ∧ some r = b := by
    have hlast := h.last
    rw [hcontents, ← List.cons_append, List.getLast?_concat] at hlast
    exact Option.map_eq_some_iff.mp hlast.symm
  have hbound : r < s.mem.length := h.bound r (hcontents ▸ by simp)
  have hget : s.q.get.2.last = none := by
    have hrefill : s.q.toFifo.refill.h = [a] := by
      rw [Ptrqueue.refill_of_front hfront, hfront]
    rw [Ptrqueue.get_eq hrefill]
    rfl
  let p := s.mem.getD r default
  let q := { toFifo := s.q.get.2.toFifo.put (some s.mem.length), last := some s.mem.length : Ptrqueue }
  have hput : step ⟨s.q.get.2, s.mem ++ [p]⟩ (.put s.mem.length) = some ⟨q, s.mem ++ [p]⟩ := by
    rw [step, if_pos (by simp)]
    rw [Ptrqueue.put_append s.q.get.2 fun last hlast => by rw [hget] at hlast; cases hlast]
    rfl
  have hafter : q.contents = back.reverse ++ [some r] ++ [some s.mem.length] := by
    have htail : s.q.get.2.toFifo.contents = back.reverse ++ [some r] := by
      have hcontents' := Ptrqueue.contents_get s.q
      rw [hcontents] at hcontents'
      exact hcontents'
    rw [← htail]
    exact Fifo.contents_put _ _
  have hget' : s.step .get = some ⟨s.q.get.2, s.mem⟩ := rfl
  refine ⟨p, ⟨q, s.mem ++ [p]⟩, ((Run.single hget').snoc rfl).snoc hput, fun hdistinct => ?_⟩
  rw [Distinct, buttons, hafter, List.map_append, List.isChain_append, List.map_append] at hdistinct
  refine hdistinct.2.2 _ (List.getLast?_concat ..) _ rfl (congrArg some ?_)
  rw [buttonsAt_old s.mem p hbound, buttonsAt_new]
  rfl

/-- From the empty queue on, as long as no `get` takes the last element of the front list away
from a back list that is not empty: no two neighbouring events have the same buttons; `peek`
leaves the queue as it is; and without the peeks the queue would be the same. Any other `get`
makes it possible that two neighbouring events have the same buttons. -/
theorem coalesces (h : Run (Guarded Unspoilt (StepOf step)) {} ops s) :
    Coalesced s ∧
      (∀ t, s.step .peek = some t →
        t.q.contents = s.q.contents ∧ t.q.last = s.q.last ∧ t.mem = s.mem) ∧
      (∃ s', Run (Guarded Unspoilt (StepOf step)) {} (ops.filter (· ≠ .peek)) s' ∧
        s'.q.contents = s.q.contents ∧ s'.q.last = s.q.last ∧ s'.mem = s.mem) ∧
      (¬ Unspoilt s .get →
        ∃ p t, Run (StepOf step) s [.get, .event p, .put s.mem.length] t ∧ ¬ t.Distinct) := by
  have hstart : Coalesced {} :=
    ⟨rfl, fun _ hr => absurd hr List.not_mem_nil, List.isChain_nil⟩
  have hcoalesced : Coalesced s :=
    h.invariant hstart fun _ _ _ hs hstep => step_coalesced hs hstep.1 hstep.2
  obtain ⟨s', hrun', hahead⟩ := unpeeked h
  refine ⟨hcoalesced, ?_, ⟨s', hrun', hahead.contents, hahead.last, hahead.mem⟩,
    exists_neighbours hcoalesced⟩
  intro t ht
  obtain rfl := Option.some.inj ht
  exact ⟨Ptrqueue.contents_peek _, Ptrqueue.peek_last _, rfl⟩

/-- Two events with different buttons are merged with what follows them as they should be. -/
theorem coalesces_two : ∃ s, Run (Guarded Unspoilt (StepOf step)) {}
    [.event ⟨0, ⟨0, 0⟩, 0⟩, .put 0, .peek, .event ⟨1, ⟨1, 1⟩, 1⟩, .event ⟨1, ⟨2, 2⟩, 2⟩, .put 1,
      .put 2] s ∧ s.buttons = [some 0, some 1] ∧ s.Distinct := by
  obtain ⟨s, hrun, hbuttons⟩ : ∃ s, Run (Guarded Unspoilt (StepOf step)) {}
      [.event ⟨0, ⟨0, 0⟩, 0⟩, .put 0, .peek, .event ⟨1, ⟨1, 1⟩, 1⟩, .event ⟨1, ⟨2, 2⟩, 2⟩, .put 1,
        .put 2] s ∧ s.buttons = [some 0, some 1] :=
    Run.exists_of_execGuarded (by decide +kernel)
  exact ⟨s, hrun, hbuttons, (coalesces hrun).1.distinct⟩

/-- After a `peek`, two events with the same buttons are queued one after the other; without the
`peek` they are merged. -/
theorem peek_keeps_apart :
    (∃ s, Run (StepOf step) {} [.event ⟨0, ⟨0, 0⟩, 0⟩, .put 0, .peek, .event ⟨1, ⟨1, 1⟩, 1⟩, .put 1,
      .get, .event ⟨1, ⟨2, 2⟩, 2⟩, .put 2] s ∧ s.buttons = [some 1, some 1] ∧ ¬ s.Distinct) ∧
    ∃ s, Run (StepOf step) {} [.event ⟨0, ⟨0, 0⟩, 0⟩, .put 0, .event ⟨1, ⟨1, 1⟩, 1⟩, .put 1,
      .get, .event ⟨1, ⟨2, 2⟩, 2⟩, .put 2] s ∧ s.buttons = [some 1] :=
  ⟨Run.exists_of_exec (by decide +kernel), Run.exists_of_exec (by decide +kernel)⟩

end Eventq

end Aimsgui
