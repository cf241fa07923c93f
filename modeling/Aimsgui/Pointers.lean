import Aimsgui.Childminder
import Aimsgui.Lib.Coalesce
import Mathlib.Data.List.Nodup

/-!
# Pointer events are coalesced, not lost

`Ptrqueue` merges a new event into `last`, the record queued last, when the two
have the same button state. That is sound as long as `last` refers to a record
that is still queued. `get` clears `last` with the front list and `peek` puts it
back, but `flush` empties the queue and leaves `last` behind: the next event, if
it has the button state of the flushed record, is written into a record that
nobody will ever receive. And a record is not always the queue's own: when the
pointer leaves a window, the manager sends one and the same record to the client
that loses the pointer and to the one that gets it, and either may overwrite it
while it is queued for the other.

`run_kept` shows that these are the only ways to lose an event: in every run whose
steps avoid them (`Safe`) the queue keeps a ledger of everything sent to it.
-/

namespace Aimsgui

open Transition Coalesce

namespace Act

/-- What the window manager sends on `ptr` in a communication: an event or a flush. -/
def ptrSent : Act → List (Option Pointer)
  | .ptr p => [p]
  | _ => []

/-- What the client receives on its pointer channel in a communication. -/
def ptrReceived : Act → List (Option Pointer)
  | .outptr p => [p]
  | _ => []

end Act

/-- What happens to a childminder's queues and records. -/
inductive Incident where
  /-- a communication of its own -/
  | comm (a : Act)
  /-- another client's `childminder` does `*q.last = *s` to a record that has been sent to both -/
  | merged (r : Ref) (p : Pointer)
  deriving DecidableEq, Repr

/-- The communications among the incidents. -/
def Incident.comms (xs : List Incident) : List Act :=
  xs.flatMap fun
    | comm a => [a]
    | merged _ _ => []

namespace Childminder

/-- One incident. A record is only overwritten by an event with its button state. -/
def meet (m : Childminder) : Incident → Option Childminder
  | .comm a => m.step a
  | .merged r p =>
    if r < m.mem.length ∧ (m.deref r).buttons = p.buttons then some { m with mem := m.mem.set r p }
    else none

/-- The process among those of the other clients. -/
abbrev Meets : Childminder → Incident → Childminder → Prop := Transition.StepOf meet

/-- The queued events, as their records are now. -/
def queued (m : Childminder) : List (Option Pointer) := m.ptrq.contents.map (Option.map m.deref)

/-- The event would be merged into `last`, but nothing is queued any more. -/
def stale (m : Childminder) (p : Pointer) : Bool :=
  match m.ptrq.last with
  | none => false
  | some r => (m.deref r).buttons = p.buttons && !m.ptrq.nonempty

/-- No event arrives that would be merged into a record that is not queued, and
markers to flush arrive in the main loop. -/
def NotStale (m : Childminder) : Act → Prop
  | .ptr none => m.phase = .main
  | .ptr (some p) => m.stale p = false
  | _ => True

instance (m : Childminder) (a : Act) : Decidable (NotStale m a) := by
  unfold NotStale
  split <;> infer_instance

/-- The communication is not stale, and no record is overwritten that is queued here. -/
def Safe (m : Childminder) : Incident → Prop
  | .comm a => NotStale m a
  | .merged r _ => some r ∉ m.ptrq.contents

instance (m : Childminder) : ∀ x, Decidable (Safe m x)
  | .comm a => inferInstanceAs (Decidable (NotStale m a))
  | .merged r _ => inferInstanceAs (Decidable (some r ∉ m.ptrq.contents))

/-! ## What `put` does -/

/-- The event is appended: it has no `last` to merge with. -/
theorem putptr_append {m : Childminder} {p : Pointer}
    (hlast : ∀ r, m.ptrq.last = some r → r < m.mem.length)
    (h : ∀ r, m.ptrq.last = some r → (m.deref r).buttons ≠ p.buttons) :
    m.putptr (some p) =
      { m with
        mem := m.mem ++ [p]
        ptrq := { toFifo := m.ptrq.toFifo.put (some m.mem.length), last := some m.mem.length } } := by
  have hput := @Ptrqueue.put_append m.ptrq (m.mem ++ [p]) m.mem.length (by
    intro r hl
    rw [buttonsAt_new, buttonsAt_old _ _ (hlast r hl)]
    exact (h r hl).symm)
  unfold putptr
  rw [show (m.arrive (some p)).1.ptrq.put (m.arrive (some p)).1.mem (m.arrive (some p)).2 = _
    from hput]
  rfl

/-- The event is merged into `last`. -/
theorem putptr_merge {m : Childminder} {p : Pointer} {r : Ref} (hl : m.ptrq.last = some r)
    (hr : r < m.mem.length) (h : (m.deref r).buttons = p.buttons) :
    m.putptr (some p) = { m with mem := (m.mem ++ [p]).set r p } := by
  have hput := @Ptrqueue.put_merge m.ptrq (m.mem ++ [p]) m.mem.length r hl (by
    rw [buttonsAt_new, buttonsAt_old _ _ hr]
    exact h.symm)
  unfold putptr
  rw [show (m.arrive (some p)).1.ptrq.put (m.arrive (some p)).1.mem (m.arrive (some p)).2 = _
    from hput]
  simp [arrive]

/-! ## The ledger of a client's pointer queue -/

/-- The references `rs` are what is queued, all of them refer to different records,
and `last`, when anything is queued, is the one queued last. -/
structure Refs (m : Childminder) (rs : List Ref) : Prop where
  contents : m.ptrq.contents = rs.map some
  nodup : rs.Nodup
  bound : ∀ r ∈ rs, r < m.mem.length
  last : ∀ r, m.ptrq.last = some r → r < m.mem.length ∧ (rs ≠ [] → rs.getLast? = some r)

/-- A ledger of what was sent and received, with `ds` and `qs` as the places of what
was delivered and of what is queued. -/
structure Keeps (m : Childminder) (sent received : List (Option Pointer)) (ds qs : List Nat)
    (rs : List Ref) : Prop where
  refs : Refs m rs
  ledger : Ledger Pointer.buttons sent ds qs
  delivered : ds.map (sent[·]?) = received.map some
  queued : qs.map (sent[·]?) = rs.map fun r => some (some (m.deref r))

variable {m m' : Childminder} {sent received : List (Option Pointer)} {ds qs : List Nat}
  {rs : List Ref} {p : Pointer}

/-- Places in `sent` keep their messages when another message is sent. -/
theorem map_getElem?_concat (x : Option Pointer) {js : List Nat} (h : ∀ j ∈ js, j < sent.length) :
    js.map ((sent ++ [x])[·]?) = js.map (sent[·]?) :=
  List.map_congr_left fun j hj => List.getElem?_append_left (h j hj)

theorem deref_eq_of_mem {r : Ref} (h : m'.mem = m.mem) : m'.deref r = m.deref r := by
  rw [deref, deref, h]

/-- Code that leaves the queue and the records alone keeps the ledger. -/
theorem Keeps.frame (h : Keeps m sent received ds qs rs)
    (hc : m'.ptrq.contents = m.ptrq.contents) (hl : m'.ptrq.last = m.ptrq.last)
    (hm : m'.mem = m.mem) : Keeps m' sent received ds qs rs where
  refs := by
    obtain ⟨hcont, hnd, hb, hlast⟩ := h.refs
    refine ⟨hc.trans hcont, hnd, ?_, ?_⟩
    · rw [hm]
      exact hb
    · rw [hl, hm]
      exact hlast
  ledger := h.ledger
  delivered := h.delivered
  queued := by
    rw [h.queued]
    exact List.map_congr_left fun r _ => by rw [deref_eq_of_mem hm]

theorem Keeps.bound_ds (h : Keeps m sent received ds qs rs) : ∀ j ∈ ds, j < sent.length :=
  fun j hj => h.ledger.bound j (List.mem_append_left _ hj)

theorem Keeps.bound_qs (h : Keeps m sent received ds qs rs) : ∀ j ∈ qs, j < sent.length :=
  fun j hj => h.ledger.bound j (List.mem_append_right _ hj)

/-- The event is appended to the queue. -/
theorem Keeps.append (h : Keeps m sent received ds qs rs)
    (hne : ∀ r, m.ptrq.last = some r → (m.deref r).buttons ≠ p.buttons) :
    Keeps (m.putptr (some p)) (sent ++ [some p]) received ds (qs ++ [sent.length])
      (rs ++ [m.mem.length]) := by
  obtain ⟨hcont, hnd, hb, hlast⟩ := h.refs
  rw [putptr_append (fun r hr => (hlast r hr).1) hne]
  refine ⟨⟨?_, ?_, ?_, ?_⟩, h.ledger.append p, ?_, ?_⟩
  · rw [Ptrqueue.contents, Fifo.contents_put, List.map_append, ← hcont]
    rfl
  · refine List.nodup_append.mpr ⟨hnd, List.nodup_singleton _, ?_⟩
    intro r hr r' hr'
    obtain rfl := List.mem_singleton.mp hr'
    exact Nat.ne_of_lt (hb r hr)
  · intro r hr
    change r < (m.mem ++ [p]).length
    rw [List.length_append, List.length_singleton]
    rcases List.mem_append.mp hr with hr | hr
    · exact Nat.lt_succ_of_lt (hb r hr)
    · exact List.mem_singleton.mp hr ▸ Nat.lt_succ_self _
  · intro r hr
    obtain rfl := Option.some.inj hr
    refine ⟨by simp, ?_⟩
    intro _
    exact List.getLast?_concat ..
  · rw [map_getElem?_concat _ h.bound_ds]
    exact h.delivered
  · rw [List.map_append, List.map_append, map_getElem?_concat _ h.bound_qs, h.queued]
    congr 1
    · refine List.map_congr_left ?_
      intro r hr
      simp only [deref, List.getD_eq_getElem?_getD, List.getElem?_append_left (hb r hr)]
    · simp [deref]

/-- The event is merged into the record queued last. -/
theorem Keeps.merge (h : Keeps m sent received ds qs rs) {r : Ref} (hl : m.ptrq.last = some r)
    (hbut : (m.deref r).buttons = p.buttons) (hne : rs ≠ []) :
    ∃ qs', Keeps (m.putptr (some p)) (sent ++ [some p]) received ds (qs' ++ [sent.length]) rs := by
  obtain ⟨hcont, hnd, hb, hlast⟩ := h.refs
  obtain ⟨hr, htail⟩ := hlast r hl
  rw [putptr_merge hl hr hbut]
  -- both the queue of references and the ledger's queue end in the record `r`
  obtain ⟨rs', rfl⟩ := List.getLast?_eq_some_iff.mp (htail hne)
  have hq := h.queued
  rw [List.map_append] at hq
  obtain ⟨qs', tl, rfl, hqs', htl⟩ := List.map_eq_append_iff.mp hq
  obtain ⟨j, rfl⟩ : ∃ j, tl = [j] := List.length_eq_one_iff.mp (by
    rw [← List.length_map (sent[·]?), htl]
    rfl)
  have hj : sent[j]? = some (some (m.deref r)) := by simpa using htl
  have hr' : ∀ a ∈ rs', a ≠ r := by
    intro a ha
    exact (List.nodup_append.mp hnd).2.2 a ha r (List.mem_singleton_self r)
  refine ⟨qs', ⟨hcont, hnd, ?_, ?_⟩, h.ledger.merge hj hbut, ?_, ?_⟩
  · intro a ha
    change a < ((m.mem ++ [p]).set r p).length
    rw [List.length_set, List.length_append]
    exact Nat.lt_succ_of_lt (hb a ha)
  · intro a ha
    obtain ⟨halt, hat⟩ := hlast a ha
    refine ⟨?_, hat⟩
    change a < ((m.mem ++ [p]).set r p).length
    rw [List.length_set, List.length_append]
    exact Nat.lt_succ_of_lt halt
  · rw [map_getElem?_concat _ h.bound_ds]
    exact h.delivered
  · rw [List.map_append, List.map_append, map_getElem?_concat, hqs']
    · congr 1
      · refine List.map_congr_left ?_
        intro a ha
        have halt := hb a (List.mem_append_left _ ha)
        simp only [deref, List.getD_eq_getElem?_getD, List.getElem?_set_ne (hr' a ha).symm,
          List.getElem?_append_left halt]
      · simp [deref, Nat.lt_succ_of_lt hr]
    · intro k hk
      exact h.bound_qs k (List.mem_append_left _ hk)

/-- An event arrives that is not stale. -/
theorem Keeps.put (h : Keeps m sent received ds qs rs) (hs : m.stale p = false) :
    ∃ qs' rs', Keeps (m.putptr (some p)) (sent ++ [some p]) received ds (qs' ++ [sent.length]) rs' := by
  by_cases hm : ∃ r, m.ptrq.last = some r ∧ (m.deref r).buttons = p.buttons
  · obtain ⟨r, hl, hbut⟩ := hm
    have hne : rs ≠ [] := by
      intro hnil
      have hempty : m.ptrq.nonempty = false := by
        rw [Ptrqueue.nonempty, Fifo.nonempty_eq_false, ← Ptrqueue.contents, h.refs.contents, hnil]
        rfl
      simp [stale, hl, hbut, hempty] at hs
    obtain ⟨qs', hk⟩ := h.merge hl hbut hne
    exact ⟨qs', rs, hk⟩
  · refine ⟨qs, rs ++ [m.mem.length], h.append ?_⟩
    intro r hl hbut
    exact hm ⟨r, hl, hbut⟩

/-- The client receives the head of the queue. -/
theorem Keeps.get {r : Ref} (h : Keeps m sent received ds qs (r :: rs)) :
    ∃ d qs', Keeps { m with ptrq := m.ptrq.get.2 } sent (received ++ [some (m.deref r)])
      (ds ++ [d]) qs' rs := by
  obtain ⟨hcont, hnd, hb, hlast⟩ := h.refs
  have hq := h.queued
  rw [List.map_cons] at hq
  obtain ⟨d, qs', rfl, hd, hqs'⟩ := List.map_eq_cons_iff.mp hq
  refine ⟨d, qs', ⟨?_, (List.nodup_cons.mp hnd).2, ?_, ?_⟩, h.ledger.deliver, ?_, hqs'⟩
  · rw [Ptrqueue.contents_get, hcont]
    rfl
  · exact fun a ha => hb a (List.mem_cons_of_mem _ ha)
  · intro a ha
    change m.ptrq.get.2.last = some a at ha
    have hla : m.ptrq.last = some a := by
      rcases Ptrqueue.get_last m.ptrq with hg | hg
      · rw [← hg]
        exact ha
      · rw [hg] at ha
        cases ha
    obtain ⟨hlt, htail⟩ := hlast a hla
    refine ⟨hlt, ?_⟩
    intro hne
    rw [← htail (List.cons_ne_nil _ _)]
    obtain ⟨b, rest, rfl⟩ := List.exists_cons_of_ne_nil hne
    exact (List.getLast?_cons_cons ..).symm
  · rw [List.map_append, List.map_append, h.delivered, List.map_singleton, hd]
    rfl

/-- The queue is flushed: what was queued is accounted for by the flush. -/
theorem Keeps.flush (h : Keeps m sent received ds qs rs) :
    Keeps { m with ptrq := m.ptrq.flush } (sent ++ [none]) received ds [] [] where
  refs := ⟨rfl, List.nodup_nil, fun _ hr => absurd hr List.not_mem_nil,
    fun r hr => ⟨(h.refs.last r hr).1, fun hne => absurd rfl hne⟩⟩
  ledger := h.ledger.flush
  delivered := by
    rw [map_getElem?_concat _ h.bound_ds]
    exact h.delivered
  queued := rfl

/-- Some ledger accounts for what was sent and received. -/
def Kept (m : Childminder) (sent received : List (Option Pointer)) : Prop :=
  ∃ ds qs rs, Keeps m sent received ds qs rs

theorem Kept.frame (h : Kept m sent received) (hc : m'.ptrq.contents = m.ptrq.contents)
    (hl : m'.ptrq.last = m.ptrq.last) (hm : m'.mem = m.mem) : Kept m' sent received := by
  obtain ⟨ds, qs, rs, hk⟩ := h
  exact ⟨ds, qs, rs, hk.frame hc hl hm⟩

/-- A record that is not queued is overwritten. -/
theorem Kept.merged (h : Kept m sent received) {r : Ref} (hr : some r ∉ m.ptrq.contents)
    (p : Pointer) : Kept { m with mem := m.mem.set r p } sent received := by
  obtain ⟨ds, qs, rs, hk⟩ := h
  obtain ⟨hcont, hnd, hb, hlast⟩ := hk.refs
  have hlen : (m.mem.set r p).length = m.mem.length := List.length_set
  refine ⟨ds, qs, rs, ⟨hcont, hnd, ?_, ?_⟩, hk.ledger, hk.delivered, ?_⟩
  · exact fun a ha => (hb a ha).trans_eq hlen.symm
  · exact fun a ha => ⟨(hlast a ha).1.trans_eq hlen.symm, (hlast a ha).2⟩
  · rw [hk.queued]
    refine List.map_congr_left fun a ha => ?_
    have hne : r ≠ a := by
      rintro rfl
      exact hr (hcont ▸ List.mem_map_of_mem ha)
    simp only [deref, List.getD_eq_getElem?_getD, List.getElem?_set_ne hne]

theorem Kept.put (h : Kept m sent received) (hs : m.stale p = false) :
    Kept (m.putptr (some p)) (sent ++ [some p]) received := by
  obtain ⟨ds, qs, rs, hk⟩ := h
  obtain ⟨qs', rs', hk'⟩ := hk.put hs
  exact ⟨ds, _, rs', hk'⟩

/-- The `Reply` loop keeps a ledger. -/
theorem replyAlt_kept {a : Act} (h : Kept m sent received) (hok : NotStale m a)
    (hp : m.phase = .reply) (hstep : m.replyAlt a = some m') :
    Kept m' (sent ++ a.ptrSent) (received ++ a.ptrReceived) := by
  cases a
  case ptr p =>
    obtain rfl := Option.some.inj hstep
    cases p with
    | none =>
      -- a marker to flush is not sent in this phase
      rw [NotStale, hp] at hok
      cases hok
    | some p =>
      simp only [Act.ptrSent, Act.ptrReceived, List.append_nil]
      exact h.put hok
  case reply | stop | key | ctl =>
    obtain rfl := Option.some.inj hstep
    simp only [Act.ptrSent, Act.ptrReceived, List.append_nil]
    exact h.frame rfl rfl rfl
  all_goals cases hstep

/-- The main loop keeps a ledger. -/
theorem mainAlt_kept {o : Offer} {a : Act} (h : Kept m sent received) (hok : NotStale m a)
    (ho : o.ptr = m.ptrq.contents.head?) (hstep : m.mainAlt o a = some m') :
    Kept m' (sent ++ a.ptrSent) (received ++ a.ptrReceived) := by
  cases a <;> simp only [mainAlt] at hstep
  case outptr p =>
    split at hstep
    · rename_i hp
      obtain rfl := Option.some.inj hstep
      obtain ⟨ds, qs, rs, hk⟩ := h
      rw [ho, hk.refs.contents] at hp
      cases rs with
      | nil => cases hp
      | cons r rs =>
        obtain rfl : some (m.deref r) = p := Option.some.inj hp
        obtain ⟨d, qs', hk'⟩ := hk.get
        simp only [Act.ptrSent, Act.ptrReceived, List.append_nil]
        exact ⟨_, qs', rs, hk'⟩
    · cases hstep
  case ptr p =>
    simp only [Act.ptrSent, Act.ptrReceived, List.append_nil]
    cases p with
    | none =>
      obtain rfl := Option.some.inj hstep
      obtain ⟨ds, qs, rs, hk⟩ := h
      exact ⟨ds, [], [], hk.flush⟩
    | some p =>
      obtain rfl := Option.some.inj hstep
      exact h.put hok
  all_goals simp only [Act.ptrSent, Act.ptrReceived, List.append_nil]
  case outkbd k =>
    split at hstep
    · obtain rfl := Option.some.inj hstep
      exact h.frame rfl rfl rfl
    · cases hstep
  case outctl e =>
    split at hstep
    · obtain rfl := Option.some.inj hstep
      exact h.frame rfl rfl rfl
    · cases hstep
  case outimg i =>
    split at hstep
    · obtain ⟨-, -, hq, hm⟩ := imgsent_frame hstep
      exact h.frame (by rw [hq]) (by rw [hq]) hm
    · cases hstep
  case image o' i answer =>
    split at hstep <;> split at hstep
    case isTrue.isTrue =>
      obtain rfl := Option.some.inj hstep
      exact h
    case isFalse.isTrue =>
      obtain rfl := Option.some.inj hstep
      exact h.frame (by rw [imgaccept_ptrq]) (by rw [imgaccept_ptrq]) (imgaccept_mem ..)
    all_goals cases hstep
  case key | ctl | stop =>
    obtain rfl := Option.some.inj hstep
    exact h.frame rfl rfl rfl
  case reply => cases hstep

theorem notStale_peeked {a : Act} (h : NotStale m a) : NotStale m.peeked a := by
  cases a
  case ptr p =>
    cases p with
    | none => exact h
    | some p =>
      have hne : m.peeked.ptrq.nonempty = m.ptrq.nonempty := by
        rw [Bool.eq_iff_iff, Ptrqueue.nonempty_iff, Ptrqueue.nonempty_iff, peeked_ptrq_contents]
      simp only [NotStale, stale, peeked_ptrq_last, hne] at h ⊢
      exact h
  all_goals exact h

/-- One communication that is not stale, in either phase. -/
theorem step_kept {a : Act} (h : Kept m sent received) (hok : NotStale m a) (hstep : Step m a m') :
    Kept m' (sent ++ a.ptrSent) (received ++ a.ptrReceived) := by
  simp only [StepOf, step] at hstep
  split at hstep
  · exact replyAlt_kept h hok ‹_› hstep
  · refine mainAlt_kept (m := m.peeked) (h.frame ?_ ?_ rfl) (notStale_peeked hok) ?_ hstep
    · exact peeked_ptrq_contents m
    · exact peeked_ptrq_last m
    · rw [peeked_ptrq_contents, offers_ptr]
  · cases hstep

theorem start_kept : Kept start [] [] :=
  ⟨[], [], [], ⟨rfl, List.nodup_nil, fun _ hr => absurd hr List.not_mem_nil, fun _ hr => by cases hr⟩,
    Ledger.empty, rfl, rfl⟩

/-- Every run that avoids stale events and overwritten records keeps a ledger. -/
theorem run_kept {xs : List Incident} (h : Run (Guarded Safe Meets) start xs m) :
    Kept m ((Incident.comms xs).flatMap Act.ptrSent) ((Incident.comms xs).flatMap Act.ptrReceived) := by
  refine h.traced (J := fun xs m => Kept m ((Incident.comms xs).flatMap Act.ptrSent)
    ((Incident.comms xs).flatMap Act.ptrReceived)) start_kept ?_
  rintro xs m₁ x m₂ hk ⟨hok, hstep⟩
  cases x with
  | comm a =>
    simp only [Incident.comms, List.flatMap_append, List.flatMap_cons, List.flatMap_nil,
      List.append_nil] at hk ⊢
    exact step_kept hk hok hstep
  | merged r p =>
    simp only [Incident.comms, List.flatMap_append, List.flatMap_cons, List.flatMap_nil,
      List.append_nil] at hk ⊢
    simp only [StepOf, meet] at hstep
    split_ifs at hstep
    obtain rfl := Option.some.inj hstep
    exact hk.merged hok p

/-! ## Whole runs -/

/-- What was sent to a pointer queue is accounted for by what its client received and
by what is queued: there are increasing places `ds ++ qs` in the list of messages sent,
`ds` holding what was received and `qs` what is queued, and every event is at one of
them, or overwritten by an event that is, or was followed by a flush. -/
def PointersKept (as : List Act) (m : Childminder) : Prop :=
  ∃ ds qs, Ledger Pointer.buttons (as.flatMap Act.ptrSent) ds qs ∧
    ds.map ((as.flatMap Act.ptrSent)[·]?) = (as.flatMap Act.ptrReceived).map some ∧
    qs.map ((as.flatMap Act.ptrSent)[·]?) = m.queued.map some

theorem Kept.queued_eq (h : Keeps m sent received ds qs rs) :
    qs.map (sent[·]?) = m.queued.map some := by
  rw [h.queued, Childminder.queued, h.refs.contents, List.map_map, List.map_map]
  rfl

/-- The process after the client has received the head of the pointer queue. -/
def ptrtaken (m : Childminder) : Childminder := { m.peeked with ptrq := m.peeked.ptrq.get.2 }

theorem ptrtaken_contents {r : Ref} (hc : m.ptrq.contents = some r :: rs.map some) :
    m.ptrtaken.ptrq.contents = rs.map some := by
  change m.peeked.ptrq.get.2.contents = _
  rw [Ptrqueue.contents_get, peeked_ptrq_contents, hc, List.tail_cons]

theorem step_outptr (hp : m.phase = .main) {r : Ref}
    (hc : m.ptrq.contents = some r :: rs.map some) :
    Step m (.outptr (some (m.deref r))) m.ptrtaken := by
  have ho : m.offers.ptr = some (some r) := by
    rw [offers_ptr, hc, List.head?_cons]
  simp only [StepOf, step, hp, mainAlt, ho]
  exact if_pos rfl

/-- In the main loop the client can receive all that is queued, in order. -/
theorem drain (hp : m.phase = .main) (hc : m.ptrq.contents = rs.map some) :
    ∃ m', Run Step m (m.queued.map Act.outptr) m' ∧ m'.queued = [] := by
  induction rs generalizing m with
  | nil =>
    have hq : m.queued = [] := by
      rw [queued, hc]
      rfl
    exact ⟨m, by rw [hq]; exact Run.nil, hq⟩
  | cons r rs ih =>
    obtain ⟨m', hrun, hempty⟩ := ih (m := m.ptrtaken) hp (ptrtaken_contents hc)
    refine ⟨m', ?_, hempty⟩
    have hq : m.queued = some (m.deref r) :: m.ptrtaken.queued := by
      rw [queued, queued, ptrtaken_contents hc, hc]
      rfl
    rw [hq, List.map_cons]
    exact (Run.single (step_outptr hp hc)).append hrun

/-- An event that is not stale is queued last. -/
theorem put_queued_last (h : Kept m sent received) (hs : m.stale p = false) :
    (m.putptr (some p)).queued.getLast? = some (some p) := by
  obtain ⟨ds, qs, rs, hk⟩ := h
  obtain ⟨qs', rs', hk'⟩ := hk.put hs
  have hq := Kept.queued_eq hk'
  rw [List.map_append, List.map_singleton, List.getElem?_concat_length] at hq
  have hlast := congrArg List.getLast? hq
  rw [List.getLast?_concat, List.getLast?_map] at hlast
  obtain ⟨x, hx, hpx⟩ := Option.map_eq_some_iff.mp hlast.symm
  rw [hx, Option.some.inj hpx]

/-- **No pointer event is lost**, as long as none is stale and no queued record is overwritten.
In every run of a `childminder` among others whose flush markers arrive in its main loop, in which
no event arrives while the queue is empty and `last` refers to a record with its button state, and
in which no other process overwrites a record that is queued: the client receives the events in
sending order; every event is received, or queued, or overwritten by a later one with the same
button state that is received or queued, or was followed by a flush; and in the main loop the next
such event is queued last and the client can receive all that is queued. -/
theorem pointer_events_kept (xs : List Incident) (m : Childminder)
    (h : Run (Guarded Safe Meets) start xs m) :
    PointersKept (Incident.comms xs) m ∧
      (m.phase = .main → ∀ p, NotStale m (.ptr (some p)) → ∃ m', Step m (.ptr (some p)) m' ∧
        m'.queued.getLast? = some (some p) ∧
        ∃ m'', Run Step m' (m'.queued.map Act.outptr) m'' ∧ m''.queued = []) := by
  have hkept := run_kept h
  refine ⟨?_, ?_⟩
  · obtain ⟨ds, qs, rs, hk⟩ := hkept
    exact ⟨ds, qs, hk.ledger, hk.delivered, Kept.queued_eq hk⟩
  · intro hp p hok
    have hpk : Kept m.peeked ((Incident.comms xs).flatMap Act.ptrSent)
        ((Incident.comms xs).flatMap Act.ptrReceived) :=
      hkept.frame (peeked_ptrq_contents m) (peeked_ptrq_last m) rfl
    have hs : m.peeked.stale p = false := notStale_peeked (a := .ptr (some p)) hok
    have hphase : (m.peeked.putptr (some p)).phase = .main := by
      obtain ⟨ds, qs, rs, hk⟩ := hpk
      by_cases hm : ∃ r, m.peeked.ptrq.last = some r ∧ (m.peeked.deref r).buttons = p.buttons
      · obtain ⟨r, hl, hbut⟩ := hm
        rw [putptr_merge hl (hk.refs.last r hl).1 hbut]
        exact hp
      · rw [putptr_append (fun r hr => (hk.refs.last r hr).1) fun r hl hbut => hm ⟨r, hl, hbut⟩]
        exact hp
    refine ⟨m.peeked.putptr (some p), ?_, put_queued_last hpk hs, ?_⟩
    · simp only [StepOf, step, hp]
      rfl
    · obtain ⟨ds, qs, rs, hk⟩ := hpk.put hs
      exact drain hphase hk.refs.contents

/-- A press and a motion with the button down, both received, around a flush; the first record has
been sent to another client too, and is overwritten there when it has been received here. -/
theorem pointer_events_kept_run : PointersKept
    (Incident.comms [.comm .reply, .comm (.ptr (some ⟨1, ⟨5, 5⟩, 10⟩)),
      .comm (.outptr (some ⟨1, ⟨5, 5⟩, 10⟩)), .merged 0 ⟨1, ⟨7, 5⟩, 15⟩, .comm (.ptr none),
      .comm (.ptr (some ⟨1, ⟨6, 5⟩, 20⟩))])
    { start with phase := .main, mem := [⟨1, ⟨7, 5⟩, 15⟩, ⟨1, ⟨6, 5⟩, 20⟩],
                 ptrq := { h := [], t := [some 1], last := some 1 } } := by
  refine (pointer_events_kept _ _ (Run.of_execGuarded ?_)).1
  decide

/-- A record that is queued for two clients is overwritten for the other one, and this client
receives an event that has not been sent to it. -/
example : ∃ xs m, exec meet start xs = some m ∧ xs =
      [.comm .reply, .comm (.ptr (some ⟨0, ⟨5, 5⟩, 10⟩)), .merged 0 ⟨0, ⟨9, 9⟩, 20⟩,
        .comm (.outptr (some ⟨0, ⟨9, 9⟩, 20⟩))] ∧ ¬ PointersKept (Incident.comms xs) m := by
  refine ⟨_, _, rfl, rfl, ?_⟩
  rintro ⟨ds, qs, -, hds, -⟩
  obtain ⟨d, hd⟩ : ∃ d, ds = [d] := List.length_eq_one_iff.mp (by
    rw [← List.length_map, hds]
    rfl)
  rw [hd] at hds
  have hsent : ([some ⟨0, ⟨5, 5⟩, 10⟩] : List (Option Pointer))[d]? =
      some (some ⟨0, ⟨9, 9⟩, 20⟩) := (List.cons.inj hds).1
  cases d with
  | zero => exact absurd hsent (by decide)
  | succ d => cases hsent

/-- The event that the `ptr` request sends after its flush is lost when the queue held an
event with the same button state: nothing is queued, and no flush came after it. -/
theorem flush_loses_event : ∃ as m, exec step start as = some m ∧ as =
      [.reply, .ptr (some ⟨1, ⟨5, 5⟩, 10⟩), .ptr none, .ptr (some ⟨1, ⟨9, 9⟩, 20⟩)] ∧
      ¬ PointersKept as m := by
  refine ⟨_, _, rfl, rfl, ?_⟩
  rintro ⟨ds, qs, hl, hds, hqs⟩
  obtain rfl : ds = [] := List.map_eq_nil_iff.mp hds
  obtain rfl : qs = [] := List.map_eq_nil_iff.mp hqs
  obtain ⟨j, ⟨hle, -⟩, hj⟩ := hl.accounted 2 ⟨1, ⟨9, 9⟩, 20⟩ rfl
  rcases hj with hj | hj | ⟨f, hf, hnone⟩
  · exact List.not_mem_nil hj
  · exact List.not_mem_nil hj
  · obtain ⟨hlt, -⟩ := List.getElem?_eq_some_iff.mp hnone
    have hlen : f < 3 := hlt
    omega

end Childminder
end Aimsgui
