import Aimsgui.Strings
import Aimsgui.Lib.Run

/-!
# The table of clients

`wm()` serves `/chan/wmctl`: a process that reads the file becomes a client, and gets a token
with which it can ask for a connection; what a client writes is passed on to the main loop as
a request, and so is that it has closed the file. `wm()` waits until the main loop has taken
what it passes on, and until it has answered a connection request.

The clients stand in the array `clients`; a client's id is its place there. The slots of
clients that have left are used again, and the array grows by four when it is full. A client
is a reference, here the number of its record, so that a new client in an old slot is another
one.
-/

namespace Aimsgui

open Transition

namespace Wmsrv

/-- A reference to a client's record. -/
abbrev Cref := Nat

/-- A client's record, as far as `wm()` looks at it. -/
structure Clientrec where
  /-- its place in `clients` -/
  id : Nat
  fid : Int
  token : Int
  /-- whether `stop` is not nil -/
  stop : Bool := false
  deriving DecidableEq, Repr

/-- Where `wm()` stands. -/
inductive Pc where
  /-- in the `alt` -/
  | serve
  /-- in `join <-= (c, ok)` -/
  | join (c : Cref)
  /-- in `<-ok` -/
  | answer (c : Cref)
  /-- in `req <-= (c, data, wc)` -/
  | req (c : Cref) (data : String)
  /-- in `req <-= (c, nil, nil)` -/
  | leave (c : Cref)
  deriving DecidableEq, Repr

/-- What `wm()` does in one step. -/
inductive Event where
  /-- somebody writes a token to ask for a connection -/
  | wmreq (cmd : String)
  /-- the file is read through the descriptor `fid`; without a reply channel when it is closed -/
  | read (fid : Int) (rc : Bool)
  /-- `data` is written to the file -/
  | write (fid : Int) (data : String)
  /-- the file is closed -/
  | close (fid : Int)
  /-- the main loop takes the client that wants to join -/
  | joined (c : Cref)
  /-- the main loop answers, with nil or an error -/
  | answered (c : Cref) (e : Option String)
  /-- the main loop takes a request, or that the client leaves -/
  | taken (c : Cref)
  deriving DecidableEq, Repr

end Wmsrv

open Wmsrv

/-- `wm()` with the records of all clients there ever were, and the `childminder` processes that
it has started. -/
structure Wmsrv where
  recs : List Clientrec := []
  clients : List (Option Cref) := []
  pc : Pc := .serve
  childminders : List Cref := []
  deriving DecidableEq, Repr

namespace Wmsrv

variable (w : Wmsrv)

/-- The clients in the array. -/
def live : List Cref := w.clients.filterMap id

/-- Whether the client's record has the property `p`. -/
def has (p : Clientrec → Bool) (c : Cref) : Bool := w.recs[c]?.any p

/-- `findfid` -/
def findfid (fid : Int) : Option Cref := w.live.find? (w.has fun r => r.fid = fid)

/-- The search of `<-wmreq`. -/
def findtoken (token : Int) : Option Cref := w.live.find? (w.has fun r => r.token = token)

/-- The place of the first nil, or the length. -/
def freeslot (clients : List (Option Cref)) : Nat := clients.findIdx Option.isNone

/-- The array with the new client in its slot. -/
def place (clients : List (Option Cref)) (c : Cref) : List (Option Cref) :=
  if freeslot clients < clients.length then clients.set (freeslot clients) (some c)
  else clients ++ [some c, none, none, none]

/-- A record for the descriptor `fid`, and its client in the array. -/
def addclient (fid : Int) : Wmsrv :=
  { w with
    recs := w.recs ++ [{ id := freeslot w.clients, fid := fid, token := fid }]
    clients := place w.clients w.recs.length }

/-- `delclient` -/
def delclient (c : Cref) : Wmsrv :=
  match w.recs[c]? with
  | some r => { w with clients := w.clients.set r.id none }
  | none => w

/-- The client is accepted: it gets a `childminder`. -/
def start (c : Cref) : Wmsrv :=
  { w with
    recs := w.recs.modify c fun r => { r with stop := true }
    childminders := w.childminders ++ [c] }

/-- `wm` does one thing; where it cannot, there is no next state. -/
def step (w : Wmsrv) : Event → Option Wmsrv
  | .wmreq cmd =>
    if w.pc = .serve then
      match w.findtoken (int cmd) with
      -- otherwise the error is sent by a process of its own
      | some c => if w.has Clientrec.stop c then some w else some { w with pc := .join c }
      | none => some w
    else none
  | .read fid rc =>
    if w.pc = .serve then
      if rc ∧ w.findfid fid = none then some (w.addclient fid) else some w
    else none
  | .write fid data =>
    if w.pc = .serve then
      match w.findfid fid with
      | some c => some { w with pc := .req c data }
      | none => some w
    else none
  | .close fid =>
    if w.pc = .serve then
      match w.findfid fid with
      | some c => some { w with pc := .leave c }
      | none => some w
    else none
  | .joined c => if w.pc = .join c then some { w with pc := .answer c } else none
  | .answered c e =>
    if w.pc = .answer c then
      match e with
      | none => some { w.start c with pc := .serve }
      | some _ => some { w with pc := .serve }
    else none
  | .taken c =>
    match w.pc with
    | .req c' _ => if c' = c then some { w with pc := .serve } else none
    | .leave c' => if c' = c then some { w.delclient c with pc := .serve } else none
    | _ => none

/-- The client whose join is accepted. -/
def Event.accepted : Event → List Cref
  | .answered c none => [c]
  | _ => []

variable {w w' : Wmsrv} {e : Event} {es : List Event} {c d : Cref} {i j : Nat} {fid : Int}

/-! ## Slots -/

theorem mem_live : c ∈ w.live ↔ ∃ i : Nat, w.clients[i]? = some (some c) := by
  rw [live, List.mem_filterMap]
  constructor
  · rintro ⟨x, hx, rfl⟩
    exact List.mem_iff_getElem?.mp hx
  · rintro ⟨i, hi⟩
    exact ⟨_, List.mem_of_getElem? hi, rfl⟩

section Slots

variable {clients : List (Option Cref)}

/-- The first free slot holds nobody. -/
theorem getElem?_freeslot : clients[freeslot clients]? ≠ some (some d) := by
  intro hd
  obtain ⟨hlt, hget⟩ := List.getElem?_eq_some_iff.mp hd
  have hnone : (clients[freeslot clients]).isNone = true := List.findIdx_getElem
  rw [hget] at hnone
  cases hnone

/-- The new client is in the free slot, and nobody else has moved. -/
theorem getElem?_place :
    (place clients c)[i]? = some (some d) ↔
      i = freeslot clients ∧ d = c ∨ clients[i]? = some (some d) := by
  by_cases hi : i = freeslot clients
  · subst hi
    rw [or_iff_left getElem?_freeslot, place]
    split_ifs with hlt
    · rw [List.getElem?_set_self hlt]
      simp [eq_comm]
    · have hlength : freeslot clients = clients.length :=
        Nat.le_antisymm List.findIdx_le_length (not_lt.mp hlt)
      rw [hlength, List.getElem?_append_right (le_refl _), Nat.sub_self]
      simp [eq_comm]
  · rw [or_iff_right fun h => hi h.1, place]
    split_ifs with hlt
    · rw [List.getElem?_set_ne (Ne.symm hi)]
    · have hlength : freeslot clients = clients.length :=
        Nat.le_antisymm List.findIdx_le_length (not_lt.mp hlt)
      rw [List.getElem?_append]
      split_ifs with hin
      · rfl
      · -- behind the new client the array is empty
        have hout : clients[i]? = none := List.getElem?_eq_none (not_lt.mp hin)
        rw [hout]
        obtain ⟨k, hk⟩ : ∃ k, i - clients.length = k + 1 :=
          Nat.exists_eq_add_one_of_ne_zero (by omega)
        rw [hk]
        rcases k with _ | _ | _ | k <;> simp

end Slots

/-! ## Searches -/

theorem has_eq_true {p : Clientrec → Bool} :
    w.has p c = true ↔ ∃ r, w.recs[c]? = some r ∧ p r = true := by
  rw [has, Option.any_eq_true]

/-- Whoever is found is in the array, with that descriptor. -/
theorem findfid_eq_some (h : w.findfid fid = some c) :
    c ∈ w.live ∧ ∃ r, w.recs[c]? = some r ∧ r.fid = fid := by
  obtain ⟨r, hr, hfid⟩ := has_eq_true.mp (List.find?_some h)
  exact ⟨List.mem_of_find?_eq_some h, r, hr, of_decide_eq_true hfid⟩

theorem findfid_eq_none (h : w.findfid fid = none) {r : Clientrec} (hc : c ∈ w.live)
    (hr : w.recs[c]? = some r) : r.fid ≠ fid := by
  intro hfid
  have hhas := List.find?_eq_none.mp h c hc
  exact hhas (has_eq_true.mpr ⟨r, hr, decide_eq_true hfid⟩)

/-! ## The invariant -/

/-- The slots hold the clients that say so, and records, `childminder`s and what `wm()` waits for
agree. -/
structure Table (w : Wmsrv) : Prop where
  ids : ∀ (i : Nat) (c : Cref), w.clients[i]? = some (some c) →
    ∃ r, w.recs[c]? = some r ∧ r.id = i
  fids : ∀ c ∈ w.live, ∀ d ∈ w.live, ∀ r q : Clientrec, w.recs[c]? = some r → w.recs[d]? = some q →
    r.fid = q.fid → c = d
  tokens : ∀ r ∈ w.recs, r.token = r.fid
  nodup : w.childminders.Nodup
  minded : ∀ c, c ∈ w.childminders ↔ ∃ r, w.recs[c]? = some r ∧ r.stop = true
  asking : ∀ c, w.pc = .join c ∨ w.pc = .answer c →
    c ∈ w.live ∧ ∃ r, w.recs[c]? = some r ∧ r.stop = false
  leaving : ∀ c, w.pc = .leave c → c ∈ w.live

theorem start_table : Table {} where
  ids := by rintro i c ⟨⟩
  fids := by rintro c ⟨⟩
  tokens := by rintro r ⟨⟩
  nodup := List.nodup_nil
  minded c := by simp
  asking c := by simp
  leaving c := by simp

/-- `wm()` goes on to wait for something else. -/
theorem Table.pc {pc : Pc} (h : Table w)
    (hasking : ∀ c, pc = .join c ∨ pc = .answer c →
      c ∈ w.live ∧ ∃ r, w.recs[c]? = some r ∧ r.stop = false)
    (hleaving : ∀ c, pc = .leave c → c ∈ w.live) : Table { w with pc := pc } :=
  ⟨h.ids, h.fids, h.tokens, h.nodup, h.minded, hasking, hleaving⟩

/-- Nobody appears but the new client. -/
theorem live_addclient (hc : c ∈ (w.addclient fid).live) :
    c = w.recs.length ∨ c ∈ w.live := by
  obtain ⟨i, hi⟩ := mem_live.mp hc
  rcases getElem?_place.mp hi with ⟨-, rfl⟩ | hi
  · exact Or.inl rfl
  · exact Or.inr (mem_live.mpr ⟨i, hi⟩)

/-- Nobody disappears. -/
theorem live_addclient_of_live (hc : c ∈ w.live) : c ∈ (w.addclient fid).live := by
  obtain ⟨i, hi⟩ := mem_live.mp hc
  exact mem_live.mpr ⟨i, getElem?_place.mpr (Or.inr hi)⟩

/-- A client whose descriptor nobody has is added. -/
theorem Table.addclient (h : Table w) (hpc : w.pc = .serve) (hfid : w.findfid fid = none) :
    Table (w.addclient fid) := by
  have hnew : (w.addclient fid).recs[w.recs.length]? =
      some { id := freeslot w.clients, fid := fid, token := fid } :=
    List.getElem?_concat_length
  have hold : ∀ {c : Cref} {r : Clientrec}, w.recs[c]? = some r →
      (w.addclient fid).recs[c]? = some r :=
    fun hr => (List.getElem?_append_left (List.getElem?_eq_some_iff.mp hr).1).trans hr
  have hrec : ∀ {c : Cref} {r : Clientrec}, c ∈ w.live → (w.addclient fid).recs[c]? = some r →
      w.recs[c]? = some r := by
    intro c r hc hr
    obtain ⟨i, hi⟩ := mem_live.mp hc
    obtain ⟨q, hq, -⟩ := h.ids i c hi
    rw [hq, ← hold hq, hr]
  have hserve : (w.addclient fid).pc = .serve := hpc
  refine ⟨?_, ?_, ?_, h.nodup, ?_, ?_, ?_⟩
  · intro i c hi
    rcases getElem?_place.mp hi with ⟨rfl, rfl⟩ | hi
    · exact ⟨_, hnew, rfl⟩
    · obtain ⟨r, hr, hid⟩ := h.ids i c hi
      exact ⟨r, hold hr, hid⟩
  · intro c hc d hd r q hr hq heq
    rcases live_addclient hc with rfl | hc <;> rcases live_addclient hd with rfl | hd
    · rfl
    · -- the descriptor of the new client is nobody else's
      obtain rfl := Option.some.inj (hnew.symm.trans hr)
      exact absurd heq.symm (findfid_eq_none hfid hd (hrec hd hq))
    · obtain rfl := Option.some.inj (hnew.symm.trans hq)
      exact absurd heq (findfid_eq_none hfid hc (hrec hc hr))
    · exact h.fids c hc d hd r q (hrec hc hr) (hrec hd hq) heq
  · intro r hr
    rcases List.mem_append.mp hr with hr | hr
    · exact h.tokens r hr
    · rw [List.mem_singleton.mp hr]
  · intro c
    refine (h.minded c).trans ⟨fun ⟨r, hr, hstop⟩ => ⟨r, hold hr, hstop⟩, ?_⟩
    rintro ⟨r, hr, hstop⟩
    rw [show (w.addclient fid).recs = w.recs ++ _ from rfl, List.getElem?_append] at hr
    split_ifs at hr
    · exact ⟨r, hr, hstop⟩
    · obtain rfl := List.mem_singleton.mp (List.mem_of_getElem? hr)
      cases hstop
  · rw [hserve]
    rintro c (⟨⟨⟩⟩ | ⟨⟨⟩⟩)
  · rw [hserve]
    rintro c ⟨⟩

/-- A client leaves its slot. -/
theorem Table.delclient (h : Table w) : Table { w.delclient c with pc := .serve } := by
  have hserve : Table { w with pc := .serve } :=
    h.pc (by rintro d (⟨⟨⟩⟩ | ⟨⟨⟩⟩)) (by rintro d ⟨⟩)
  cases hrec : w.recs[c]? with
  | none =>
    rw [Wmsrv.delclient, hrec]
    exact hserve
  | some r =>
    rw [Wmsrv.delclient, hrec]
    have hslot : ∀ {i : Nat} {d : Cref}, (w.clients.set r.id none)[i]? = some (some d) →
        w.clients[i]? = some (some d) := by
      intro i d hi
      rw [List.getElem?_set] at hi
      split_ifs at hi with hid hlt
      · cases hi
      · exact hi
    have hlive : ∀ d, d ∈ Wmsrv.live { w with clients := w.clients.set r.id none, pc := .serve } →
        d ∈ w.live := by
      intro d hd
      obtain ⟨i, hi⟩ := mem_live.mp hd
      exact mem_live.mpr ⟨i, hslot hi⟩
    refine ⟨fun i d hi => h.ids i d (hslot hi), ?_, h.tokens, h.nodup, h.minded, ?_, ?_⟩
    · intro d hd d' hd'
      exact h.fids d (hlive d hd) d' (hlive d' hd')
    · rintro d (⟨⟨⟩⟩ | ⟨⟨⟩⟩)
    · rintro d ⟨⟩

/-- An accepted client gets its `childminder`. -/
theorem Table.start (h : Table w) (hpc : w.pc = .answer c) :
    Table { w.start c with pc := .serve } := by
  obtain ⟨-, r, hr, hstop⟩ := h.asking c (Or.inr hpc)
  have hself : (w.start c).recs[c]? = some { r with stop := true } := by
    rw [Wmsrv.start, List.getElem?_modify, hr]
    simp
  have hother : ∀ d, d ≠ c → (w.start c).recs[d]? = w.recs[d]? := by
    intro d hd
    rw [Wmsrv.start, List.getElem?_modify]
    simp [Ne.symm hd]
  have hback : ∀ (d : Cref) (q : Clientrec), (w.start c).recs[d]? = some q →
      ∃ q₀, w.recs[d]? = some q₀ ∧ q.fid = q₀.fid ∧ q.token = q₀.token := by
    intro d q hq
    by_cases hd : d = c
    · subst hd
      obtain rfl := Option.some.inj (hself.symm.trans hq)
      exact ⟨r, hr, rfl, rfl⟩
    · exact ⟨q, (hother d hd).symm.trans hq, rfl, rfl⟩
  refine ⟨?_, ?_, ?_, ?_, ?_, ?_, by rintro d ⟨⟩⟩
  · intro i d hi
    obtain ⟨q, hq, hid⟩ := h.ids i d hi
    by_cases hd : d = c
    · subst hd
      obtain rfl := Option.some.inj (hr.symm.trans hq)
      exact ⟨_, hself, hid⟩
    · exact ⟨q, (hother d hd).trans hq, hid⟩
  · intro d hd d' hd' q q' hq hq' heq
    obtain ⟨q₀, hq₀, hfid, -⟩ := hback d q hq
    obtain ⟨q₁, hq₁, hfid', -⟩ := hback d' q' hq'
    exact h.fids d hd d' hd' q₀ q₁ hq₀ hq₁ (by rw [← hfid, ← hfid', heq])
  · intro q hq
    obtain ⟨d, hd⟩ := List.mem_iff_getElem?.mp hq
    obtain ⟨q₀, hq₀, hfid, htoken⟩ := hback d q hd
    rw [hfid, htoken, h.tokens q₀ (List.mem_of_getElem? hq₀)]
  · refine List.nodup_append.mpr ⟨h.nodup, by simp, ?_⟩
    -- its `stop` was nil, so that it had none
    rintro d hd _ hc rfl
    obtain rfl := List.mem_singleton.mp hc
    obtain ⟨q, hq, htrue⟩ := (h.minded d).mp hd
    obtain rfl := Option.some.inj (hr.symm.trans hq)
    rw [hstop] at htrue
    cases htrue
  · intro d
    rw [show Wmsrv.childminders { w.start c with pc := .serve } = w.childminders ++ [c] from rfl,
      List.mem_append, List.mem_singleton]
    by_cases hd : d = c
    · subst hd
      exact iff_of_true (Or.inr rfl) ⟨_, hself, rfl⟩
    · rw [or_iff_left hd, h.minded d]
      exact exists_congr fun q => and_congr_left fun _ => by rw [← hother d hd]
  · rintro d (⟨⟨⟩⟩ | ⟨⟨⟩⟩)

/-- What `wm()` does in one step: it waits for something else, adds a client, starts a
`childminder` or frees a slot. -/
theorem step_cases (hstep : w.step e = some w') :
    (∃ pc, w' = { w with pc := pc } ∧ e.accepted = [] ∧
      (∀ d, pc = .join d ∨ pc = .answer d →
        w.pc = .join d ∨ d ∈ w.live ∧ ∃ r, w.recs[d]? = some r ∧ r.stop = false) ∧
      ∀ d, pc = .leave d → d ∈ w.live) ∨
    (∃ fid, e = .read fid true ∧ w.pc = .serve ∧ w.findfid fid = none ∧ w' = w.addclient fid) ∨
    (∃ c, e = .answered c none ∧ w.pc = .answer c ∧ w' = { w.start c with pc := .serve }) ∨
    (∃ c, e = .taken c ∧ w.pc = .leave c ∧ w' = { w.delclient c with pc := .serve }) := by
  have hserve : (∀ d, Pc.serve = .join d ∨ Pc.serve = .answer d →
      w.pc = .join d ∨ d ∈ w.live ∧ ∃ r, w.recs[d]? = some r ∧ r.stop = false) ∧
      ∀ d, Pc.serve = .leave d → d ∈ w.live :=
    ⟨by rintro d (⟨⟨⟩⟩ | ⟨⟨⟩⟩), by rintro d ⟨⟩⟩
  cases e with
  | wmreq cmd =>
    simp only [step] at hstep
    split_ifs at hstep with hpc
    left
    cases hfind : w.findtoken (int cmd) with
    | none =>
      simp only [hfind] at hstep
      obtain rfl := Option.some.inj hstep
      exact ⟨.serve, by rw [← hpc], rfl, hserve⟩
    | some c =>
      simp only [hfind] at hstep
      split_ifs at hstep with hstop
      · obtain rfl := Option.some.inj hstep
        exact ⟨.serve, by rw [← hpc], rfl, hserve⟩
      · obtain rfl := Option.some.inj hstep
        refine ⟨_, rfl, rfl, ?_, by rintro d ⟨⟩⟩
        rintro _ (⟨⟨⟩⟩ | ⟨⟨⟩⟩)
        obtain ⟨r, hr, -⟩ := has_eq_true.mp (List.find?_some hfind)
        refine Or.inr ⟨List.mem_of_find?_eq_some hfind, r, hr, ?_⟩
        cases hrstop : r.stop with
        | false => rfl
        | true => exact absurd (has_eq_true.mpr ⟨r, hr, hrstop⟩) hstop
  | read fid rc =>
    simp only [step] at hstep
    split_ifs at hstep with hpc hnew
    · obtain rfl := Option.some.inj hstep
      obtain ⟨rfl, hfid⟩ := hnew
      exact Or.inr (Or.inl ⟨fid, rfl, hpc, hfid, rfl⟩)
    · obtain rfl := Option.some.inj hstep
      exact Or.inl ⟨.serve, by rw [← hpc], rfl, hserve⟩
  | write fid data =>
    simp only [step] at hstep
    split_ifs at hstep with hpc
    left
    cases hfind : w.findfid fid with
    | none =>
      simp only [hfind] at hstep
      obtain rfl := Option.some.inj hstep
      exact ⟨.serve, by rw [← hpc], rfl, hserve⟩
    | some c =>
      simp only [hfind] at hstep
      obtain rfl := Option.some.inj hstep
      exact ⟨_, rfl, rfl, by rintro d (⟨⟨⟩⟩ | ⟨⟨⟩⟩), by rintro d ⟨⟩⟩
  | close fid =>
    simp only [step] at hstep
    split_ifs at hstep with hpc
    left
    cases hfind : w.findfid fid with
    | none =>
      simp only [hfind] at hstep
      obtain rfl := Option.some.inj hstep
      exact ⟨.serve, by rw [← hpc], rfl, hserve⟩
    | some c =>
      simp only [hfind] at hstep
      obtain rfl := Option.some.inj hstep
      refine ⟨_, rfl, rfl, by rintro d (⟨⟨⟩⟩ | ⟨⟨⟩⟩), ?_⟩
      rintro _ ⟨⟩
      exact (findfid_eq_some hfind).1
  | joined c =>
    simp only [step] at hstep
    split_ifs at hstep with hpc
    obtain rfl := Option.some.inj hstep
    refine Or.inl ⟨_, rfl, rfl, ?_, by rintro d ⟨⟩⟩
    rintro _ (⟨⟨⟩⟩ | ⟨⟨⟩⟩)
    exact Or.inl hpc
  | answered c e =>
    simp only [step] at hstep
    split_ifs at hstep with hpc
    cases e with
    | none =>
      obtain rfl := Option.some.inj hstep
      exact Or.inr (Or.inr (Or.inl ⟨c, rfl, hpc, rfl⟩))
    | some e =>
      obtain rfl := Option.some.inj hstep
      exact Or.inl ⟨_, rfl, rfl, hserve⟩
  | taken c =>
    simp only [step] at hstep
    cases hpc : w.pc with
    | req c' data =>
      simp only [hpc] at hstep
      split_ifs at hstep
      obtain rfl := Option.some.inj hstep
      exact Or.inl ⟨_, rfl, rfl, hpc ▸ hserve⟩
    | leave c' =>
      simp only [hpc] at hstep
      split_ifs at hstep with hc
      subst hc
      obtain rfl := Option.some.inj hstep
      exact Or.inr (Or.inr (Or.inr ⟨_, rfl, rfl, rfl⟩))
    | serve | join c' | answer c' =>
      simp only [hpc] at hstep
      cases hstep

/-- One step keeps the table. -/
theorem step_table (h : Table w) (hstep : w.step e = some w') : Table w' := by
  rcases step_cases hstep with ⟨pc, rfl, -, hasking, hleaving⟩ | ⟨fid, rfl, hpc, hfid, rfl⟩ |
    ⟨c, rfl, hpc, rfl⟩ | ⟨c, rfl, hpc, rfl⟩
  · refine h.pc (fun d hd => ?_) hleaving
    rcases hasking d hd with hjoin | hfound
    · exact h.asking d (Or.inl hjoin)
    · exact hfound
  · exact h.addclient hpc hfid
  · exact h.start hpc
  · exact h.delclient

/-- A request is from a client in the array. -/
theorem step_asking {data : String} (hstep : w.step e = some w') (hpc : w'.pc = .req c data) :
    c ∈ w'.live := by
  cases e with
  | write fid data =>
    simp only [step] at hstep
    split_ifs at hstep with hserve
    split at hstep
    · rename_i hfind
      obtain rfl := Option.some.inj hstep
      cases hpc
      exact (findfid_eq_some hfind).1
    · obtain rfl := Option.some.inj hstep
      cases hserve.symm.trans hpc
  | wmreq cmd =>
    simp only [step] at hstep
    split_ifs at hstep with hserve
    split at hstep
    · split_ifs at hstep
      · obtain rfl := Option.some.inj hstep
        cases hserve.symm.trans hpc
      · obtain rfl := Option.some.inj hstep
        cases hpc
    · obtain rfl := Option.some.inj hstep
      cases hserve.symm.trans hpc
  | read fid rc =>
    simp only [step] at hstep
    split_ifs at hstep with hserve
    · obtain rfl := Option.some.inj hstep
      cases hserve.symm.trans hpc
    · obtain rfl := Option.some.inj hstep
      cases hserve.symm.trans hpc
  | close fid =>
    simp only [step] at hstep
    split_ifs at hstep with hserve
    split at hstep
    · obtain rfl := Option.some.inj hstep
      cases hpc
    · obtain rfl := Option.some.inj hstep
      cases hserve.symm.trans hpc
  | joined d =>
    simp only [step] at hstep
    split_ifs at hstep
    obtain rfl := Option.some.inj hstep
    cases hpc
  | answered d e =>
    simp only [step] at hstep
    split_ifs at hstep
    split at hstep
    all_goals
      obtain rfl := Option.some.inj hstep
      cases hpc
  | taken d =>
    simp only [step] at hstep
    split at hstep
    · split_ifs at hstep
      obtain rfl := Option.some.inj hstep
      cases hpc
    · split_ifs at hstep
      obtain rfl := Option.some.inj hstep
      cases hpc
    · cases hstep

theorem Table.lt_of_live (h : Table w) (hc : c ∈ w.live) : c < w.recs.length := by
  obtain ⟨i, hi⟩ := mem_live.mp hc
  obtain ⟨r, hr, -⟩ := h.ids i c hi
  exact (List.getElem?_eq_some_iff.mp hr).1

/-- The client that leaves is not found any more, and nobody else appears. -/
theorem Table.live_delclient (h : Table w) (hc : c ∈ w.live)
    (hd : d ∈ (w.delclient c).live) : d ≠ c ∧ d ∈ w.live := by
  obtain ⟨j, hj⟩ := mem_live.mp hc
  obtain ⟨r, hr, rfl⟩ := h.ids j c hj
  obtain ⟨i, hi⟩ := mem_live.mp hd
  rw [Wmsrv.delclient, hr, List.getElem?_set] at hi
  split_ifs at hi with hid hlt
  · cases hi
  · refine ⟨?_, mem_live.mpr ⟨i, hi⟩⟩
    rintro rfl
    obtain ⟨q, hq, hqi⟩ := h.ids i d hi
    obtain rfl := Option.some.inj (hr.symm.trans hq)
    exact hid hqi

theorem recs_delclient (w : Wmsrv) (c : Cref) : (w.delclient c).recs = w.recs := by
  rw [delclient]
  split <;> rfl

theorem childminders_delclient (w : Wmsrv) (c : Cref) :
    (w.delclient c).childminders = w.childminders := by
  rw [delclient]
  split <;> rfl

/-- `childminder`s are started for the joins that are accepted. -/
theorem step_childminders (hstep : w.step e = some w') :
    w'.childminders = w.childminders ++ e.accepted := by
  rcases step_cases hstep with ⟨pc, rfl, haccepted, -⟩ | ⟨fid, rfl, -, -, rfl⟩ |
    ⟨c, rfl, -, rfl⟩ | ⟨c, rfl, -, rfl⟩
  · rw [haccepted, List.append_nil]
  · exact (List.append_nil _).symm
  · rfl
  · rw [show Event.accepted (.taken c) = [] from rfl, List.append_nil, delclient]
    split <;> rfl

/-- Only the client that leaves loses its slot. -/
theorem step_slot (h : Table w) (hstep : w.step e = some w')
    (hi : w.clients[i]? = some (some c)) :
    w'.clients[i]? = some (some c) ∨ w.pc = .leave c ∧ e = .taken c := by
  rcases step_cases hstep with ⟨pc, rfl, -, -⟩ | ⟨fid, rfl, -, -, rfl⟩ | ⟨d, rfl, -, rfl⟩ |
    ⟨d, rfl, hpc, rfl⟩
  · exact Or.inl hi
  · exact Or.inl (getElem?_place.mpr (Or.inr hi))
  · exact Or.inl hi
  · by_cases hcd : d = c
    · subst hcd
      exact Or.inr ⟨hpc, rfl⟩
    · left
      obtain ⟨j, hj⟩ := mem_live.mp (h.leaving d hpc)
      obtain ⟨r, hr, rfl⟩ := h.ids j d hj
      have hij : r.id ≠ i := by
        rintro rfl
        exact hcd (Option.some.inj (Option.some.inj (hj.symm.trans hi)))
      rw [delclient, hr]
      exact (List.getElem?_set_ne hij).trans hi

/-- However opens, reads, writes, connection requests and closes follow one another: each client
stands in the slot of its id and in no other, no two clients have an id, a descriptor or a
token in common, and the array never overwrites or moves a client: a new one gets a slot that
was free, and only the client that leaves gives its slot up. The `childminder`s that were
started are one for each join that was accepted. -/
theorem client_table (h : Run (StepOf step) {} es w) :
    (∀ (i : Nat) (c : Cref), w.clients[i]? = some (some c) →
        ∃ r, w.recs[c]? = some r ∧ r.id = i) ∧
      (∀ (i j : Nat) (c : Cref), w.clients[i]? = some (some c) → w.clients[j]? = some (some c) → i = j) ∧
      (∀ c d r q, c ∈ w.live → d ∈ w.live → w.recs[c]? = some r → w.recs[d]? = some q → c ≠ d →
        r.id ≠ q.id ∧ r.fid ≠ q.fid ∧ r.token ≠ q.token) ∧
      (∀ (fid : Int) (i : Nat), (∀ c, w.clients[i]? = some (some c) →
          (w.addclient fid).clients[i]? = some (some c)) ∧
        ∀ c, (w.addclient fid).clients[i]? = some (some c) →
          w.clients[i]? = some (some c) ∨ c = w.recs.length ∧ ∀ d, w.clients[i]? ≠ some (some d)) ∧
      (∀ e w', w.step e = some w' → ∀ (i : Nat) (c : Cref), w.clients[i]? = some (some c) →
        w'.clients[i]? = some (some c) ∨ w.pc = .leave c ∧ e = .taken c) ∧
      w.childminders = es.flatMap Event.accepted ∧ w.childminders.Nodup := by
  have htable : Table w ∧ w.childminders = es.flatMap Event.accepted := by
    refine h.traced (J := fun es w => Table w ∧ w.childminders = es.flatMap Event.accepted)
      ⟨start_table, rfl⟩ ?_
    rintro es w e w' ⟨hw, hminders⟩ hstep
    refine ⟨step_table hw hstep, ?_⟩
    rw [step_childminders hstep, hminders, List.flatMap_append, List.flatMap_singleton]
  obtain ⟨htable, hminders⟩ := htable
  have hids : ∀ (i j : Nat) (c : Cref), w.clients[i]? = some (some c) → w.clients[j]? = some (some c) → i = j := by
    intro i j c hi hj
    obtain ⟨r, hr, rfl⟩ := htable.ids i c hi
    obtain ⟨q, hq, rfl⟩ := htable.ids j c hj
    rw [Option.some.inj (hr.symm.trans hq)]
  refine ⟨htable.ids, hids, ?_, ?_, fun e w' hstep i c => step_slot htable hstep, hminders,
    htable.nodup⟩
  · intro c d r q hc hd hr hq hcd
    have hfid : r.fid ≠ q.fid := fun heq => hcd (htable.fids c hc d hd r q hr hq heq)
    refine ⟨?_, hfid, ?_⟩
    · obtain ⟨i, hi⟩ := mem_live.mp hc
      obtain ⟨j, hj⟩ := mem_live.mp hd
      obtain ⟨r', hr', hri⟩ := htable.ids i c hi
      obtain ⟨q', hq', hqj⟩ := htable.ids j d hj
      obtain rfl := Option.some.inj (hr.symm.trans hr')
      obtain rfl := Option.some.inj (hq.symm.trans hq')
      intro heq
      obtain rfl : i = j := by omega
      exact hcd (Option.some.inj (Option.some.inj (hi.symm.trans hj)))
    · rwa [htable.tokens r (List.mem_of_getElem? hr), htable.tokens q (List.mem_of_getElem? hq)]
  · intro fid i
    refine ⟨fun c hi => getElem?_place.mpr (Or.inr hi), fun c hi => ?_⟩
    rcases getElem?_place.mp hi with ⟨rfl, rfl⟩ | hi
    · exact Or.inr ⟨rfl, fun d => getElem?_freeslot⟩
    · exact Or.inl hi

/-- Two clients open the file and join, the first one leaves, and a third one gets its slot; then
the array is full, and grows. -/
theorem client_table_reused :
    ∃ w, Run (StepOf step) {}
        [.read 7 true, .read 8 true, .wmreq "7", .joined 0, .answered 0 none, .wmreq "8", .joined 1,
          .answered 1 none, .wmreq "7", .close 7, .taken 0, .read 9 true, .read 10 true,
          .read 11 true, .read 12 true] w ∧
      w.clients = [some 2, some 1, some 3, some 4, some 5, none, none, none] ∧
      w.childminders.Nodup := by
  obtain ⟨w, hrun, hclients⟩ : ∃ w, Run (StepOf step) {}
      [.read 7 true, .read 8 true, .wmreq "7", .joined 0, .answered 0 none, .wmreq "8", .joined 1,
        .answered 1 none, .wmreq "7", .close 7, .taken 0, .read 9 true, .read 10 true,
        .read 11 true, .read 12 true] w ∧
      w.clients = [some 2, some 1, some 3, some 4, some 5, none, none, none] :=
    Run.exists_of_exec (by decide +kernel)
  obtain ⟨-, -, -, -, -, -, hnodup⟩ := client_table hrun
  exact ⟨w, hrun, hclients, hnodup⟩

end Wmsrv

end Aimsgui
