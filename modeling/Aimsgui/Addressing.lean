import Aimsgui.Settling

/-!
# Whom the toolbar means

The toolbar knows a client by its id, which is a place in the array of clients: when a client has
left, the next one may get its place. A `Ledger` is the manager and its toolbar, with clicks that
wait to be handled, and with the client that everything at the toolbar belongs to: a message
about a client, its tab, a click on the tab, a request that the toolbar makes about any of these.
What happens does not depend on these entries.

When a message that a client has left is handled, the toolbar still makes a request about it. If
its place has been taken by then, the request goes to another client. As long as no client
comes to the screen while the toolbar has something that belongs to another client of the same
id, this cannot happen (`well_addressed`).
-/

namespace Aimsgui

open Toolbar Transition

/-- The client that the toolbar makes requests about, or a tab. -/
def Toolbar.Call.about : Call → Option String
  | .focus id | .new id | .del id => some id
  | .ignore | .refuse _ | .iconify _ _ | .name _ _ | .icon _ _ | .kbdfocuschange _ | .own _ => none

/-- The manager and its toolbar. -/
structure Ledger where
  session : Session
  bar : Bar := {}
  /-- the messages for the toolbar that it has not handled -/
  inbox : List (String × Option Cid) := []
  /-- the tabs that the toolbar has made -/
  tabs : List (String × Option Cid) := []
  /-- the clicks on tabs, and on the buttons in tabs, that it has not handled -/
  selects : List (String × Option Cid) := []
  closes : List (String × Option Cid) := []
  /-- the requests that it is going to make before it goes on -/
  todo : List (Request × Option Cid) := []

/-- Something that happens at a `Ledger`. -/
inductive Entry where
  /-- a turn of the main loop of the manager -/
  | turn (e : Event)
  /-- the toolbar handles a message -/
  | take
  /-- somebody clicks on a tab -/
  | click (id : String)
  /-- somebody clicks on the button in a tab -/
  | press (id : String)
  /-- the toolbar handles a click on a tab -/
  | select
  /-- the toolbar handles a click on the button in a tab -/
  | close
  /-- the manager handles a request of the toolbar -/
  | serve
  deriving DecidableEq, Repr

namespace Ledger

/-- A manager without clients. -/
def start (screen : Rect) : Ledger := { session := .start screen }

/-- The client that has the id now. -/
def subject (s : Session) (id : String) : Option Cid :=
  (List.range s.wm.z.refs).find? fun c =>
    decide (c ∉ s.left ∧ toString (s.wm.client c).id = id)

/-- A message, with the client that it is about when it is sent. -/
def entered (s : Session) (e : String) : String × Option Cid :=
  (e, ((wmctl e).bind Call.about).bind (subject s))

/-- The messages for the toolbar that are sent between `s` and `s'`. -/
def delivered (t : Cid) (s s' : Session) : List (String × Option Cid) :=
  ((s'.wm.mail t).drop (s.wm.mail t).length).map (entered s)

/-- The tab that the toolbar makes. -/
def made (b : Bar) (c : Option Cid) : Call → List (String × Option Cid)
  | .new id => if id ∈ b.tabs then [] else [(id, c)]
  | _ => []

/-- The toolbar has started control, and is not waiting for an answer. -/
def Ready (t : Cid) (d : Ledger) : Prop :=
  d.todo = [] ∧ d.session.Live t ∧ (d.session.wm.client t).controlstarted = true

instance (t : Cid) (d : Ledger) : Decidable (Ready t d) :=
  inferInstanceAs (Decidable (_ ∧ _ ∧ _))

variable (tk : Bar.Tk) (env : Env) (t : Cid) (d : Ledger)

/-- The manager takes a turn. -/
def turn (e : Event) : Option Ledger :=
  (d.session.step .tabswin env e).map fun s =>
    { d with session := s, inbox := d.inbox ++ delivered t d.session s }

/-- The toolbar handles the message `e` about `c`. -/
def call (e : String) (c : Option Cid) : Option Ledger :=
  (wmctl e).map fun f =>
    { d with
      bar := (d.bar.call tk f).1
      tabs := (made d.bar c f ++ d.tabs).filter fun x => x.1 ∈ (d.bar.call tk f).1.tabs
      todo := (d.bar.call tk f).2.map fun r => (r, c) }

/-- One turn of the manager, or one message that the toolbar takes or one that it sends. -/
def step : Entry → Option Ledger
  | .turn e => d.turn env t e
  | .take =>
    if d.Ready t then
      match d.inbox with
      | [] => none
      | (e, c) :: inbox => call tk { d with inbox := inbox } e c
    else none
  | .click id =>
    if id ∈ d.bar.tabs then
      some { d with selects := d.selects ++ [(id, (d.tabs.lookup id).join)] }
    else none
  | .press id =>
    if id ∈ d.bar.tabs then
      some { d with closes := d.closes ++ [(id, (d.tabs.lookup id).join)] }
    else none
  | .select =>
    if d.Ready t then
      match d.selects with
      | [] => none
      | (id, c) :: selects =>
        some
          { d with
            selects := selects
            bar := (d.bar.clientFocus id).1
            todo := (d.bar.clientFocus id).2.map fun r => (r, c) }
    else none
  | .close =>
    if d.Ready t then
      match d.closes with
      | [] => none
      | (id, c) :: closes => some { d with closes := closes, todo := [(⟨id, .exit⟩, c)] }
    else none
  | .serve =>
    match d.todo with
    | [] => none
    | (r, _) :: todo =>
      turn env t { d with todo := todo } (.request t r.text [])

/-- The clients that something at the toolbar belongs to. -/
def subjects : List Cid :=
  d.inbox.filterMap Prod.snd ++ d.tabs.filterMap Prod.snd ++ d.selects.filterMap Prod.snd ++
    d.closes.filterMap Prod.snd ++ d.todo.filterMap Prod.snd

/-- The id of a new client is an `int` and no other client's; while the toolbar waits for an answer
it makes no other request; and a client comes to the screen only if nothing at the toolbar
belongs to another one with its id. -/
def Sole (d : Ledger) : Entry → Prop
  | .turn (.opened id) => id < 2 ^ 31 ∧
      ∀ c < d.session.wm.z.refs, c ∉ d.session.left → (d.session.wm.client c).id ≠ id
  | .turn (.request c data ptr) => (c = t → d.todo = []) ∧
      (c ∉ d.session.wm.order → Wm.Entering .tabswin env d.session.wm c data ptr →
        ∀ x ∈ d.subjects, (d.session.wm.client x).id = (d.session.wm.client c).id → x = c)
  | _ => True

instance : ∀ x, Decidable (Sole env t d x)
  | .turn (.opened _) => inferInstanceAs (Decidable (_ ∧ ∀ c < _, _ → _))
  | .turn (.request _ _ _) => inferInstanceAs (Decidable ((_ → _) ∧ (_ → _ → ∀ x ∈ _, _)))
  | .turn (.join _) | .turn (.leave _) | .turn (.key _) | .turn (.pointer _ _)
  | .turn (.winctl _ _) => inferInstanceAs (Decidable True)
  | .take | .click _ | .press _ | .select | .close | .serve => inferInstanceAs (Decidable True)

end Ledger

namespace Wm

/-- Between `w` and `w'` all clients keep their ids, and those of `who` keep the control that they
have started. -/
structure Knows (who : Cid → Prop) (w w' : Wm) : Prop where
  id : ∀ a, (w'.client a).id = (w.client a).id
  started : ∀ a, who a → (w.client a).controlstarted = true → (w'.client a).controlstarted = true

variable {m : Manager} {env : Env} {who : Cid → Prop} {w w' w'' : Wm} {c : Cid} {req : String}
  {ptr : List Pointer}

namespace Knows

theorem trans (h : Knows who w w') (h' : Knows who w' w'') : Knows who w w'' :=
  ⟨fun a => (h'.id a).trans (h.id a), fun a ha hs => h'.started a ha (h.started a ha hs)⟩

theorem of_client (h : w'.client = w.client) : Knows who w w' :=
  ⟨fun a => by rw [h], fun a _ hs => by rwa [h]⟩

theorem of_placing {all : Cid → Prop} (h : Placing all c w w') : Knows who w w' :=
  ⟨fun a => (h.client a).id, fun a _ hs => (h.client a).controlstarted.trans hs⟩

theorem put {f : Client → Client} (hid : ∀ cl, (f cl).id = cl.id)
    (hstarted : who c → ∀ cl : Client, cl.controlstarted = true → (f cl).controlstarted = true) :
    Knows who w (w.put c f) := by
  refine ⟨fun a => ?_, fun a ha hs => ?_⟩
  · by_cases hac : a = c
    · subst hac
      rw [put_self]
      exact hid _
    · rw [put_of_ne hac]
  · by_cases hac : a = c
    · subst hac
      rw [put_self]
      exact hstarted ha _ hs
    · rwa [put_of_ne hac]

theorem setfocus (new : Option Cid) : Knows who w (w.setfocus m new) :=
  of_client (setfocus_frame m w new).1

/-- A request gives nobody another id, and nobody but a client itself ends its control. -/
theorem handled (hend : who c → (unquoted req).head? ≠ some "endcontrol")
    (h : Handled m env w c req ptr w') : Knows who w w' := by
  cases h with
  | reshape w₁ tag r hcall =>
    have hcalled : Placing (fun _ => True) c w w₁ := .reshapeCall hcall
    have hplaced : Placing (fun _ => True) c w₁ (Wm.reshape m env w₁ c tag r).1 :=
      .reshape fun _ _ _ => trivial
    exact of_placing (hcalled.trans hplaced)
  | dragged win off w₁ e hdrag =>
    have hplaced : Placing (fun _ => True) c w w' := .drag hdrag
    exact of_placing hplaced
  | top =>
    have hplaced : Placing (fun _ => True) c w (w.top m c) := .top c
    exact of_placing hplaced
  | bottom =>
    have hplaced : Placing (fun _ => True) c w (w.bottom m c) := .bottom c
    exact of_placing hplaced
  | delete tag args =>
    have hdrop : Knows who w (w.put c (·.dropwin tag)) :=
      .put (fun _ => (Client.Same.dropwin tag).id)
        fun _ _ hstarted => (Client.Same.dropwin tag).controlstarted.trans hstarted
    rw [deleteRequest]
    split_ifs
    · exact hdrop.trans (.setfocus none)
    · exact hdrop
  | kbd =>
    have hput : Knows who w (w.put c fun cl => { cl with kbdstarted := true }) :=
      .put (fun _ => rfl) fun _ _ hstarted => hstarted
    exact hput.trans (.setfocus _)
  | control => exact .put (fun _ => rfl) fun _ _ _ => rfl
  | endcontrol args hreq =>
    rw [endcontrolRequest]
    split_ifs
    · exact of_client rfl
    · have hput : Knows who w
          (w.put c fun cl => { cl with controlstarted := false, controller := false }) :=
        .put (fun _ => rfl) fun hc => absurd (congrArg List.head? hreq) (hend hc)
      exact hput.trans (of_client rfl)
  | cursor f hf =>
    have hput : Knows who w (w.put c f) :=
      .put hf.id fun _ _ hstarted => (hf.controlstarted _).trans hstarted
    exact hput.trans (of_client rfl)
  | marked f hf => exact .put hf.id fun _ _ hstarted => (hf.controlstarted _).trans hstarted
  | focus => exact .setfocus _
  | unfocus => exact .setfocus _
  | answered | key | wmctl | pointer | message | forward => exact of_client rfl

theorem onJoin (w : Wm) (c : Cid) : Knows who w (w.onJoin c) := by
  obtain ⟨-, hid, hstarted, -⟩ := Session.onJoin_frame w c
  exact ⟨hid, fun a _ hs => (hstarted a).trans hs⟩

theorem packWindows (w : Wm) (newr : Rect) : Knows who w (w.packWindows env newr) := by
  have hplaced : Placing (fun _ => True) 0 w (w.packWindows env newr) :=
    .packWindows fun _ _ => trivial
  exact of_placing hplaced

theorem onLeave (w : Wm) (c : Cid) : Knows who w (w.onLeave m env c) := by
  have hdeparting : Knows who w (w.departing m c) := of_client (Session.departing_frame m w c).1
  have hdeparted : Knows who w (w.departed m env c) := by
    cases m with
    | rowwm => exact hdeparting.trans (.packWindows _ _)
    | tabswin | topwin => exact hdeparting
  rw [onLeave_eq]
  exact (hdeparted.trans (.setfocus _)).trans (of_client rfl)

theorem onKey (w : Wm) (k : Int) : Knows who w (w.onKey k) := by
  rw [Wm.onKey]
  split <;> exact of_client rfl

theorem onPointer (w : Wm) (p : Pointer) (taken : Bool) : Knows who w (w.onPointer m p taken) := by
  have hat : ∀ c, Knows who w (w.pointAt m c p) := by
    intro c
    simp only [pointAt]
    split_ifs
    · split
      · split_ifs <;> exact of_client rfl
      · exact of_client rfl
    · exact of_client rfl
    · have hraise : Knows who w (w.ctl c "raise") := of_client rfl
      exact hraise.trans (.setfocus _)
    · exact .setfocus _
  rw [onPointer_eq]
  split_ifs
  · exact of_client rfl
  · have haimed : Knows who w (w.aimed m p) := by
      rw [aimed]
      split
      · exact hat _
      · exact of_client rfl
    refine haimed.trans ?_
    rw [deliver]
    split
    · split_ifs <;> exact of_client rfl
    · exact of_client rfl

theorem onWinctl (w : Wm) (e : String) (img : Option Rect) :
    Knows who w (w.onWinctl m env e img) := by
  have hall : ∀ (cs : List Cid) (w : Wm), (ctlAll "exit" cs w).client = w.client := by
    intro cs
    induction cs with
    | nil => exact fun _ => rfl
    | cons c cs ih => exact fun w => (ih _).trans rfl
  have htold : Knows who w (w.told e) := by
    refine of_client ?_
    rw [told]
    split_ifs
    · exact hall _ _
    · rfl
  cases img with
  | some newr =>
    have hplaced : Placing (fun _ => True) 0 (w.told e) ((w.told e).rescreened m env newr) :=
      .rescreened fun _ _ => trivial
    have hscreen : Knows who w ((w.told e).rescreened m env newr) :=
      htold.trans (of_placing hplaced)
    cases m with
    | rowwm => exact hscreen.trans (.packWindows _ _)
    | tabswin | topwin => exact hscreen
  | none => exact htold

end Knows

end Wm

namespace Session

open Wm

variable {m : Manager} {env : Env} {s s' : Session} {e : Event} {who : Cid → Prop}

/-- A turn in which no record is made. -/
theorem step_knows (hstep : s.step m env e = some s') (hopened : ∀ id, e ≠ .opened id)
    (hend : ∀ c data ptr, e = .request c data ptr → who c →
      (unquoted data).head? ≠ some "endcontrol") :
    Knows who s.wm s'.wm ∧ s'.wm.z.refs = s.wm.z.refs ∧ s.left ⊆ s'.left := by
  cases e with
  | opened id => exact absurd rfl (hopened id)
  | join c =>
    simp only [step] at hstep
    split_ifs at hstep
    obtain rfl := Option.some.inj hstep
    exact ⟨.onJoin s.wm c, congrArg Zorder.refs (still_onJoin s.wm c).z, List.Subset.refl _⟩
  | leave c =>
    simp only [step] at hstep
    split_ifs at hstep
    obtain rfl := Option.some.inj hstep
    have hknows : Knows who s.wm (s.wm.onLeave m env c) := .onLeave s.wm c
    have hrefs : (s.wm.onLeave m env c).z.refs = s.wm.z.refs := onLeave_refs s.wm c
    exact ⟨hknows, hrefs, List.subset_cons_self _ _⟩
  | request c data ptr =>
    simp only [step] at hstep
    split_ifs at hstep
    obtain ⟨⟨w, a⟩, hreq, rfl⟩ := Option.map_eq_some_iff.mp hstep
    exact ⟨.handled (hend c data ptr rfl) (handled hreq), handled_refs (handled hreq),
      List.Subset.refl _⟩
  | key k =>
    obtain rfl := Option.some.inj hstep
    exact ⟨.onKey s.wm k, congrArg Zorder.refs (still_onKey s.wm k).z, List.Subset.refl _⟩
  | pointer p taken =>
    obtain rfl := Option.some.inj hstep
    exact ⟨.onPointer s.wm p taken, congrArg Zorder.refs (still_onPointer s.wm p taken).z,
      List.Subset.refl _⟩
  | winctl e img =>
    obtain rfl := Option.some.inj hstep
    exact ⟨.onWinctl s.wm e img, onWinctl_refs s.wm e img, List.Subset.refl _⟩

end Session

namespace Ledger

variable {tk : Bar.Tk} {env : Env} {t c : Cid} {s s' : Session} {d d' : Ledger} {e : Event}
  {r : Request} {id : String}

/-! ## The requests -/

/-- The decimal notation of an id is read as the id. -/
theorem int_id {n : Nat} (h : n < 2 ^ 31) : int (toString n) = n := by
  have hint : Isint n := ⟨by omega, by omega⟩
  have hnat : toString (n : Int) = toString n := rfl
  rw [← hnat]
  exact int_toString hint

theorem words_cons (o : Order) : ∃ msg msgs, o.words = msg :: msgs := by
  cases o <;> exact ⟨_, _, rfl⟩

theorem unquoted_text (r : Request) : unquoted r.text = "ctl" :: r.id :: r.order.words :=
  unquoted_quoted _

theorem head?_text (r : Request) : (unquoted r.text).head? = some "ctl" :=
  congrArg List.head? (unquoted_text r)

/-- The toolbar's requests put nobody on the screen. -/
theorem not_entering_text (w : Wm) (r : Request) :
    ¬ Wm.Entering .tabswin env w t r.text [] := by
  rintro (⟨-, hraise⟩ | hcall)
  · exact absurd (Option.some.inj ((head?_text r).symm.trans hraise)) (by decide)
  · rw [Wm.reshapeCall, unquoted_text] at hcall
    cases hcall

/-- What the manager answers to a client in control that asks for a message to be passed on. -/
theorem handlerequest_text {m : Manager} (w : Wm) (r : Request)
    (hstarted : (w.client t).controlstarted = true) :
    w.handlerequest m env t r.text [] =
      some ((w.order.find? fun z => ((w.client z).id : Int) = int r.id).elim
        (w, some "no such client") fun z => (w.ctl z (quoted r.order.words), none)) := by
  obtain ⟨msg, msgs, hwords⟩ := words_cons r.order
  have hreq := unquoted_text r
  rw [hwords] at hreq ⊢
  have hlen : ¬ (r.id :: msg :: msgs).length < 2 := by
    simp only [List.length_cons]
    omega
  rw [Wm.handlerequest_cons hreq, if_neg fun hshort => hlen hshort.2, if_neg (by decide)]
  simp only [Wm.plainRequest, Wm.ctlRequest, hstarted, Bool.true_eq_false, if_false]
  cases w.order.find? fun z => ((w.client z).id : Int) = int r.id <;> rfl

/-! ## Who everything belongs to -/

/-- The client has that id. -/
def Names (s : Session) (id : String) (c : Cid) : Prop :=
  c < s.wm.z.refs ∧ id = toString (s.wm.client c).id

/-- No other client has the id of one of the clients `l`. -/
def Unmistaken (s : Session) (l : List Cid) (z : Cid) : Prop :=
  z < s.wm.z.refs ∧ ∀ x ∈ l, (s.wm.client x).id = (s.wm.client z).id → x = z

/-- What belongs to a client has its id, and no other client with this id is on the screen. -/
structure Straight (t : Cid) (d : Ledger) : Prop where
  lists : Wm.Lists d.session.left (Unmistaken d.session d.subjects) d.session.wm
  unique : ∀ a b, d.session.Live a → d.session.Live b →
    (d.session.wm.client a).id = (d.session.wm.client b).id → a = b
  small : ∀ a < d.session.wm.z.refs, (d.session.wm.client a).id < 2 ^ 31
  inbox : ∀ y ∈ d.inbox, ∀ x ∈ y.2, ∃ id ∈ (wmctl y.1).bind Call.about, Names d.session id x
  tabs : ∀ y ∈ d.tabs, ∀ x ∈ y.2, Names d.session y.1 x
  selects : ∀ y ∈ d.selects, ∀ x ∈ y.2, Names d.session y.1 x
  closes : ∀ y ∈ d.closes, ∀ x ∈ y.2, Names d.session y.1 x
  todo : ∀ y ∈ d.todo, ∀ x ∈ y.2, Names d.session y.1.id x
  control : d.todo ≠ [] →
    t < d.session.wm.z.refs ∧ (d.session.wm.client t).controlstarted = true

theorem start_straight (screen : Rect) : Straight t (start screen) where
  lists := ⟨[], Zorder.Standing.empty, fun _ ha => absurd ha List.not_mem_nil⟩
  unique := fun _ _ ha => absurd ha.1 (Nat.not_lt_zero _)
  small := fun _ ha => absurd ha (Nat.not_lt_zero _)
  inbox := fun _ hy => absurd hy List.not_mem_nil
  tabs := fun _ hy => absurd hy List.not_mem_nil
  selects := fun _ hy => absurd hy List.not_mem_nil
  closes := fun _ hy => absurd hy List.not_mem_nil
  todo := fun _ hy => absurd hy List.not_mem_nil
  control := fun h => absurd rfl h

theorem mem_subjects {x : Cid} : x ∈ d.subjects ↔
    (∃ y ∈ d.inbox, x ∈ y.2) ∨ (∃ y ∈ d.tabs, x ∈ y.2) ∨ (∃ y ∈ d.selects, x ∈ y.2) ∨
      (∃ y ∈ d.closes, x ∈ y.2) ∨ ∃ y ∈ d.todo, x ∈ y.2 := by
  simp only [subjects, List.mem_append, List.mem_filterMap, Option.mem_def, or_assoc]

/-- Whoever something belongs to has been a client. -/
theorem Straight.bound (h : Straight t d) : ∀ x ∈ d.subjects, x < d.session.wm.z.refs := by
  intro x hx
  rcases mem_subjects.mp hx with ⟨y, hy, hx⟩ | ⟨y, hy, hx⟩ | ⟨y, hy, hx⟩ | ⟨y, hy, hx⟩ | ⟨y, hy, hx⟩
  · obtain ⟨id, -, hnames⟩ := h.inbox y hy x hx
    exact hnames.1
  · exact (h.tabs y hy x hx).1
  · exact (h.selects y hy x hx).1
  · exact (h.closes y hy x hx).1
  · exact (h.todo y hy x hx).1

theorem subject_eq_some {x : Cid} (h : subject s id = some x) :
    s.Live x ∧ Names s id x := by
  rw [subject] at h
  have hmem := List.mem_range.mp (List.mem_of_find?_eq_some h)
  have hfound := List.find?_some
    (p := fun c => decide (c ∉ s.left ∧ toString (s.wm.client c).id = id)) h
  obtain ⟨hleft, hid⟩ := of_decide_eq_true hfound
  exact ⟨⟨hmem, hleft⟩, hmem, hid.symm⟩

/-- A message that is sent in a turn is about somebody who is there. -/
theorem mem_delivered {y : String × Option Cid} (hy : y ∈ delivered t s s') :
    ∀ x ∈ y.2, s.Live x ∧ ∃ id ∈ (wmctl y.1).bind Call.about, Names s id x := by
  obtain ⟨e, -, rfl⟩ := List.mem_map.mp hy
  intro x hx
  obtain ⟨id, hid, hsubject⟩ := Option.bind_eq_some_iff.mp hx
  obtain ⟨hlive, hnames⟩ := subject_eq_some hsubject
  exact ⟨hlive, id, hid, hnames⟩

/-- The requests that a call makes are about the client that it is about. -/
theorem call_requests (tk : Bar.Tk) (b : Bar) (f : Call) : ∀ r ∈ (b.call tk f).2, f.about = some r.id := by
  intro r hr
  cases f with
  | focus id =>
    rw [Bar.call, Bar.clientFocus] at hr
    by_cases htab : id ∈ b.tabs
    · rw [if_pos htab] at hr
      rcases List.mem_cons.mp hr with rfl | hr
      · rfl
      · rw [List.mem_singleton.mp hr]
        rfl
    · rw [if_neg htab] at hr
      cases hr
  | del id =>
    rw [Bar.call, Bar.clientDel] at hr
    by_cases htab : id ∈ b.tabs
    · rw [if_pos htab] at hr
      rw [List.mem_singleton.mp hr]
      rfl
    · rw [if_neg htab] at hr
      cases hr
  | ignore | refuse | iconify | name | icon | kbdfocuschange | new | own => cases hr

theorem mem_made {b : Bar} {f : Call} {y : String × Option Cid} {c : Option Cid}
    (h : y ∈ made b c f) : f.about = some y.1 ∧ y.2 = c := by
  cases f with
  | new id =>
    simp only [made] at h
    split_ifs at h
    · cases h
    · rw [List.mem_singleton.mp h]
      exact ⟨rfl, rfl⟩
  | ignore | refuse | focus | iconify | name | icon | kbdfocuschange | del | own => cases h

/-! ## Turns of the manager -/

/-- What the manager has done since. -/
theorem Names.mono (h : Names s id c) (hrefs : s.wm.z.refs ≤ s'.wm.z.refs)
    (hid : ∀ a < s.wm.z.refs, (s'.wm.client a).id = (s.wm.client a).id) : Names s' id c :=
  ⟨Nat.lt_of_lt_of_le h.1 hrefs, h.2.trans (congrArg toString (hid c h.1).symm)⟩

/-- A turn after which everybody has the same id as before. -/
theorem Straight.turn (h : Straight t d) (hrefs : d.session.wm.z.refs ≤ s'.wm.z.refs)
    (hid : ∀ a < d.session.wm.z.refs, (s'.wm.client a).id = (d.session.wm.client a).id)
    (hleft : d.session.left ⊆ s'.left)
    (hlists : Wm.Lists s'.left (Unmistaken d.session d.subjects) s'.wm)
    (hunique : ∀ a b, s'.Live a → s'.Live b → (s'.wm.client a).id = (s'.wm.client b).id → a = b)
    (hsmall : ∀ a < s'.wm.z.refs, (s'.wm.client a).id < 2 ^ 31)
    (hcontrol : d.todo ≠ [] → t < s'.wm.z.refs ∧ (s'.wm.client t).controlstarted = true) :
    Straight t { d with session := s', inbox := d.inbox ++ delivered t d.session s' } := by
  have hnames : ∀ {id : String} {x : Cid}, Names d.session id x → Names s' id x :=
    fun hx => hx.mono hrefs hid
  refine ⟨?_, hunique, hsmall, ?_, fun y hy x hx => hnames (h.tabs y hy x hx),
    fun y hy x hx => hnames (h.selects y hy x hx), fun y hy x hx => hnames (h.closes y hy x hx),
    fun y hy x hx => hnames (h.todo y hy x hx), hcontrol⟩
  · refine hlists.strengthen fun z _ hz hsole => ⟨Nat.lt_of_lt_of_le hsole.1 hrefs, ?_⟩
    intro x hx hxz
    have hsubject : x ∈ d.subjects ∨ d.session.Live x := by
      rcases mem_subjects.mp hx with ⟨y, hy, hx⟩ | hx
      · rcases List.mem_append.mp hy with hy | hy
        · exact Or.inl (mem_subjects.mpr (Or.inl ⟨y, hy, hx⟩))
        · exact Or.inr (mem_delivered hy x hx).1
      · exact Or.inl (mem_subjects.mpr (Or.inr hx))
    have hbound : x < d.session.wm.z.refs := hsubject.elim (h.bound x) fun hlive => hlive.1
    have hold : (d.session.wm.client x).id = (d.session.wm.client z).id := by
      rw [← hid x hbound, ← hid z hsole.1]
      exact hxz
    rcases hsubject with hsubject | hlive
    · exact hsole.2 x hsubject hold
    · -- both were there when the message was sent
      exact h.unique x z hlive ⟨hsole.1, fun hm => hz (hleft hm)⟩ hold
  · intro y hy x hx
    rcases List.mem_append.mp hy with hy | hy
    · obtain ⟨id, habout, hx⟩ := h.inbox y hy x hx
      exact ⟨id, habout, hnames hx⟩
    · obtain ⟨-, id, habout, hx⟩ := mem_delivered hy x hx
      exact ⟨id, habout, hnames hx⟩

/-- A record is made. -/
theorem opened_straight (h : Straight t d) {id : Nat} (hsole : Sole env t d (.turn (.opened id)))
    (hstep : d.turn env t (.opened id) = some d') : Straight t d' := by
  obtain ⟨hint, hfresh⟩ := hsole
  obtain ⟨s', hopened, rfl⟩ := Option.map_eq_some_iff.mp hstep
  obtain rfl := Option.some.inj hopened
  have hold : ∀ a < d.session.wm.z.refs,
      (d.session.wm.addclient id).client a = d.session.wm.client a :=
    fun a ha => Wm.addclient_of_ne (Nat.ne_of_lt ha) id
  have hself := Wm.addclient_self d.session.wm id
  have hcases : ∀ {a}, a < d.session.wm.z.refs + 1 →
      a < d.session.wm.z.refs ∨ a = d.session.wm.z.refs := Nat.lt_succ_iff_lt_or_eq.mp
  refine h.turn (Nat.le_succ _) (fun a ha => congrArg Client.id (hold a ha)) (List.Subset.refl _)
    (h.lists.opened id) ?_ ?_ ?_
  · rintro a b ⟨ha, haleft⟩ ⟨hb, hbleft⟩ hid
    dsimp only at hid
    rcases hcases ha with ha | rfl
    · rcases hcases hb with hb | rfl
      · rw [hold a ha, hold b hb] at hid
        exact h.unique a b ⟨ha, haleft⟩ ⟨hb, hbleft⟩ hid
      · rw [hold a ha, hself] at hid
        exact absurd hid (hfresh a ha haleft)
    · rcases hcases hb with hb | rfl
      · rw [hold b hb, hself] at hid
        exact absurd hid.symm (hfresh b hb hbleft)
      · rfl
  · intro a ha
    dsimp only
    rcases hcases ha with ha | rfl
    · rw [hold a ha]
      exact h.small a ha
    · rw [hself]
      exact hint
  · intro hwaits
    obtain ⟨ht, hstarted⟩ := h.control hwaits
    refine ⟨Nat.lt_succ_of_lt ht, ?_⟩
    dsimp only
    rw [hold t ht]
    exact hstarted

/-- Any other turn, in which nobody comes to the screen who might be mistaken for another client,
and in which the toolbar does not end the control that it needs. -/
theorem turn_straight (h : Straight t d) (hopened : ∀ id, e ≠ .opened id)
    (hsole : ∀ c data ptr, e = .request c data ptr → c ∉ d.session.wm.order →
      Wm.Entering .tabswin env d.session.wm c data ptr →
        ∀ x ∈ d.subjects, (d.session.wm.client x).id = (d.session.wm.client c).id → x = c)
    (hend : d.todo ≠ [] → ∀ data ptr, e = .request t data ptr →
      (unquoted data).head? ≠ some "endcontrol")
    (hstep : d.turn env t e = some d') : Straight t d' := by
  obtain ⟨s', hturn, rfl⟩ := Option.map_eq_some_iff.mp hstep
  have hkeeps : ∀ c data ptr, e = .request c data ptr → (c = t ∧ d.todo ≠ []) →
      (unquoted data).head? ≠ some "endcontrol" := by
    rintro c data ptr he ⟨rfl, hwaits⟩
    exact hend hwaits data ptr he
  obtain ⟨hknows, hrefs, hleft⟩ := Session.step_knows hturn hopened hkeeps
  have hwho : ∀ c data ptr, e = .request c data ptr →
      Wm.Entering .tabswin env d.session.wm c data ptr →
        Unmistaken d.session d.subjects c := by
    rintro c data ptr rfl hentering
    by_cases hc : c ∈ d.session.wm.order
    · exact (h.lists.mem_order hc).2.2
    · refine ⟨?_, hsole c data ptr rfl hc hentering⟩
      simp only [Session.step] at hturn
      split_ifs at hturn with hlive
      exact hlive.1
  have hlists : Wm.Lists s'.left (Unmistaken d.session d.subjects) s'.wm :=
    Session.step_lists h.lists hwho hturn
  refine h.turn (Nat.le_of_eq hrefs.symm) (fun a _ => hknows.id a) hleft hlists ?_ ?_ ?_
  · rintro a b ⟨ha, haleft⟩ ⟨hb, hbleft⟩ hid
    rw [hknows.id, hknows.id] at hid
    rw [hrefs] at ha hb
    exact h.unique a b ⟨ha, fun hm => haleft (hleft hm)⟩ ⟨hb, fun hm => hbleft (hleft hm)⟩ hid
  · intro a ha
    rw [hknows.id]
    exact h.small a (hrefs ▸ ha)
  · intro hwaits
    obtain ⟨ht, hstarted⟩ := h.control hwaits
    exact ⟨hrefs.symm ▸ ht, hknows.started t ⟨rfl, hwaits⟩ hstarted⟩

/-! ## What the toolbar does -/

/-- The toolbar leaves the manager alone, and nothing that belongs to a client comes from
nowhere. -/
theorem Straight.aside (h : Straight t d) (hsession : d'.session = d.session)
    (hsubjects : d'.subjects ⊆ d.subjects)
    (hinbox : d'.inbox ⊆ d.inbox)
    (htabs : ∀ y ∈ d'.tabs, ∀ x ∈ y.2, Names d.session y.1 x)
    (hselects : ∀ y ∈ d'.selects, ∀ x ∈ y.2, Names d.session y.1 x)
    (hcloses : ∀ y ∈ d'.closes, ∀ x ∈ y.2, Names d.session y.1 x)
    (htodo : ∀ y ∈ d'.todo, ∀ x ∈ y.2, Names d.session y.1.id x)
    (hcontrol : d'.todo ≠ [] →
      t < d.session.wm.z.refs ∧ (d.session.wm.client t).controlstarted = true) :
    Straight t d' := by
  have hlists : Wm.Lists d.session.left (Unmistaken d.session d'.subjects) d.session.wm := by
    refine h.lists.strengthen fun z _ _ hz => ⟨hz.1, fun x hx => hz.2 x (hsubjects hx)⟩
  have hmail : ∀ y ∈ d'.inbox, ∀ x ∈ y.2,
      ∃ id ∈ (wmctl y.1).bind Call.about, Names d.session id x :=
    fun y hy => h.inbox y (hinbox hy)
  constructor
  all_goals rw [hsession]
  · exact hlists
  · exact h.unique
  · exact h.small
  · exact hmail
  · exact htabs
  · exact hselects
  · exact hcloses
  · exact htodo
  · exact hcontrol

/-- Handling a message makes no subject that the message did not have. -/
theorem take_straight (h : Straight t d) (hready : d.Ready t) {e : String} {c : Option Cid}
    {inbox : List (String × Option Cid)} (hinbox : d.inbox = (e, c) :: inbox)
    (hcall : call tk { d with inbox := inbox } e c = some d') : Straight t d' := by
  obtain ⟨f, hf, rfl⟩ := Option.map_eq_some_iff.mp hcall
  have hhead : (e, c) ∈ d.inbox := hinbox ▸ List.mem_cons_self
  have hrest : inbox ⊆ d.inbox := hinbox ▸ List.subset_cons_self _ _
  -- what the message is about has the id of its subject
  have habout : ∀ id, f.about = some id → ∀ x ∈ c, Names d.session id x := by
    intro id hid x hx
    obtain ⟨id', hid', hnames⟩ := h.inbox (e, c) hhead x hx
    rw [hf] at hid'
    rwa [Option.some.inj (hid.symm.trans hid')]
  have htab : ∀ y ∈ (made d.bar c f ++ d.tabs).filter
      fun x => x.1 ∈ (d.bar.call tk f).1.tabs, y ∈ made d.bar c f ∨ y ∈ d.tabs :=
    fun y hy => List.mem_append.mp (List.mem_filter.mp hy).1
  refine h.aside rfl ?_ hrest ?_ h.selects h.closes ?_ fun _ => ⟨hready.2.1.1, hready.2.2⟩
  · intro x hx
    rcases mem_subjects.mp hx with ⟨y, hy, hx⟩ | ⟨y, hy, hx⟩ | hx | hx | ⟨y, hy, hx⟩
    · exact mem_subjects.mpr (Or.inl ⟨y, hrest hy, hx⟩)
    · rcases htab y hy with hy | hy
      · rw [(mem_made hy).2] at hx
        exact mem_subjects.mpr (Or.inl ⟨_, hhead, hx⟩)
      · exact mem_subjects.mpr (Or.inr (Or.inl ⟨y, hy, hx⟩))
    · exact mem_subjects.mpr (Or.inr (Or.inr (Or.inl hx)))
    · exact mem_subjects.mpr (Or.inr (Or.inr (Or.inr (Or.inl hx))))
    · obtain ⟨r, -, rfl⟩ := List.mem_map.mp hy
      exact mem_subjects.mpr (Or.inl ⟨_, hhead, hx⟩)
  · intro y hy x hx
    rcases htab y hy with hy | hy
    · obtain ⟨hid, hc⟩ := mem_made hy
      exact habout y.1 hid x (hc ▸ hx)
    · exact h.tabs y hy x hx
  · intro y hy x hx
    obtain ⟨r, hr, rfl⟩ := List.mem_map.mp hy
    exact habout r.id (call_requests tk d.bar f r hr) x hx

/-- A click on a tab is about the client that the tab belongs to. -/
theorem Straight.of_tab (h : Straight t d) {x : Cid} (hx : x ∈ (d.tabs.lookup id).join) :
    x ∈ d.subjects ∧ Names d.session id x := by
  have hlookup : d.tabs.lookup id = some (some x) := Option.join_eq_some_iff.mp hx
  obtain ⟨before, after, htabs, -⟩ := List.lookup_eq_some_iff.mp hlookup
  have hmem : (id, some x) ∈ d.tabs := by
    rw [htabs]
    exact List.mem_append_right _ List.mem_cons_self
  exact ⟨mem_subjects.mpr (Or.inr (Or.inl ⟨_, hmem, rfl⟩)), h.tabs _ hmem x rfl⟩

theorem click_straight (h : Straight t d) :
    Straight t { d with selects := d.selects ++ [(id, (d.tabs.lookup id).join)] } := by
  refine h.aside rfl ?_ (List.Subset.refl _) h.tabs ?_ h.closes h.todo h.control
  · intro x hx
    rcases mem_subjects.mp hx with hx | hx | ⟨y, hy, hx⟩ | hx
    · exact mem_subjects.mpr (Or.inl hx)
    · exact mem_subjects.mpr (Or.inr (Or.inl hx))
    · rcases List.mem_append.mp hy with hy | hy
      · exact mem_subjects.mpr (Or.inr (Or.inr (Or.inl ⟨y, hy, hx⟩)))
      · rw [List.mem_singleton.mp hy] at hx
        exact (h.of_tab hx).1
    · exact mem_subjects.mpr (Or.inr (Or.inr (Or.inr hx)))
  · intro y hy x hx
    rcases List.mem_append.mp hy with hy | hy
    · exact h.selects y hy x hx
    · rw [List.mem_singleton.mp hy] at hx ⊢
      exact (h.of_tab hx).2

theorem press_straight (h : Straight t d) :
    Straight t { d with closes := d.closes ++ [(id, (d.tabs.lookup id).join)] } := by
  refine h.aside rfl ?_ (List.Subset.refl _) h.tabs h.selects ?_ h.todo h.control
  · intro x hx
    rcases mem_subjects.mp hx with hx | hx | hx | ⟨y, hy, hx⟩ | hx
    · exact mem_subjects.mpr (Or.inl hx)
    · exact mem_subjects.mpr (Or.inr (Or.inl hx))
    · exact mem_subjects.mpr (Or.inr (Or.inr (Or.inl hx)))
    · rcases List.mem_append.mp hy with hy | hy
      · exact mem_subjects.mpr (Or.inr (Or.inr (Or.inr (Or.inl ⟨y, hy, hx⟩))))
      · rw [List.mem_singleton.mp hy] at hx
        exact (h.of_tab hx).1
    · exact mem_subjects.mpr (Or.inr (Or.inr (Or.inr (Or.inr hx))))
  · intro y hy x hx
    rcases List.mem_append.mp hy with hy | hy
    · exact h.closes y hy x hx
    · rw [List.mem_singleton.mp hy] at hx ⊢
      exact (h.of_tab hx).2

/-- The toolbar selects a tab. -/
theorem select_straight (h : Straight t d) (hready : d.Ready t) {c : Option Cid}
    {selects : List (String × Option Cid)} (hselects : d.selects = (id, c) :: selects) :
    Straight t
      { d with
        selects := selects
        bar := (d.bar.clientFocus id).1
        todo := (d.bar.clientFocus id).2.map fun r => (r, c) } := by
  have hhead : (id, c) ∈ d.selects := hselects ▸ List.mem_cons_self
  have hrest : selects ⊆ d.selects := hselects ▸ List.subset_cons_self _ _
  refine h.aside rfl ?_ (List.Subset.refl _) h.tabs (fun y hy => h.selects y (hrest hy)) h.closes
    ?_ fun _ => ⟨hready.2.1.1, hready.2.2⟩
  · intro x hx
    rcases mem_subjects.mp hx with hx | hx | ⟨y, hy, hx⟩ | hx | ⟨y, hy, hx⟩
    · exact mem_subjects.mpr (Or.inl hx)
    · exact mem_subjects.mpr (Or.inr (Or.inl hx))
    · exact mem_subjects.mpr (Or.inr (Or.inr (Or.inl ⟨y, hrest hy, hx⟩)))
    · exact mem_subjects.mpr (Or.inr (Or.inr (Or.inr (Or.inl hx))))
    · obtain ⟨r, -, rfl⟩ := List.mem_map.mp hy
      exact mem_subjects.mpr (Or.inr (Or.inr (Or.inl ⟨_, hhead, hx⟩)))
  · intro y hy x hx
    obtain ⟨r, hr, rfl⟩ := List.mem_map.mp hy
    have hid := call_requests (fun _ _ => none) d.bar (.focus id) r hr
    obtain rfl := Option.some.inj hid
    exact h.selects _ hhead x hx

/-- The toolbar asks a client to exit. -/
theorem close_straight (h : Straight t d) (hready : d.Ready t) {c : Option Cid}
    {closes : List (String × Option Cid)} (hcloses : d.closes = (id, c) :: closes) :
    Straight t { d with closes := closes, todo := [(⟨id, .exit⟩, c)] } := by
  have hhead : (id, c) ∈ d.closes := hcloses ▸ List.mem_cons_self
  have hrest : closes ⊆ d.closes := hcloses ▸ List.subset_cons_self _ _
  refine h.aside rfl ?_ (List.Subset.refl _) h.tabs h.selects (fun y hy => h.closes y (hrest hy))
    ?_ fun _ => ⟨hready.2.1.1, hready.2.2⟩
  · intro x hx
    rcases mem_subjects.mp hx with hx | hx | hx | ⟨y, hy, hx⟩ | ⟨y, hy, hx⟩
    · exact mem_subjects.mpr (Or.inl hx)
    · exact mem_subjects.mpr (Or.inr (Or.inl hx))
    · exact mem_subjects.mpr (Or.inr (Or.inr (Or.inl hx)))
    · exact mem_subjects.mpr (Or.inr (Or.inr (Or.inr (Or.inl ⟨y, hrest hy, hx⟩))))
    · rw [List.mem_singleton.mp hy] at hx
      exact mem_subjects.mpr (Or.inr (Or.inr (Or.inr (Or.inl ⟨_, hhead, hx⟩))))
  · intro y hy x hx
    rw [List.mem_singleton.mp hy] at hx ⊢
    exact h.closes _ hhead x hx

/-- The manager handles a request of the toolbar. -/
theorem serve_straight (h : Straight t d) {y : Request × Option Cid}
    {todo : List (Request × Option Cid)} (htodo : d.todo = y :: todo)
    (hturn : turn env t { d with todo := todo } (.request t y.1.text []) = some d') :
    Straight t d' := by
  have hrest : todo ⊆ d.todo := htodo ▸ List.subset_cons_self _ _
  have hcontrol := h.control (htodo ▸ List.cons_ne_nil _ _)
  have hbefore : Straight t { d with todo := todo } := by
    refine h.aside rfl ?_ (List.Subset.refl _) h.tabs h.selects h.closes
      (fun y hy => h.todo y (hrest hy)) fun _ => hcontrol
    intro x hx
    rcases mem_subjects.mp hx with hx | hx | hx | hx | ⟨y, hy, hx⟩
    · exact mem_subjects.mpr (Or.inl hx)
    · exact mem_subjects.mpr (Or.inr (Or.inl hx))
    · exact mem_subjects.mpr (Or.inr (Or.inr (Or.inl hx)))
    · exact mem_subjects.mpr (Or.inr (Or.inr (Or.inr (Or.inl hx))))
    · exact mem_subjects.mpr (Or.inr (Or.inr (Or.inr (Or.inr ⟨y, hrest hy, hx⟩))))
  refine turn_straight hbefore (fun _ => Event.noConfusion) ?_ ?_ hturn
  · intro c data ptr he _ hentering
    obtain ⟨rfl, rfl, rfl⟩ := Event.request.inj he
    exact absurd hentering (not_entering_text _ _)
  · intro _ data ptr he
    obtain ⟨-, rfl, -⟩ := Event.request.inj he
    rw [head?_text]
    decide

/-! ## Runs -/

theorem step_straight (h : Straight t d) {x : Entry} (hsole : Sole env t d x)
    (hstep : d.step tk env t x = some d') : Straight t d' := by
  cases x with
  | turn e =>
    by_cases hopened : ∃ id, e = .opened id
    · obtain ⟨id, rfl⟩ := hopened
      exact opened_straight h hsole hstep
    -- a turn that makes no record lets nobody take an id that is still in use
    · refine turn_straight h (fun id he => hopened ⟨id, he⟩) ?_ ?_ hstep
      · rintro c data ptr rfl
        exact hsole.2
      · rintro hwaits data ptr rfl
        exact absurd (hsole.1 rfl) hwaits
  | take =>
    simp only [step] at hstep
    split_ifs at hstep with hready
    cases hinbox : d.inbox with
    | nil =>
      rw [hinbox] at hstep
      cases hstep
    | cons y inbox =>
      rw [hinbox] at hstep
      exact take_straight h hready hinbox hstep
  | click id =>
    simp only [step] at hstep
    split_ifs at hstep
    obtain rfl := Option.some.inj hstep
    exact click_straight h
  | press id =>
    simp only [step] at hstep
    split_ifs at hstep
    obtain rfl := Option.some.inj hstep
    exact press_straight h
  | select =>
    simp only [step] at hstep
    split_ifs at hstep with hready
    cases hselects : d.selects with
    | nil =>
      rw [hselects] at hstep
      cases hstep
    | cons y selects =>
      rw [hselects] at hstep
      obtain rfl := Option.some.inj hstep
      exact select_straight h hready hselects
  | close =>
    simp only [step] at hstep
    split_ifs at hstep with hready
    cases hcloses : d.closes with
    | nil =>
      rw [hcloses] at hstep
      cases hstep
    | cons y closes =>
      rw [hcloses] at hstep
      obtain rfl := Option.some.inj hstep
      exact close_straight h hready hcloses
  | serve =>
    simp only [step] at hstep
    cases htodo : d.todo with
    | nil =>
      rw [htodo] at hstep
      cases hstep
    | cons y todo =>
      rw [htodo] at hstep
      exact serve_straight h htodo hstep

/-- However the clients come and go, ask for windows and are clicked on: as long as no client comes
to the screen while something at the toolbar belongs to another one with its id, a request of the
toolbar reaches the client that it is about, and is refused only if this client is not on the
screen. -/
theorem well_addressed {screen : Rect} {es : List Entry}
    (h : Run (Guarded (Sole env t) (StepOf (step tk env t))) (start screen) es d) :
    ∀ x ∈ d.todo.head?, ∀ c ∈ x.2,
      d.session.wm.handlerequest .tabswin env t x.1.text [] =
        if c ∈ d.session.wm.order then some (d.session.wm.ctl c (quoted x.1.order.words), none)
        else some (d.session.wm, some "no such client") := by
  have hstraight : Straight t d := by
    refine h.invariant (start_straight screen) ?_
    rintro d x d' hd ⟨hsole, hstep⟩
    exact step_straight hd hsole hstep
  intro x hx c hc
  obtain ⟨rest, htodo⟩ := List.head?_eq_some_iff.mp hx
  have hmem : x ∈ d.todo := htodo ▸ List.mem_cons_self
  obtain ⟨hbound, hname⟩ := hstraight.todo x hmem c hc
  have hstarted := (hstraight.control (List.ne_nil_of_mem hmem)).2
  have hid : int x.1.id = (d.session.wm.client c).id := by
    rw [hname, int_id (hstraight.small c hbound)]
  rw [handlerequest_text d.session.wm x.1 hstarted, hid]
  cases hfind : d.session.wm.order.find?
      fun z => ((d.session.wm.client z).id : Int) = (d.session.wm.client c).id with
  | none =>
    have hnot : c ∉ d.session.wm.order := by
      intro hc
      exact absurd (decide_eq_true rfl) (List.find?_eq_none.mp hfind c hc)
    rw [if_neg hnot]
    rfl
  | some z =>
    -- it has the id of `c`, and is on the screen
    have hz : ((d.session.wm.client z).id : Int) = (d.session.wm.client c).id := by
      simpa using List.find?_some hfind
    have horder := List.mem_of_find?_eq_some hfind
    have hsole := hstraight.lists.mem_order horder
    have hsubject : c ∈ d.subjects := by
      exact mem_subjects.mpr (Or.inr (Or.inr (Or.inr (Or.inr ⟨x, hmem, hc⟩))))
    obtain rfl := hsole.2.2.2 c hsubject (Int.ofNat.inj hz).symm
    rw [if_pos horder]
    rfl

/-- The second client leaves, and the toolbar still asks for the focus to be taken from it. -/
theorem well_addressed_leave :
    ∃ d, Run (Guarded (Sole default 0) (StepOf (step (fun _ _ => none) default 0)))
        (start ⟨⟨0, 0⟩, ⟨196, 400⟩⟩)
        [.turn (.opened 0), .turn (.join 0), .turn (.request 0 "start control" []),
          .turn (.opened 1), .turn (.join 1), .turn (.request 0 "!reshape . -1 0 0 196 20" []),
          .take, .take, .turn (.request 1 "start kbd" []), .turn (.leave 1), .take, .take] d ∧
      d.todo.head? = some (⟨"1", .kbdfocus⟩, some 1) ∧
      d.session.wm.handlerequest .tabswin default 0 "ctl 1 kbdfocus 1" [] =
        if 1 ∈ d.session.wm.order then some (d.session.wm.ctl 1 "kbdfocus 1", none)
        else some (d.session.wm, some "no such client") := by
  obtain ⟨d, hrun, hhead⟩ : ∃ d, Run (Guarded (Sole default 0)
      (StepOf (step (fun _ _ => none) default 0))) (start ⟨⟨0, 0⟩, ⟨196, 400⟩⟩)
      [.turn (.opened 0), .turn (.join 0), .turn (.request 0 "start control" []),
        .turn (.opened 1), .turn (.join 1), .turn (.request 0 "!reshape . -1 0 0 196 20" []),
        .take, .take, .turn (.request 1 "start kbd" []), .turn (.leave 1), .take, .take] d ∧
      d.todo.head? = some (⟨"1", .kbdfocus⟩, some 1) :=
    Run.exists_of_execGuarded (by decide +kernel)
  exact ⟨d, hrun, hhead, well_addressed hrun _ hhead 1 rfl⟩

/-- Once the place is taken by then, the request goes to the client that has it now. -/
theorem misdelivered :
    ∃ d, Run (StepOf (step (fun _ _ => none) default 0)) (start ⟨⟨0, 0⟩, ⟨196, 400⟩⟩)
        [.turn (.opened 0), .turn (.join 0), .turn (.request 0 "start control" []),
          .turn (.opened 1), .turn (.join 1), .turn (.request 0 "!reshape . -1 0 0 196 20" []),
          .take, .take, .turn (.request 1 "start kbd" []), .turn (.leave 1), .turn (.opened 1),
          .turn (.join 2), .turn (.request 2 "!reshape . -1 0 0 50 20" []), .take, .take] d ∧
      d.todo.head? = some (⟨"1", .kbdfocus⟩, some 1) ∧
      d.session.wm.handlerequest .tabswin default 0 "ctl 1 kbdfocus 1" [] =
        some (d.session.wm.ctl 2 "kbdfocus 1", none) ∧
      ¬ ∀ x ∈ d.todo.head?, ∀ c ∈ x.2,
        d.session.wm.handlerequest .tabswin default 0 x.1.text [] =
            some (d.session.wm.ctl c (quoted x.1.order.words), none) ∨
          d.session.wm.handlerequest .tabswin default 0 x.1.text [] =
            some (d.session.wm, some "no such client") := by
  obtain ⟨d, hrun, hhead, hstarted, hfind⟩ : ∃ d, Run (StepOf (step (fun _ _ => none) default 0))
      (start ⟨⟨0, 0⟩, ⟨196, 400⟩⟩)
      [.turn (.opened 0), .turn (.join 0), .turn (.request 0 "start control" []),
        .turn (.opened 1), .turn (.join 1), .turn (.request 0 "!reshape . -1 0 0 196 20" []),
        .take, .take, .turn (.request 1 "start kbd" []), .turn (.leave 1), .turn (.opened 1),
        .turn (.join 2), .turn (.request 2 "!reshape . -1 0 0 50 20" []), .take, .take] d ∧
      d.todo.head? = some (⟨"1", .kbdfocus⟩, some 1) ∧
      (d.session.wm.client 0).controlstarted = true ∧
      (d.session.wm.order.find? fun z => ((d.session.wm.client z).id : Int) = int "1") = some 2 :=
    Run.exists_of_exec (by decide +kernel)
  have hanswer : d.session.wm.handlerequest .tabswin default 0 "ctl 1 kbdfocus 1" [] =
      some (d.session.wm.ctl 2 "kbdfocus 1", none) := by
    have htext := @handlerequest_text default 0 .tabswin d.session.wm ⟨"1", .kbdfocus⟩ hstarted
    rw [hfind] at htext
    exact htext
  refine ⟨d, hrun, hhead, hanswer, fun hall => ?_⟩
  rcases hall _ hhead 1 rfl with hto | hrefused
  · -- the last message is for client 2
    have hout : d.session.wm.out ++ [Send.ctl 2 "kbdfocus 1"] =
        d.session.wm.out ++ [Send.ctl 1 "kbdfocus 1"] :=
      congrArg (fun w => w.1.out) (Option.some.inj (hanswer.symm.trans hto))
    cases List.append_cancel_left hout
  · cases congrArg Prod.snd (Option.some.inj (hanswer.symm.trans hrefused))

end Ledger

end Aimsgui
