import Aimsgui.Queues
import Aimsgui.Lib.Run

/-!
# The childminder process

One `childminder` per client buffers everything between the window manager and
that client, "so that one recalcitrant child can't clog the whole system". It has
two phases: `Reply`, in which it offers the connection reply to the client and
already accepts keys, pointer events and control messages, and the main loop,
which also offers the queued messages to the client and handles image requests.

A label (`Act`) is one communication of the process, with the values that went
over the channel; `step` answers `none` where the process does not offer that
communication. The values offered to the client are settled at the top of each
turn of the loop (`offers`) before the `alt` is entered.
-/

namespace Aimsgui

/-- The state of the image protocol. -/
inductive Imgstate where
  | Imgnone | Imgsend | Imgsendnil1 | Imgsendnil2 | Imgorigin
  deriving DecidableEq, Repr

/-- Where the process stands. -/
inductive Phase where
  /-- the loop labelled `Reply` -/
  | reply
  /-- the main loop -/
  | main
  /-- exited, or broken by a nil dereference -/
  | gone
  deriving DecidableEq, Repr

/-- The variables of `childminder`. -/
structure Childminder where
  phase : Phase := .reply
  kbdq : Iqueue := {}
  ptrq : Ptrqueue := {}
  ctlq : Squeue := {}
  imgstate : Imgstate := .Imgnone
  img : Option Image := none
  sendimg : Option Image := none
  imgorigin : Point := ⟨0, 0⟩
  /-- the pointer records received, as they are now -/
  mem : List Pointer := []
  /-- the calls of `img.origin` made so far -/
  origins : List (Image × Point) := []
  deriving DecidableEq, Repr

/-- A communication of `childminder`. -/
inductive Act where
  /-- the client takes the connection reply -/
  | reply
  /-- `<-c.stop` -/
  | stop
  /-- a key arrives on `c.kbd` -/
  | key (k : Int)
  /-- a pointer event, or nil, arrives on `c.ptr` -/
  | ptr (p : Option Pointer)
  /-- a message arrives on `c.ctl` -/
  | ctl (e : String)
  /-- a request `(o, i, reply)` arrives on `c.images` and is answered -/
  | image (o : Option Point) (i : Option Image) (answer : Int)
  /-- the client receives a key -/
  | outkbd (k : Int)
  /-- the client receives a pointer event -/
  | outptr (p : Option Pointer)
  /-- the client receives a control message -/
  | outctl (e : String)
  /-- the client receives on its images channel -/
  | outimg (i : Option Image)
  deriving DecidableEq, Repr

/-- What the process offers to the client in one turn of its loop; `none` where
the dummy channel stands in. -/
structure Offer where
  key : Option Int
  ptr : Option (Option Ref)
  ctl : Option String
  img : Option (Option Image)

namespace Childminder

/-- The process as `childminder` starts it. -/
def start : Childminder := {}

/-- The content of a pointer record. -/
def deref (m : Childminder) (r : Ref) : Pointer := m.mem.getD r default

/-- Receive a pointer event: its record joins the ones received. What arrives is a reference, and
the manager may have sent it to another client too; what that client's `childminder` does to the
record is no communication of this one (`Childminder.meet`). -/
def arrive (m : Childminder) : Option Pointer → Childminder × Option Ref
  | none => (m, none)
  | some p => ({ m with mem := m.mem ++ [p] }, some m.mem.length)

/-- `ptrq.put(ptr)`; a nil dereference breaks the process. -/
def putptr (m : Childminder) (p : Option Pointer) : Childminder :=
  match (m.arrive p).1.ptrq.put (m.arrive p).1.mem (m.arrive p).2 with
  | some (ptrq, mem) => { (m.arrive p).1 with ptrq := ptrq, mem := mem }
  | none => { (m.arrive p).1 with phase := .gone }

/-- The `alt` of the loop labelled `Reply`. -/
def replyAlt (m : Childminder) : Act → Option Childminder
  | .reply => some { m with phase := .main }
  | .stop => some { m with phase := .gone }
  | .key k => some { m with kbdq := m.kbdq.put k }
  | .ptr p => some (m.putptr p)
  | .ctl e => some { m with ctlq := m.ctlq.put e }
  | _ => none

/-- `sendimg`, as the `case imgstate` at the top of the loop leaves it. -/
def sendimg' (m : Childminder) : Option Image :=
  match m.imgstate with
  | .Imgsend => m.img
  | .Imgsendnil1 | .Imgsendnil2 | .Imgorigin => none
  | .Imgnone => m.sendimg

/-- The top of the main loop: peek at the heads of the queues that have one. -/
def peeked (m : Childminder) : Childminder :=
  { m with
    kbdq := if m.kbdq.nonempty then m.kbdq.peek.2 else m.kbdq
    ptrq := if m.ptrq.nonempty then m.ptrq.peek.2 else m.ptrq
    ctlq := if m.ctlq.nonempty then m.ctlq.peek.2 else m.ctlq
    sendimg := m.sendimg' }

/-- The values offered in the `alt` of the main loop. -/
def offers (m : Childminder) : Offer where
  key := if m.kbdq.nonempty then some m.kbdq.peek.1 else none
  ptr := if m.ptrq.nonempty then some m.ptrq.peek.1 else none
  ctl := if m.ctlq.nonempty then some m.ctlq.peek.1 else none
  img := if m.imgstate = .Imgnone then none else some m.sendimg'

/-- What sending `sendimg` does to the image protocol. -/
def imgsent (m : Childminder) : Option Childminder :=
  match m.imgstate with
  | .Imgsend => some { m with imgstate := .Imgnone, img := none, sendimg := none }
  | .Imgsendnil1 => some { m with imgstate := .Imgsendnil2 }
  | .Imgsendnil2 => some { m with imgstate := .Imgnone }
  | .Imgorigin =>
    match m.img with
    | some i => some { m with imgstate := .Imgsend, origins := m.origins ++ [(i, m.imgorigin)] }
    | none => some { m with phase := .gone }
  | .Imgnone => none

/-- An image request that is answered `0`. -/
def imgaccept (m : Childminder) (o : Option Point) (i : Option Image) : Childminder :=
  match o, i with
  | some o, i => { m with imgorigin := o, imgstate := .Imgorigin, img := i }
  | none, some i => { m with img := some i, imgstate := .Imgsend }
  | none, none => { m with imgstate := .Imgsendnil1 }

/-- The `alt` of the main loop, entered with the offers `o`. -/
def mainAlt (m : Childminder) (o : Offer) : Act → Option Childminder
  | .outkbd k => if o.key = some k then some { m with kbdq := m.kbdq.get.2 } else none
  | .outptr p =>
    if o.ptr.map (Option.map m.deref) = some p then some { m with ptrq := m.ptrq.get.2 } else none
  | .outctl e => if o.ctl = some e then some { m with ctlq := m.ctlq.get.2 } else none
  | .outimg i => if o.img = some i then m.imgsent else none
  | .key k => some { m with kbdq := m.kbdq.put k }
  | .ptr none => some { m with ptrq := m.ptrq.flush }
  | .ptr (some p) => some (m.putptr (some p))
  | .ctl e => some { m with ctlq := m.ctlq.put e }
  | .image o i answer =>
    if m.imgstate ≠ .Imgnone then if answer = -1 then some m else none
    else if answer = 0 then some (m.imgaccept o i) else none
  | .stop => some { m with phase := .gone }
  | .reply => none

/-- One communication of the process. -/
def step (m : Childminder) (a : Act) : Option Childminder :=
  match m.phase with
  | .reply => m.replyAlt a
  | .main => m.peeked.mainAlt m.offers a
  | .gone => none

/-- The process as a transition system. -/
abbrev Step : Childminder → Act → Childminder → Prop := Transition.StepOf step

/-! ## Frame facts

Which part of the process each piece of code leaves alone. -/

@[simp] theorem putptr_kbdq (m : Childminder) (p : Option Pointer) :
    (m.putptr p).kbdq = m.kbdq := by
  unfold putptr
  split <;> cases p <;> rfl

@[simp] theorem putptr_ctlq (m : Childminder) (p : Option Pointer) :
    (m.putptr p).ctlq = m.ctlq := by
  unfold putptr
  split <;> cases p <;> rfl

@[simp] theorem imgaccept_kbdq (m : Childminder) (o : Option Point) (i : Option Image) :
    (m.imgaccept o i).kbdq = m.kbdq := by
  cases o <;> cases i <;> rfl

@[simp] theorem imgaccept_ctlq (m : Childminder) (o : Option Point) (i : Option Image) :
    (m.imgaccept o i).ctlq = m.ctlq := by
  cases o <;> cases i <;> rfl

@[simp] theorem imgaccept_ptrq (m : Childminder) (o : Option Point) (i : Option Image) :
    (m.imgaccept o i).ptrq = m.ptrq := by
  cases o <;> cases i <;> rfl

@[simp] theorem imgaccept_mem (m : Childminder) (o : Option Point) (i : Option Image) :
    (m.imgaccept o i).mem = m.mem := by
  cases o <;> cases i <;> rfl

/-- Sending an image touches nothing but the image protocol. -/
theorem imgsent_frame {m m' : Childminder} (h : m.imgsent = some m') :
    m'.kbdq = m.kbdq ∧ m'.ctlq = m.ctlq ∧ m'.ptrq = m.ptrq ∧ m'.mem = m.mem := by
  unfold imgsent at h
  split at h
  case h_4 =>
    split at h <;> obtain rfl := Option.some.inj h <;> exact ⟨rfl, rfl, rfl, rfl⟩
  case h_5 => cases h
  all_goals
    obtain rfl := Option.some.inj h
    exact ⟨rfl, rfl, rfl, rfl⟩

@[simp] theorem peeked_kbdq_contents (m : Childminder) :
    m.peeked.kbdq.contents = m.kbdq.contents := by
  simp only [peeked]
  split
  · exact Fifo.contents_peek ..
  · rfl

@[simp] theorem peeked_ctlq_contents (m : Childminder) :
    m.peeked.ctlq.contents = m.ctlq.contents := by
  simp only [peeked]
  split
  · exact Fifo.contents_peek ..
  · rfl

@[simp] theorem peeked_ptrq_contents (m : Childminder) :
    m.peeked.ptrq.contents = m.ptrq.contents := by
  simp only [peeked]
  split
  · exact Ptrqueue.contents_peek _
  · rfl

@[simp] theorem peeked_ptrq_last (m : Childminder) : m.peeked.ptrq.last = m.ptrq.last := by
  simp only [peeked]
  split
  · exact Ptrqueue.peek_last _
  · rfl

@[simp] theorem peeked_mem (m : Childminder) : m.peeked.mem = m.mem := rfl

@[simp] theorem peeked_phase (m : Childminder) : m.peeked.phase = m.phase := rfl

/-- The key offered is the head of the key queue. -/
theorem offers_key (m : Childminder) : m.offers.key = m.kbdq.contents.head? :=
  Fifo.offered_eq_head? m.kbdq (-1)

/-- The control message offered is the head of the control queue. -/
theorem offers_ctl (m : Childminder) : m.offers.ctl = m.ctlq.contents.head? :=
  Fifo.offered_eq_head? m.ctlq ""

/-- The pointer record offered is the head of the pointer queue. -/
theorem offers_ptr (m : Childminder) : m.offers.ptr = m.ptrq.contents.head? := by
  simp only [offers, Ptrqueue.peek_fst]
  exact Fifo.offered_eq_head? m.ptrq.toFifo none

end Childminder

end Aimsgui
