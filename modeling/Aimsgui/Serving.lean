import Aimsgui.Images
import Aimsgui.Server
import Aimsgui.Speaking

/-!
# The manager among its clients

Three kinds of processes have to do with a client: `wm()`, which receives what it reads and
writes; the main loop, which receives from `wm()`, and sends; and its `childminder`, which takes
what is sent to the client. `Service` is all of them, with what the main loop still has to
send in its turn (`todo`). Everything else happens in any order: in particular, when the main
loop has answered to a client that joins (`answered`), nothing says whether `wm()` starts the
client's `childminder` first, or the main loop goes on and sends to it.
-/

namespace Aimsgui

/-- What the main loop sends to a `childminder`. An image is answered. -/
def Send.act : Send → Option (Cid × Act)
  | .kbd c k => some (c, .key k)
  | .ptr c p => some (c, .ptr p)
  | .ctl c e => some (c, .ctl e)
  | .image c o i ok => some (c, .image o (some i) (if ok then 0 else -1))
  | .stop c => some (c, .stop)
  | .fakekbd _ | .wmctl _ | .origin _ _ _ => none

/-- What a client does with its `childminder`. -/
def Act.ofClient : Act → Bool
  | .reply | .outkbd _ | .outptr _ | .outctl _ | .outimg _ => true
  | .stop | .key _ | .ptr _ | .ctl _ | .image _ _ _ => false

/-- What `wm()` receives from clients. -/
def Wmsrv.Event.ofClient : Wmsrv.Event → Bool
  | .wmreq _ | .read _ _ | .write _ _ | .close _ => true
  | .joined _ | .answered _ _ | .taken _ => false

/-- `wm()`, the main loop, and the `childminder`s that have been started. -/
structure Service where
  srv : Wmsrv := {}
  wm : Wm
  left : List Cid := []
  minders : Cid → Option Childminder := fun _ => none
  /-- the client that the main loop has accepted, until it goes on -/
  answered : Option Cid := none
  todo : List Send := []

/-- A step of one of the processes. -/
inductive Move where
  /-- `wm()` receives from a client -/
  | serve (e : Wmsrv.Event)
  /-- the main loop receives a client that wants to join from `wm()`, and answers -/
  | accept (c : Cid)
  /-- `wm()` has the answer, and starts the client's `childminder` -/
  | spawn (c : Cid)
  /-- the main loop receives `e` and handles it; when a client joins, it goes on after its
  answer -/
  | turn (env : Env) (e : Event)
  /-- the main loop sends what comes next -/
  | send
  /-- a client communicates with its `childminder` -/
  | client (c : Cid) (a : Act)

namespace Service

/-- Nobody has opened the file. -/
def start (screen : Rect) : Service := { wm := { screen := screen } }

/-- What `wm()` does when the main loop receives `e` from it. -/
def received (srv : Wmsrv) : Event → Option Wmsrv
  | .leave c => if srv.pc = .leave c then srv.step (.taken c) else none
  | .request c data _ => if srv.pc = .req c data then srv.step (.taken c) else none
  | .join _ | .key _ | .pointer _ _ | .winctl _ _ => some srv
  | .opened _ => none

/-- What the main loop does. -/
def handled (m : Manager) (env : Env) (w : Wm) : Event → Option Wm
  | .join c => some (w.onJoin c)
  | .leave c => some (w.onLeave m env c)
  | .request c data ptr => (w.handlerequest m env c data ptr).map Prod.fst
  | .key k => some (w.onKey k)
  | .pointer p taken => some (w.onPointer m p taken)
  | .winctl e img => some (w.onWinctl m env e img)
  | .opened _ => none

/-- Who leaves. -/
def leaves : Event → List Cid
  | .leave c => [c]
  | _ => []

/-- Who joins. -/
def joins : Event → Option Cid
  | .join c => some c
  | _ => none

/-- The manager, when `wm()` may have made a record. -/
def noted (w : Wm) (srv srv' : Wmsrv) : Wm :=
  if srv'.recs.length = srv.recs.length then w else w.addclient (Wmsrv.freeslot srv.clients)

variable (m : Manager) (s : Service)

/-- A `childminder` communicates. -/
def mind (c : Cid) (a : Act) : Option Service :=
  ((s.minders c).bind fun minder => minder.step a).map fun minder =>
    { s with minders := Function.update s.minders c (some minder) }

/-- A step of the server or of the manager. -/
def step : Move → Option Service
  | .serve e =>
    if e.ofClient then
      (s.srv.step e).map fun srv => { s with srv := srv, wm := noted s.wm s.srv srv }
    else none
  | .accept c =>
    if s.todo = [] ∧ s.answered = none then
      (s.srv.step (.joined c)).map fun srv => { s with srv := srv, answered := some c }
    else none
  | .spawn c =>
    (s.srv.step (.answered c none)).map fun srv =>
      { s with srv := srv, minders := Function.update s.minders c (some .start) }
  | .turn env e =>
    if s.todo = [] ∧ s.answered = joins e then
      (received s.srv e).bind fun srv => (handled m env s.wm e).map fun w =>
        { s with
          srv := srv
          wm := w
          left := leaves e ++ s.left
          answered := none
          todo := w.out.drop s.wm.out.length }
    else none
  | .send =>
    match s.todo with
    | [] => none
    | x :: todo =>
      match x.act with
      | some (c, a) => mind { s with todo := todo } c a
      | none => some { s with todo := todo }
  | .client c a => if a.ofClient then s.mind c a else none

/-! ## What must not happen -/

/-- The client has been accepted. -/
def Joined (c : Cid) : Prop := (s.minders c).isSome

/-- The client has taken the reply. -/
def Past (c : Cid) : Prop := (s.minders c).any fun minder => minder.phase ≠ .reply

/-- The `childminder` accepts on the channel of `a`. What it answers to an image is up to it. -/
def Takes (minder : Childminder) : Act → Prop
  | .image o i _ => (minder.step (.image o i 0)).isSome ∨ (minder.step (.image o i (-1))).isSome
  | a => (minder.step a).isSome

/-- The main loop can send `x`: the `childminder` that it is for is running and accepts it, and
the channel is not nil. All channels but `stop` are made with the client's record. -/
def Accepts (x : Send) : Prop :=
  ∀ d ∈ x.act, (∃ minder ∈ s.minders d.1, Takes minder d.2) ∧
    (d.2 = .stop → s.srv.has Wmsrv.Clientrec.stop d.1)

/-- Nobody is too early: `wm()` has started the `childminder` before the main loop goes on with a
client that joins; a client that leaves, or asks for the keyboard, has been accepted; so have
those that are on the screen when all of them are spoken to, and the one that the controller has
a message for; a client whose window is made has taken the reply. -/
def Proper (s : Service) : Move → Prop
  | .turn _ (.join c) | .turn _ (.leave c) => s.Joined c
  | .turn _ (.winctl e img) => e = "exit" ∨ img.isSome → ∀ c ∈ s.wm.order, s.Joined c
  | .turn env (.request c data ptr) =>
    (unquoted data = ["start", "kbd"] → s.Joined c) ∧
      (∀ z ∈ s.wm.addressee c data, s.Joined z) ∧
      ∀ call ∈ s.wm.reshapeCall m env c data ptr, env.newwindow call.1.tick = true → s.Past c
  | _ => True

instance (c : Cid) : Decidable (s.Joined c) := inferInstanceAs (Decidable (_ = true))

instance (c : Cid) : Decidable (s.Past c) := inferInstanceAs (Decidable (_ = true))

instance (minder : Childminder) : (a : Act) → Decidable (Takes minder a)
  | .image _ _ _ => inferInstanceAs (Decidable (_ ∨ _))
  | .reply | .stop | .key _ | .ptr _ | .ctl _ | .outkbd _ | .outptr _ | .outctl _ | .outimg _ =>
    inferInstanceAs (Decidable (_ = true))

instance (x : Send) : Decidable (s.Accepts x) := inferInstanceAs (Decidable (∀ d ∈ x.act, _))

instance : (a : Move) → Decidable (Proper m s a)
  | .turn _ (.join c) | .turn _ (.leave c) => inferInstanceAs (Decidable (s.Joined c))
  | .turn _ (.winctl _ _) => inferInstanceAs (Decidable (_ → ∀ c ∈ s.wm.order, s.Joined c))
  | .turn _ (.request _ _ _) =>
    inferInstanceAs (Decidable ((_ → s.Joined _) ∧ (∀ z ∈ _, s.Joined z) ∧ ∀ call ∈ _, _ → s.Past _))
  | .turn _ (.opened _) | .turn _ (.key _) | .turn _ (.pointer _ _)
  | .serve _ | .accept _ | .spawn _ | .send | .client _ _ => inferInstanceAs (Decidable True)

end Service

/-! ## The processes -/

namespace Childminder

variable {minder minder' : Childminder} {a : Act}

/-- The process runs, and has the image when an origin is to be set. -/
structure Healthy (minder : Childminder) : Prop where
  running : minder.phase ≠ .gone
  image : minder.imgstate = .Imgorigin → minder.img ≠ none

theorem healthy_start : Healthy start := ⟨Phase.noConfusion, Imgstate.noConfusion⟩

/-- Only a nil can break the process. -/
theorem putptr_phase (minder : Childminder) (p : Option Pointer) :
    (minder.putptr p).phase = minder.phase ∨ (minder.putptr p).phase = .gone ∧ p = none := by
  rw [putptr.eq_def]
  split
  · cases p <;> exact Or.inl rfl
  · rename_i hput
    cases p with
    | none => exact Or.inr ⟨rfl, rfl⟩
    | some p => exact absurd hput (Ptrqueue.put_some_ne_none _ _ _)

/-- The process stays where it is, enters its main loop, or ends, for one of three reasons. -/
theorem step_phase (hstep : minder.step a = some minder') :
    minder'.phase = minder.phase ∨ minder'.phase = .main ∨
      minder'.phase = .gone ∧
        (¬ minder.Healthy ∨ a = .stop ∨ a = .ptr none ∧ minder.phase = .reply) := by
  rw [step.eq_def] at hstep
  cases hphase : minder.phase with
  | gone => simp only [hphase, reduceCtorEq] at hstep
  | reply =>
    simp only [hphase] at hstep
    cases a <;> simp only [replyAlt, Option.some.injEq, reduceCtorEq] at hstep
    case reply =>
      obtain rfl := hstep
      exact Or.inr (Or.inl rfl)
    case stop =>
      obtain rfl := hstep
      exact Or.inr (Or.inr ⟨rfl, Or.inr (Or.inl rfl)⟩)
    case ptr p =>
      obtain rfl := hstep
      -- before the reply is taken, `put` dereferences a flush marker, which is nil
      rcases putptr_phase minder p with hp | ⟨hgone, rfl⟩
      · exact Or.inl (hp.trans hphase)
      · exact Or.inr (Or.inr ⟨hgone, Or.inr (Or.inr ⟨rfl, rfl⟩)⟩)
    all_goals
      obtain rfl := hstep
      exact Or.inl hphase
  | main =>
    simp only [hphase] at hstep
    cases a <;> simp only [mainAlt] at hstep
    case stop =>
      obtain rfl := Option.some.inj hstep
      exact Or.inr (Or.inr ⟨rfl, Or.inr (Or.inl rfl)⟩)
    case ptr p =>
      cases p with
      | none =>
        obtain rfl := Option.some.inj hstep
        exact Or.inl hphase
      | some p =>
        obtain rfl := Option.some.inj hstep
        rcases putptr_phase minder.peeked (some p) with hp | ⟨-, ⟨⟩⟩
        exact Or.inl (hp.trans hphase)
    case outimg i =>
      -- an image is handed over, or its origin is set
      split_ifs at hstep
      rw [imgsent.eq_def] at hstep
      split at hstep
      case h_4 hstate =>
        split at hstep
        · obtain rfl := Option.some.inj hstep
          exact Or.inl hphase
        · -- there is no image to set the origin of
          rename_i hnone
          obtain rfl := Option.some.inj hstep
          exact Or.inr (Or.inr ⟨rfl, Or.inl fun h => h.image hstate hnone⟩)
      case h_5 => cases hstep
      all_goals
        obtain rfl := Option.some.inj hstep
        exact Or.inl hphase
    case image o i answer =>
      split_ifs at hstep
      · obtain rfl := Option.some.inj hstep
        exact Or.inl hphase
      · obtain rfl := Option.some.inj hstep
        cases o <;> cases i <;> exact Or.inl hphase
    case reply => cases hstep
    case key k | ctl e =>
      obtain rfl := Option.some.inj hstep
      exact Or.inl hphase
    all_goals
      split_ifs at hstep
      obtain rfl := Option.some.inj hstep
      exact Or.inl hphase

/-- An origin comes with an image. -/
theorem step_image (h : minder.Healthy) (himage : ∀ o answer, a ≠ .image o none answer)
    (hstep : minder.step a = some minder') : minder'.imgstate = .Imgorigin → minder'.img ≠ none := by
  have hsame : minder'.imaging = minder.imaging →
      minder'.imgstate = .Imgorigin → minder'.img ≠ none := by
    intro hframe
    simp only [imaging, Prod.mk.injEq] at hframe
    rw [hframe.1, hframe.2.1]
    exact h.image
  cases a with
  | image o i answer =>
    obtain ⟨i, rfl⟩ : ∃ image, i = some image :=
      Option.ne_none_iff_exists'.mp fun hi => himage o answer (hi ▸ rfl)
    rw [step.eq_def] at hstep
    cases hphase : minder.phase with
    | main =>
      simp only [hphase, mainAlt] at hstep
      split_ifs at hstep
      · obtain rfl := Option.some.inj hstep
        exact h.image
      · obtain rfl := Option.some.inj hstep
        cases o <;> exact fun _ => Option.some_ne_none i
    | reply | gone => simp only [hphase, replyAlt, reduceCtorEq] at hstep
  | outimg i =>
    rw [step.eq_def] at hstep
    cases hphase : minder.phase with
    | main =>
      simp only [hphase, mainAlt] at hstep
      split_ifs at hstep
      rw [imgsent.eq_def] at hstep
      split at hstep
      case h_4 hstate =>
        split at hstep
        · obtain rfl := Option.some.inj hstep
          rintro ⟨⟩
        · rename_i hnone
          exact absurd hnone (h.image hstate)
      case h_5 => cases hstep
      all_goals
        obtain rfl := Option.some.inj hstep
        rintro ⟨⟩
    | reply | gone => simp only [hphase, replyAlt, reduceCtorEq] at hstep
  | reply | stop | key | ptr | ctl | outkbd | outptr | outctl =>
    exact hsame (step_imaging hstep rfl rfl)

/-- As long as it is not told to stop, and gets no nil before its main loop, the process runs. -/
theorem step_healthy (h : minder.Healthy) (hstop : a ≠ .stop)
    (hptr : a = .ptr none → minder.phase ≠ .reply) (himage : ∀ o answer, a ≠ .image o none answer)
    (hstep : minder.step a = some minder') : minder'.Healthy := by
  refine ⟨?_, step_image h himage hstep⟩
  rcases step_phase hstep with hphase | hphase | ⟨-, hsick | rfl | ⟨rfl, hreply⟩⟩
  · exact hphase ▸ h.running
  · exact hphase ▸ Phase.noConfusion
  · exact absurd h hsick
  · exact absurd rfl hstop
  · exact absurd hreply (hptr rfl)

/-- The reply is given once. -/
theorem step_past (hstep : minder.step a = some minder') (h : minder.phase ≠ .reply) :
    minder'.phase ≠ .reply := by
  rcases step_phase hstep with hphase | hphase | ⟨hphase, -⟩
  · exact hphase ▸ h
  · exact hphase ▸ Phase.noConfusion
  · exact hphase ▸ Phase.noConfusion

/-- A process that runs accepts keys, pointer events, control messages and the end. -/
theorem Healthy.takes (h : minder.Healthy)
    (ha : (∃ k, a = .key k) ∨ (∃ p, a = .ptr (some p)) ∨ (∃ e, a = .ctl e) ∨ a = .stop) :
    (minder.step a).isSome := by
  rw [step.eq_def]
  cases hphase : minder.phase with
  | gone => exact absurd hphase h.running
  | reply | main => rcases ha with ⟨k, rfl⟩ | ⟨p, rfl⟩ | ⟨e, rfl⟩ | rfl <;> rfl

/-- In its main loop it accepts a nil pointer as well, and images. -/
theorem Healthy.takes_main (h : minder.Healthy) (hpast : minder.phase ≠ .reply) :
    (minder.step (.ptr none)).isSome ∧ ∀ o i,
      (minder.step (.image o i 0)).isSome ∨ (minder.step (.image o i (-1))).isSome := by
  cases hphase : minder.phase with
  | gone => exact absurd hphase h.running
  | reply => exact absurd hphase hpast
  | main =>
    refine ⟨by rw [step.eq_def, hphase]; rfl, fun o i => ?_⟩
    simp only [step, hphase, mainAlt]
    by_cases hbusy : minder.peeked.imgstate = .Imgnone
    · exact Or.inl (by simp [hbusy])
    · exact Or.inr (by simp [hbusy])

end Childminder

end Aimsgui
