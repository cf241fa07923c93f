import Aimsgui.Childminder

/-!
# Images arrive in one piece

An accepted image request makes `childminder` send one or two values on the images channel,
and for an image with a new origin it sets the origin between them. While it does so it
refuses other requests. `Watched` runs the process together with what there is to see of it:
the values that the client receives and the changes of origin, in order. They are always a
prefix of what the accepted requests call for, one after the other (`images_delivered`).
-/

namespace Aimsgui

open Transition

/-- What there is to see of the image protocol. -/
inductive Sight where
  /-- the client receives a value -/
  | value (i : Option Image)
  /-- `i.origin(o, o)` is called -/
  | origin (i : Image) (o : Point)
  deriving DecidableEq, Repr

/-- An image request. -/
abbrev Imgreq := Option Point × Option Image

/-- The values that a request calls for: an image, nil and an image, or nil twice. -/
def Imgreq.values : Imgreq → List (Option Image)
  | (some _, i) => [none, i]
  | (none, some i) => [some i]
  | (none, none) => [none, none]

/-- The same, with the change of origin. -/
def Imgreq.sights : Imgreq → List Sight
  | (some o, some i) => [.value none, .origin i o, .value (some i)]
  | (some _, none) => [.value none, .value none]
  | (none, some i) => [.value (some i)]
  | (none, none) => [.value none, .value none]

/-- The value that is received. -/
def Sight.received : Sight → Option (Option Image)
  | value i => some i
  | origin _ _ => none

/-- The origin that is set. -/
def Sight.moved : Sight → Option (Image × Point)
  | value _ => none
  | origin i o => some (i, o)

namespace Act

/-- The values that the client receives on its images channel. -/
def imagesReceived : Act → List (Option Image)
  | .outimg i => [i]
  | _ => []

/-- The image request that is accepted. -/
def imagesAccepted : Act → List Imgreq
  | .image o i answer => if answer = 0 then [(o, i)] else []
  | _ => []

end Act

namespace Childminder

/-- What is still to be seen of the last accepted request. -/
def unseen (m : Childminder) : List Sight :=
  match m.imgstate with
  | .Imgnone => []
  | .Imgsend => [.value m.img]
  | .Imgsendnil1 => [.value none, .value none]
  | .Imgsendnil2 => [.value none]
  | .Imgorigin => Imgreq.sights (some m.imgorigin, m.img)

/-- What is to be seen of one communication. -/
def sight (m m' : Childminder) (a : Act) : List Sight :=
  a.imagesReceived.map .value ++
    (m'.origins.drop m.origins.length).map fun (i, o) => .origin i o

variable {m m' : Childminder} {a : Act} {o : Option Point} {i : Option Image}

/-- The variables of the image protocol. -/
def imaging (m : Childminder) : Imgstate × Option Image × Point × List (Image × Point) :=
  (m.imgstate, m.img, m.imgorigin, m.origins)

@[simp] theorem putptr_imaging (m : Childminder) (p : Option Pointer) :
    (m.putptr p).imaging = m.imaging := by
  unfold putptr
  split <;> cases p <;> rfl

@[simp] theorem peeked_imaging (m : Childminder) : m.peeked.imaging = m.imaging := rfl

theorem unseen_congr (h : m'.imaging = m.imaging) : m'.unseen = m.unseen := by
  simp only [imaging, Prod.mk.injEq] at h
  obtain ⟨hstate, himg, horigin, -⟩ := h
  rw [unseen, unseen, hstate, himg, horigin]

theorem sight_congr (h : m'.imaging = m.imaging) (ha : a.imagesReceived = []) :
    sight m m' a = [] := by
  simp only [imaging, Prod.mk.injEq] at h
  rw [sight, ha, h.2.2.2, List.drop_length, List.map_nil, List.map_nil, List.append_nil]

/-- Most communications have nothing to do with images. -/
theorem step_imaging (h : m.step a = some m') (hreceived : a.imagesReceived = [])
    (haccepted : a.imagesAccepted = []) : m'.imaging = m.imaging := by
  rw [step.eq_def] at h
  cases hphase : m.phase with
  | reply =>
    simp only [hphase] at h
    cases a <;> simp only [replyAlt, Option.some.injEq, reduceCtorEq] at h
    case ptr p =>
      obtain rfl := h
      exact putptr_imaging m p
    all_goals
      obtain rfl := h
      rfl
  | main =>
    simp only [hphase] at h
    cases a <;> simp only [mainAlt] at h
    case outimg i => cases hreceived
    case image o i answer =>
      split_ifs at h with hbusy habs hzero
      · obtain rfl := Option.some.inj h
        rfl
      · rw [Act.imagesAccepted, if_pos hzero] at haccepted
        cases haccepted
    case ptr p =>
      cases p with
      | none =>
        obtain rfl := Option.some.inj h
        rfl
      | some p =>
        obtain rfl := Option.some.inj h
        exact putptr_imaging m.peeked (some p)
    case reply => cases h
    case key k | ctl e | stop =>
      obtain rfl := Option.some.inj h
      rfl
    all_goals
      split_ifs at h
      obtain rfl := Option.some.inj h
      rfl
  | gone =>
    simp only [hphase] at h
    cases h

/-- A request is accepted when nothing is left to be seen, and then all of it is. -/
theorem step_image_accepted (h : m.step (.image o i 0) = some m') :
    m.unseen = [] ∧ m'.unseen = Imgreq.sights (o, i) ∧ m'.origins = m.origins := by
  rw [step.eq_def] at h
  cases hphase : m.phase with
  | reply =>
    simp only [hphase] at h
    cases h
  | main =>
    simp only [hphase, mainAlt] at h
    split_ifs at h with hbusy habs
    · cases habs
    · obtain rfl := Option.some.inj h
      have hnone : m.imgstate = .Imgnone := not_not.mp hbusy
      rw [unseen, hnone]
      cases o <;> cases i <;> exact ⟨rfl, rfl, rfl⟩
  | gone =>
    simp only [hphase] at h
    cases h

/-- A request is refused while another one is under way, and then nothing changes. -/
theorem step_image_refused (h : m.step (.image o i (-1)) = some m') : m' = m.peeked := by
  rw [step.eq_def] at h
  cases hphase : m.phase with
  | reply =>
    simp only [hphase] at h
    cases h
  | main =>
    simp only [hphase, mainAlt] at h
    split_ifs at h with hbusy habs
    · exact (Option.some.inj h).symm
    · cases habs
  | gone =>
    simp only [hphase] at h
    cases h

/-- The client receives the first value that is still to be seen; the process breaks where the
origin of nil is to be changed. -/
theorem step_outimg_unseen (h : m.step (.outimg i) = some m') :
    sight m m' (.outimg i) <+: m.unseen ∧
      (m'.phase ≠ .gone → sight m m' (.outimg i) ++ m'.unseen = m.unseen) := by
  rw [step.eq_def] at h
  cases hphase : m.phase with
  | reply =>
    simp only [hphase] at h
    cases h
  | main =>
    simp only [hphase, mainAlt, offers] at h
    split_ifs at h with hnone hoffer hoffer
    · cases hoffer
    · obtain rfl := Option.some.inj hoffer
      rw [imgsent.eq_def] at h
      cases hstate : m.imgstate with
      | Imgnone => exact absurd hstate hnone
      | Imgsend | Imgsendnil1 | Imgsendnil2 =>
        simp only [peeked, hstate] at h
        obtain rfl := Option.some.inj h
        simp only [unseen, hstate, sight, Act.imagesReceived, sendimg', List.drop_length]
        exact ⟨by simp, fun _ => rfl⟩
      | Imgorigin =>
        -- the nil is received before the origin is changed
        cases himg : m.img with
        | some i =>
          simp only [peeked, hstate, himg] at h
          obtain rfl := Option.some.inj h
          simp only [unseen, hstate, himg, sight, Act.imagesReceived, sendimg',
            List.drop_left, Imgreq.sights]
          exact ⟨by simp, fun _ => rfl⟩
        | none =>
          simp only [peeked, hstate, himg] at h
          obtain rfl := Option.some.inj h
          simp only [unseen, hstate, himg, sight, Act.imagesReceived, sendimg',
            List.drop_length, Imgreq.sights]
          exact ⟨by simp, fun hgone => absurd rfl hgone⟩
  | gone =>
    simp only [hphase] at h
    cases h

/-- What one communication leaves to be seen: the first of what there was to be seen has been
seen, and what an accepted request calls for comes after the rest. -/
theorem step_unseen (h : m.step a = some m') :
    sight m m' a <+: m.unseen ++ a.imagesAccepted.flatMap Imgreq.sights ∧
      (m'.phase ≠ .gone →
        sight m m' a ++ m'.unseen = m.unseen ++ a.imagesAccepted.flatMap Imgreq.sights) := by
  by_cases hquiet : a.imagesReceived = [] ∧ a.imagesAccepted = []
  · have himaging := step_imaging h hquiet.1 hquiet.2
    rw [sight_congr himaging hquiet.1, unseen_congr himaging, hquiet.2, List.flatMap_nil,
      List.append_nil, List.nil_append]
    exact ⟨List.nil_prefix, fun _ => rfl⟩
  · cases a with
    | outimg i =>
      rw [show Act.imagesAccepted (.outimg i) = [] from rfl, List.flatMap_nil, List.append_nil]
      exact step_outimg_unseen h
    | image o i answer =>
      obtain rfl : answer = 0 := by
        by_contra hanswer
        exact hquiet ⟨rfl, if_neg hanswer⟩
      obtain ⟨hbefore, hafter, horigins⟩ := step_image_accepted h
      have hnothing : sight m m' (.image o i 0) = [] := by
        rw [sight, horigins, List.drop_length]
        rfl
      rw [hbefore, hafter, hnothing]
      exact ⟨List.nil_prefix, fun _ => (List.flatMap_singleton ..).symm⟩
    | reply | stop | key k | ptr p | ctl e | outkbd k | outptr p | outctl e =>
      exact absurd ⟨rfl, rfl⟩ hquiet

theorem imgsent_origins (h : m.imgsent = some m') : m.origins <+: m'.origins := by
  rw [imgsent.eq_def] at h
  split at h
  case h_4 =>
    split at h
    · obtain rfl := Option.some.inj h
      exact List.prefix_append ..
    · obtain rfl := Option.some.inj h
      exact List.prefix_rfl
  case h_5 => cases h
  all_goals
    obtain rfl := Option.some.inj h
    exact List.prefix_rfl

/-- The calls of `img.origin` are only added to. -/
theorem step_origins (h : m.step a = some m') : m.origins <+: m'.origins := by
  by_cases hquiet : a.imagesReceived = [] ∧ a.imagesAccepted = []
  · have himaging := step_imaging h hquiet.1 hquiet.2
    simp only [imaging, Prod.mk.injEq] at himaging
    simp only [himaging.2.2.2, List.prefix_rfl]
  · cases a with
    | outimg i =>
      rw [step.eq_def] at h
      cases hphase : m.phase with
      | main =>
        simp only [hphase, mainAlt] at h
        split_ifs at h
        exact imgsent_origins (m := m.peeked) h
      | reply | gone =>
        simp only [hphase] at h
        cases h
    | image o i answer =>
      obtain rfl : answer = 0 := by
        by_contra hanswer
        exact hquiet ⟨rfl, if_neg hanswer⟩
      simp only [(step_image_accepted h).2.2, List.prefix_rfl]
    | reply | stop | key k | ptr p | ctl e | outkbd k | outptr p | outctl e =>
      exact absurd ⟨rfl, rfl⟩ hquiet

/-- The values among what is to be seen of a communication are what the client receives. -/
theorem sight_received (m m' : Childminder) (a : Act) :
    (sight m m' a).filterMap Sight.received = a.imagesReceived := by
  rw [sight, List.filterMap_append, List.filterMap_map, List.filterMap_map]
  have hnone : (Sight.received ∘ fun (i, o) => Sight.origin i o) = fun _ => none := rfl
  have hsome : (Sight.received ∘ Sight.value) = some := rfl
  rw [hnone, hsome, List.filterMap_some, List.filterMap_eq_nil_iff.mpr fun _ _ => rfl,
    List.append_nil]

/-- The rest are the calls of `img.origin` that it makes. -/
theorem sight_moved (h : m.step a = some m') :
    m.origins ++ (sight m m' a).filterMap Sight.moved = m'.origins := by
  obtain ⟨new, hnew⟩ := step_origins h
  rw [sight, List.filterMap_append, List.filterMap_map, List.filterMap_map, ← hnew,
    List.drop_left]
  have hnone : (Sight.moved ∘ Sight.value) = fun _ => none := rfl
  have hsome : (Sight.moved ∘ fun (i, o) => Sight.origin i o) = some := rfl
  rw [hnone, hsome, List.filterMap_some, List.filterMap_eq_nil_iff.mpr fun _ _ => rfl,
    List.nil_append]

end Childminder

/-- What is to be seen of the requests is, without the changes of origin, their values. -/
theorem Imgreq.sights_received (r : Imgreq) :
    r.sights.filterMap Sight.received = r.values := by
  obtain ⟨o, i⟩ := r
  cases o <;> cases i <;> rfl

/-- A `childminder` with what there was to be seen of it. -/
structure Watched where
  minder : Childminder := .start
  seen : List Sight := []

namespace Watched

open Childminder (sight)

/-- `childminder` does one thing; where it cannot, there is no next state. -/
def step (w : Watched) (a : Act) : Option Watched :=
  (w.minder.step a).map fun m => { minder := m, seen := w.seen ++ sight w.minder m a }

variable {w w' : Watched} {a : Act} {as : List Act}

/-- What has been seen of the process that has made the communications `as`. -/
structure Told (as : List Act) (w : Watched) : Prop where
  received : w.seen.filterMap Sight.received = as.flatMap Act.imagesReceived
  moved : w.seen.filterMap Sight.moved = w.minder.origins
  pre : w.seen <+: (as.flatMap Act.imagesAccepted).flatMap Imgreq.sights
  rest : w.minder.phase ≠ .gone →
    w.seen ++ w.minder.unseen = (as.flatMap Act.imagesAccepted).flatMap Imgreq.sights

theorem start_told : Told [] {} where
  received := rfl
  moved := rfl
  pre := List.prefix_rfl
  rest _ := rfl

theorem step_told (h : Told as w) (hstep : w.step a = some w') : Told (as ++ [a]) w' := by
  obtain ⟨m, hm, rfl⟩ := Option.map_eq_some_iff.mp hstep
  have halive : w.minder.phase ≠ .gone := by
    intro hgone
    rw [Childminder.step, hgone] at hm
    cases hm
  obtain ⟨hpre, hrest⟩ := Childminder.step_unseen hm
  have hflat : ((as ++ [a]).flatMap Act.imagesAccepted).flatMap Imgreq.sights =
      w.seen ++ (w.minder.unseen ++ a.imagesAccepted.flatMap Imgreq.sights) := by
    rw [List.flatMap_append, List.flatMap_append, ← h.rest halive, List.append_assoc,
      List.flatMap_singleton]
  refine ⟨?_, ?_, ?_, ?_⟩
  · rw [List.filterMap_append, h.received, Childminder.sight_received, List.flatMap_append,
      List.flatMap_singleton]
  · rw [List.filterMap_append, h.moved, Childminder.sight_moved hm]
  · rw [hflat]
    exact (List.prefix_append_right_inj _).mpr hpre
  · intro hm
    rw [hflat, ← hrest hm, List.append_assoc]

/-- **Images arrive in one piece.** However image requests, the client's receives and all other
traffic follow one another, the values that the client has received are a prefix of what the
accepted requests call for, one request after the other. The origin of an image is set as
often as the requests say, and there and then: between the nil and the image. A request that is
refused changes nothing. -/
theorem images_delivered (h : Run (StepOf step) {} as w) :
    as.flatMap Act.imagesReceived <+:
        (as.flatMap Act.imagesAccepted).flatMap Imgreq.values ∧
      (w.seen <+: (as.flatMap Act.imagesAccepted).flatMap Imgreq.sights ∧
        w.seen.filterMap Sight.received = as.flatMap Act.imagesReceived ∧
        w.seen.filterMap Sight.moved = w.minder.origins) ∧
      ∀ o i w', w.step (.image o i (-1)) = some w' → w'.seen = w.seen ∧
        w'.minder.imaging = w.minder.imaging ∧ w'.minder.phase = w.minder.phase ∧
        w'.minder.kbdq.contents = w.minder.kbdq.contents ∧
        w'.minder.ptrq.contents = w.minder.ptrq.contents ∧
        w'.minder.ctlq.contents = w.minder.ctlq.contents := by
  have htold : Told as w := h.traced start_told fun _ _ _ _ hw hs => step_told hw hs
  refine ⟨?_, ⟨htold.pre, htold.received, htold.moved⟩, ?_⟩
  · have hpre := htold.pre.filterMap Sight.received
    rw [htold.received, List.filterMap_flatMap] at hpre
    simpa only [Imgreq.sights_received] using hpre
  · intro o i w' hstep
    obtain ⟨m, hm, rfl⟩ := Option.map_eq_some_iff.mp hstep
    obtain rfl := Childminder.step_image_refused hm
    have hnothing : sight w.minder w.minder.peeked (.image o i (-1)) = [] :=
      Childminder.sight_congr rfl rfl
    dsimp only
    rw [hnothing, List.append_nil]
    exact ⟨rfl, rfl, rfl, Childminder.peeked_kbdq_contents _, Childminder.peeked_ptrq_contents _,
      Childminder.peeked_ctlq_contents _⟩

/-- An image with a new origin, and another request before it has been received, which is
refused; then nil is asked for. -/
theorem images_delivered_moved :
    ∃ w, Run (StepOf step) {}
        [.reply, .image (some ⟨3, 4⟩) (some default) 0, .key 97, .outimg none, .image none none (-1),
          .outimg (some default), .image none none 0, .outimg none] w ∧
      [none, some default, none] <+: Imgreq.values (some ⟨3, 4⟩, some default) ++ [none, none] ∧
      w.seen.filterMap Sight.moved = [(default, ⟨3, 4⟩)] := by
  obtain ⟨w, hrun, horigins⟩ : ∃ w, Run (StepOf step) {}
      [.reply, .image (some ⟨3, 4⟩) (some default) 0, .key 97, .outimg none, .image none none (-1),
        .outimg (some default), .image none none 0, .outimg none] w ∧
      w.minder.origins = [(default, ⟨3, 4⟩)] :=
    Run.exists_of_exec (by decide +kernel)
  obtain ⟨hvalues, ⟨-, -, hmoved⟩, -⟩ := images_delivered hrun
  exact ⟨w, hrun, hvalues, hmoved.trans horigins⟩

end Watched

end Aimsgui
