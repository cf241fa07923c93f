import Aimsgui.Packing
import Aimsgui.Childminder

/-!
# Image requests and their answers

A `tkclient` that has written a `!` request successfully waits for the images of that
request. So a request should be answered with nil exactly when one image request has been
accepted by the client's `childminder` meanwhile (`Handshake`). Three of the branches of
`rowwm` do not care: `reshape` drops the answer of `setorigin`, `!move` and `!size` drop
that of `reshape`, and an unknown request goes to the controller. `handshake_iff` says
which requests are left.
-/

namespace Aimsgui

namespace Wm

/-- The image requests of a client that have been accepted. -/
def accepted (w : Wm) (c : Cid) : List (Option Point × Image) :=
  w.out.filterMap fun
    | .image t o i true => if t = c then some (o, i) else none
    | _ => none

/-- Success, and exactly one image request accepted: the one if and only if the other. -/
def Handshake (c : Cid) (w w' : Wm) (e : Answer) : Prop :=
  e = none ↔ ∃ request, w'.accepted c = w.accepted c ++ [request]

/-- A window that is moved has an image, and `childminder` takes the request. -/
def Movable (env : Env) (w : Wm) (c : Cid) (tag : String) : Prop :=
  ((w.client c).window tag).bind Window.img ≠ none ∧ env.accepts w.tick = true

/-- A new image can be made, and `childminder` takes the request. -/
def Renewable (env : Env) (w : Wm) : Prop :=
  env.newwindow w.tick = true ∧ env.accepts (w.tick + 1) = true

variable {env : Env} {w w' : Wm} {c : Cid} {req cmd tag : String} {r : Rect}
  {ptr : List Pointer} {args : List String} {e : Answer}

/-! ## What does not count -/

theorem accepted_send (s : Send) (h : ∀ o i, s ≠ .image c o i true) :
    (w.send s).accepted c = w.accepted c := by
  rw [accepted, send, List.filterMap_append, accepted]
  cases s with
  | image t o i ok =>
    cases ok with
    | false => simp
    | true =>
      have ht : t ≠ c := fun ht => h o i (ht ▸ rfl)
      simp [ht]
  | _ => simp

@[simp] theorem accepted_ctl (t : Cid) (s : String) : (w.ctl t s).accepted c = w.accepted c :=
  accepted_send _ (by rintro _ _ ⟨⟩)

theorem accepted_replaceWins {σ : Type} {newr : Rect} {place : σ → Window → σ × Option Rect}
    (t : Cid) (w : Wm) (s : σ) (wins : List Window) :
    (replaceWins env newr place t w s wins).1.accepted c = w.accepted c := by
  induction wins generalizing w s with
  | nil => rfl
  | cons win wins ih =>
    rw [replaceWins]
    split
    · exact ih _ _
    · refine (ih _ _).trans ?_
      rw [accepted_ctl, accepted_ctl]
      rfl

theorem accepted_replaceAll {σ : Type} {newr : Rect} {place : σ → Window → σ × Option Rect}
    (w : Wm) (s : σ) (cs : List Cid) :
    (replaceAll env newr place w s cs).1.accepted c = w.accepted c := by
  induction cs generalizing w s with
  | nil => rfl
  | cons t cs ih => exact (ih _ _).trans (accepted_replaceWins t _ _ _)

/-- Packing asks for images of its own accord, but it sends no image request. -/
theorem accepted_packWindows (newr : Rect) :
    (w.packWindows env newr).accepted c = w.accepted c := by
  rw [packWindows, accepted_replaceAll]
  have hheader : w.packHeader.accepted c = w.accepted c := by
    rw [packHeader]
    split <;> rfl
  rw [← hheader, packFooter]
  split <;> rfl

theorem accepted_enlist : (w.enlist c).accepted c = w.accepted c := by
  rw [enlist]
  split_ifs <;> rfl

theorem follow_frame {win : Window} {off : Point} {p : Pointer}
    (h : follow c win off w ptr = some (w', p)) :
    w'.accepted c = w.accepted c ∧ w'.tick = w.tick ∧ w'.client = w.client := by
  induction ptr generalizing w with
  | nil => cases h
  | cons q ptr ih =>
    rw [follow] at h
    split_ifs at h
    · obtain ⟨rfl, rfl⟩ := h
      exact ⟨accepted_send _ (by rintro _ _ ⟨⟩), rfl, rfl⟩
    · obtain ⟨hacc, htick, hclient⟩ := ih h
      exact ⟨hacc.trans (accepted_send _ (by rintro _ _ ⟨⟩)), htick, hclient⟩

/-- Dragging sends the client a pointer event, and no image. -/
theorem drag_frame {win : Window} {off : Point} {x : Except String Rect}
    (h : w.drag c win off ptr = some (w', x)) :
    w'.accepted c = w.accepted c ∧ w'.tick = w.tick ∧ w'.client = w.client := by
  rw [drag] at h
  split_ifs at h
  · obtain ⟨rfl, rfl⟩ := h
    exact ⟨rfl, rfl, rfl⟩
  · split at h
    · cases h
    · rename_i w₁ p hfollow
      obtain ⟨rfl, rfl⟩ := h
      obtain ⟨hacc, htick, hclient⟩ := follow_frame hfollow
      have hsend := accepted_send (w := w₁) (c := c) (.ptr c (some p)) (by rintro _ _ ⟨⟩)
      exact ⟨hsend.trans hacc, htick, hclient⟩

/-! ## What `reshape` answers and sends -/

theorem reshape_answer : (reshape .rowwm env w c tag r).2 = (w.reshapeImage env c tag r).2 := by
  rw [reshape]
  split
  · rename_i heq
    rw [heq]
  · rename_i heq
    rw [heq]
    split_ifs <;> rfl

theorem reshape_accepted :
    (reshape .rowwm env w c tag r).1.accepted c = (w.reshapeImage env c tag r).1.accepted c := by
  rw [reshape]
  split
  · rename_i heq
    rw [heq]
  · rename_i heq
    rw [heq]
    simp only
    split_ifs
    · rw [accepted_packWindows, accepted_enlist]
    · rw [accepted_enlist]

/-- An image request is in the log with its answer. -/
theorem accepted_images (env : Env) (w : Wm) (c : Cid) (o : Option Point) (i : Image) :
    (images env w c o i).1.accepted c =
      w.accepted c ++ if env.accepts w.tick then [(o, i)] else [] := by
  rw [images, accepted, send, List.filterMap_append, accepted]
  cases env.accepts w.tick <;> simp

/-- A window that is only moved: the image request is made if there is an image. -/
theorem setorigin_accepted_iff (o : Point) :
    (∃ request, (w.setorigin env c tag o).1.accepted c = w.accepted c ++ [request]) ↔
      Movable env w c tag := by
  rw [setorigin, Movable]
  cases himg : ((w.client c).window tag).bind Window.img with
  | none =>
    simp only [ne_eq, not_true_eq_false, false_and, iff_false]
    rintro ⟨request, h⟩
    simp at h
  | some img =>
    have himages := accepted_images env w c (some o) img
    have hanswer : (images env w c (some o) img).2 = env.accepts w.tick := rfl
    simp only [ne_eq, reduceCtorEq, not_false_eq_true, true_and]
    split
    · rename_i w₁ heq
      rw [heq] at himages hanswer
      rw [← hanswer, if_pos rfl] at himages
      simp only [← hanswer, iff_true]
      exact ⟨_, himages⟩
    · rename_i w₁ heq
      rw [heq] at himages hanswer
      rw [← hanswer] at himages
      simp only [← hanswer, Bool.false_eq_true, iff_false]
      rintro ⟨request, h⟩
      simp [himages] at h

/-- A window that gets a new image: the answer says what has become of the request, which
is accepted if an image can be made and `childminder` takes it. -/
theorem reshapeImage_renewed (env : Env) (hmoves : ¬ w.Moves c tag r) :
    ((w.reshapeImage env c tag r).2 = none ↔ Renewable env w) ∧
      w.Handshake c (w.reshapeImage env c tag r).1 (w.reshapeImage env c tag r).2 := by
  rw [reshapeImage, if_neg hmoves, newwindow, Renewable]
  cases hnew : env.newwindow w.tick with
  | false =>
    refine ⟨by simp, iff_of_false (by simp) ?_⟩
    rintro ⟨request, h⟩
    simp [accepted] at h
  | true =>
    simp only [if_true, true_and]
    let w₁ := { w with tick := w.tick + 1 }.put c (·.putimage tag ⟨w.tick, r⟩)
    have himages := accepted_images env w₁ c none ⟨w.tick, r⟩
    have hset : setimage env { w with tick := w.tick + 1 } c tag ⟨w.tick, r⟩ =
      ((images env w₁ c none ⟨w.tick, r⟩).1, env.accepts (w.tick + 1)) := rfl
    rw [hset]
    change _ = w.accepted c ++ if env.accepts (w.tick + 1) then _ else _ at himages
    cases haccepts : env.accepts (w.tick + 1) with
    | false =>
      rw [haccepts] at himages
      refine ⟨by simp, iff_of_false (by simp) ?_⟩
      rintro ⟨request, h⟩
      simp [himages] at h
    | true =>
      rw [haccepts] at himages
      exact ⟨by simp, iff_of_true rfl ⟨_, himages⟩⟩

/-- What becomes of the image request of a reshape, whatever is answered. -/
theorem reshape_accepted_iff (env : Env) (w : Wm) (c : Cid) (tag : String) (r : Rect) :
    (∃ request, (reshape .rowwm env w c tag r).1.accepted c = w.accepted c ++ [request]) ↔
      if w.Moves c tag r then Movable env w c tag else Renewable env w := by
  rw [reshape_accepted]
  split_ifs with hmoves
  · rw [reshapeImage, if_pos hmoves]
    exact setorigin_accepted_iff r.min
  · have hrenewed := reshapeImage_renewed env hmoves
    exact hrenewed.2.symm.trans hrenewed.1

/-- A window that is only moved is answered with nil in any case. -/
theorem reshape_answer_of_moves (hmoves : w.Moves c tag r) :
    (reshape .rowwm env w c tag r).2 = none := by
  rw [reshape_answer, reshapeImage, if_pos hmoves]

/-! ## The requests -/

/-- An error, and no image request. -/
theorem handshake_of_error {msg : String} (h : w'.accepted c = w.accepted c) :
    w.Handshake c w' (some msg) := by
  refine iff_of_false (by simp) ?_
  rintro ⟨request, hreq⟩
  simp [h] at hreq

/-- What a request has changed when it calls `reshape`. -/
theorem reshapeCall_frame (h : w.reshapeCall .rowwm env c req ptr = some (w', tag, r)) :
    w'.accepted c = w.accepted c ∧ w'.tick = w.tick ∧ w'.client = w.client := by
  rw [reshapeCall.eq_def] at h
  split at h
  · cases h
  split_ifs at h
  · rw [moveArgs.eq_def] at h
    split at h
    · split at h
      · cases h
      split_ifs at h
      · split at h
        · rename_i hdrag
          obtain ⟨rfl, -⟩ := h
          exact drag_frame hdrag
        · cases h
      · obtain ⟨r₁, -, heq⟩ := Option.map_eq_some_iff.mp h
        obtain ⟨rfl, -⟩ := heq
        exact ⟨rfl, rfl, rfl⟩
    · cases h
  · rw [reshapeArgs.eq_def] at h
    split at h
    · obtain ⟨⟨w₁, r₁⟩, hplace, heq⟩ := Option.map_eq_some_iff.mp h
      obtain ⟨rfl, -⟩ := heq
      rw [placement.eq_def] at hplace
      split at hplace
      · obtain ⟨rfl, -⟩ := hplace
        exact ⟨rfl, rfl, rfl⟩
      · split_ifs at hplace
        all_goals
          obtain ⟨rfl, -⟩ := hplace
          exact ⟨rfl, rfl, rfl⟩
    · cases h

/-- A `"!move"` or `"!size"` that does not get as far as `reshape` is an error. -/
theorem moveRequest_failed {ismove : Bool} (hargs : w.moveArgs c ismove ptr args = none)
    (h : w.moveRequest .rowwm env c ismove ptr args = some (w', e)) : w.Handshake c w' e := by
  rw [moveRequest.eq_def] at h
  split at h
  · split at h
    · obtain ⟨rfl, rfl⟩ := h
      exact handshake_of_error rfl
    · rename_i win hwin
      split at h
      · simp only [moveArgs, hwin] at hargs
        split_ifs at h hargs with hmove
        · rw [dragwin] at h
          split at h
          · cases h
          · rename_i hdrag
            obtain ⟨rfl, rfl⟩ := h
            exact handshake_of_error (drag_frame hdrag).1
          · rename_i hdrag
            rw [hdrag] at hargs
            cases hargs
        · rw [sizewin, Option.map_eq_none_iff.mp hargs] at h
          cases h
      · obtain ⟨rfl, rfl⟩ := h
        exact handshake_of_error rfl
  · obtain ⟨rfl, rfl⟩ := h
    exact handshake_of_error rfl

/-- A `"!reshape"` that does not get as far as `reshape` is an error. -/
theorem reshapeRequest_failed (hargs : w.reshapeArgs .rowwm env args = none) :
    w.Handshake c (w.reshapeRequest .rowwm env c args).1 (w.reshapeRequest .rowwm env c args).2 := by
  rw [reshapeRequest.eq_def]
  split
  · split
    · rename_i hplace
      simp [reshapeArgs, hplace] at hargs
    · exact handshake_of_error rfl
  · exact handshake_of_error rfl

/-- Whether an unknown request of the client goes to the controller. -/
def Forwards (w : Wm) (c : Cid) : Prop :=
  ∃ ctlr ∈ w.controller, ctlr ≠ c ∧ (w.client ctlr).controlstarted = true

/-- A request that goes to the controller is answered with nil, and nobody makes an image. -/
theorem otherRequest_handshake_iff (w : Wm) (c : Cid) (req : String) :
    w.Handshake c (w.otherRequest c req).1 (w.otherRequest c req).2 ↔ ¬ w.Forwards c := by
  rw [otherRequest, Forwards]
  split
  · rename_i hctlr
    simp only [hctlr, Option.mem_def, reduceCtorEq, false_and, exists_false, not_false_eq_true,
      iff_true]
    exact handshake_of_error rfl
  · rename_i ctlr hctlr
    simp only [hctlr, Option.mem_def, Option.some.injEq, exists_eq_left', not_and,
      Bool.not_eq_true]
    split_ifs with hc
    · refine iff_of_true (handshake_of_error rfl) ?_
      exact fun hne => hc.resolve_left hne
    · obtain ⟨hne, hstarted⟩ := not_or.mp hc
      refine iff_of_false ?_ fun h => hstarted (h hne)
      intro h
      obtain ⟨request, hreq⟩ := h.mp rfl
      simp at hreq

/-- Of the requests with a `!`, the manager knows three. -/
theorem plainRequest_bang (h : ['!'] <+: cmd.toList) (hreshape : cmd ≠ "!reshape") :
    w.plainRequest .rowwm env c req cmd args = w.otherRequest c req := by
  rw [plainRequest.eq_def]
  split
  case h_5 => exact absurd rfl hreshape
  case h_16 => rfl
  all_goals exact absurd h (by decide)

/-- A complete request with a `!` that is none of the three the manager knows. -/
def Unknown (req : String) : Prop :=
  3 ≤ (unquoted req).length ∧
    ∀ cmd ∈ (unquoted req).head?, cmd ∉ ["!reshape", "!move", "!size"]

/-- The condition for the handshake. A request that makes `reshape` move a window needs a
window with an image and a `childminder` that takes the request; `"!move"` and `"!size"`
need that also where a new image is made; an unknown request must not be forwarded. -/
def ImageSafe (env : Env) (w : Wm) (c : Cid) (req : String) (ptr : List Pointer) : Prop :=
  (∀ call ∈ w.reshapeCall .rowwm env c req ptr,
    if w.Moves c call.2.1 call.2.2 then Movable env w c call.2.1
    else (unquoted req).head? = some "!reshape" ∨ Renewable env w) ∧
  (Unknown req → ¬ w.Forwards c)

instance (env : Env) (w : Wm) (c : Cid) (tag : String) : Decidable (Movable env w c tag) :=
  inferInstanceAs (Decidable (_ ∧ _))

instance (env : Env) (w : Wm) : Decidable (Renewable env w) := inferInstanceAs (Decidable (_ ∧ _))

instance (w : Wm) (c : Cid) : Decidable (w.Forwards c) :=
  inferInstanceAs (Decidable (∃ ctlr ∈ w.controller, _ ∧ _))

instance (req : String) : Decidable (Unknown req) := inferInstanceAs (Decidable (_ ∧ _))

instance (env : Env) (w : Wm) (c : Cid) (req : String) (ptr : List Pointer) :
    Decidable (ImageSafe env w c req ptr) :=
  inferInstanceAs (Decidable
    ((∀ call ∈ w.reshapeCall .rowwm env c req ptr,
      if w.Moves c call.2.1 call.2.2 then Movable env w c call.2.1
      else (unquoted req).head? = some "!reshape" ∨ Renewable env w) ∧
    (Unknown req → ¬ w.Forwards c)))

theorem unknown_cons (hreq : unquoted req = cmd :: args) :
    Unknown req ↔ 2 ≤ args.length ∧ cmd ∉ ["!reshape", "!move", "!size"] := by
  rw [Unknown, hreq]
  simp

/-- What a request that calls `reshape` answers: what `reshape` answers, or nil. -/
theorem handlerequest_answer {w₁ : Wm} (hreq : unquoted req = cmd :: args)
    (hcall : w.reshapeCall .rowwm env c req ptr = some (w₁, tag, r))
    (h : w.handlerequest .rowwm env c req ptr = some (w', e)) :
    e = if cmd = "!reshape" then (reshape .rowwm env w₁ c tag r).2 else none := by
  rw [reshapeCall, hreq] at hcall
  rw [handlerequest_cons hreq] at h
  simp only at hcall
  have hlen : ¬ args.length < 2 := by
    intro hlen
    rcases args with _ | ⟨_, _ | ⟨_, args⟩⟩
    · simp [moveArgs, reshapeArgs] at hcall
    · simp [moveArgs, reshapeArgs] at hcall
    · simp only [List.length_cons] at hlen
      omega
  rw [if_neg fun hshort => hlen hshort.2] at h
  split_ifs at hcall h with hmove hreshape
  · rw [moveRequest_of_moveArgs hcall] at h
    have hcmd : cmd ≠ "!reshape" := by
      rintro rfl
      exact absurd hmove (by decide)
    rw [if_neg hcmd]
    exact (congrArg Prod.snd (Option.some.inj h)).symm
  · subst hreshape
    have hplain := congrArg Prod.snd (Option.some.inj h)
    exact hplain.symm.trans (congrArg Prod.snd (reshapeRequest_of_reshapeArgs hcall))

/-- A request that does not call `reshape`. -/
theorem handshake_iff_of_no_call (hbang : ['!'] <+: cmd.toList) (hreq : unquoted req = cmd :: args)
    (hlen : ¬ args.length < 2) (hcall : w.reshapeCall .rowwm env c req ptr = none)
    (h : w.handlerequest .rowwm env c req ptr = some (w', e)) :
    w.Handshake c w' e ↔ cmd ∉ ["!reshape", "!move", "!size"] → ¬ w.Forwards c := by
  rw [reshapeCall, hreq] at hcall
  rw [handlerequest_cons hreq] at h
  simp only at hcall
  rw [if_neg fun hshort => hlen hshort.2] at h
  split_ifs at hcall h with hmove hreshape
  · refine iff_of_true (moveRequest_failed hcall h) fun hcmd => ?_
    rcases hmove with rfl | rfl
    all_goals exact absurd hcmd (by decide)
  · subst hreshape
    obtain ⟨rfl, rfl⟩ := Prod.mk.inj (Option.some.inj h)
    exact iff_of_true (reshapeRequest_failed hcall) fun hcmd => absurd hcmd (by decide)
  · rw [plainRequest_bang hbang hreshape] at h
    have hother := otherRequest_handshake_iff w c req
    rw [Option.some.inj h] at hother
    have hcmd : cmd ∉ ["!reshape", "!move", "!size"] := by
      simp [hreshape, not_or.mp hmove]
    simp only [hcmd, not_false_eq_true, true_implies]
    exact hother

/-- A request that calls `reshape`. -/
theorem handshake_iff_of_call {w₁ : Wm} (hreq : unquoted req = cmd :: args)
    (hcall : w.reshapeCall .rowwm env c req ptr = some (w₁, tag, r))
    (h : w.handlerequest .rowwm env c req ptr = some (w', e)) :
    w.Handshake c w' e ↔
      if w.Moves c tag r then Movable env w c tag else cmd = "!reshape" ∨ Renewable env w := by
  obtain ⟨hacc, htick, hclient⟩ := reshapeCall_frame hcall
  have hanswer := handlerequest_answer hreq hcall h
  have hsent := reshape_accepted_iff env w₁ c tag r
  obtain rfl := handlerequest_reshape hcall h
  have hmoves : w₁.Moves c tag r ↔ w.Moves c tag r := by simp only [Moves, Samesize, hclient]
  have hmovable : Movable env w₁ c tag ↔ Movable env w c tag := by
    simp only [Movable, hclient, htick]
  have hrenewable : Renewable env w₁ ↔ Renewable env w := by simp only [Renewable, htick]
  simp only [hacc, hmoves, hmovable, hrenewable] at hsent
  rw [Handshake, hsent]
  by_cases hm : w.Moves c tag r
  · have hnone : e = none := by
      rw [hanswer, reshape_answer_of_moves (hmoves.mpr hm), ite_self]
    simp only [hnone, hm, if_true, true_iff]
  · rw [if_neg hm, if_neg hm]
    by_cases hcmd : cmd = "!reshape"
    · rw [if_pos hcmd, reshape_answer] at hanswer
      have hnew := (reshapeImage_renewed env fun hm₁ => hm (hmoves.mp hm₁)).1
      rw [← hanswer, hrenewable] at hnew
      exact iff_of_true hnew (Or.inl hcmd)
    · rw [if_neg hcmd] at hanswer
      simp only [hanswer, hcmd, false_or, true_iff]

/-- A request that calls `reshape` is one of the three that the manager knows. -/
theorem known_of_call {w₁ : Wm} (hreq : unquoted req = cmd :: args)
    (hcall : w.reshapeCall .rowwm env c req ptr = some (w₁, tag, r)) :
    cmd ∈ ["!reshape", "!move", "!size"] := by
  rw [reshapeCall, hreq] at hcall
  simp only at hcall
  split_ifs at hcall with hmove hreshape
  · rcases hmove with rfl | rfl
    all_goals decide
  · rw [hreshape]
    decide

/-- The handshake of every request with a `!` that `rowwm` answers: success goes with
exactly one accepted image request if and only if the condition holds. -/
theorem handshake_iff (hbang : req.toList.head? = some '!')
    (h : w.handlerequest .rowwm env c req ptr = some (w', e)) :
    w.Handshake c w' e ↔ ImageSafe env w c req ptr := by
  have hprefix : ['!'] <+: req.toList := by
    obtain ⟨t, ht⟩ := List.head?_eq_some_iff.mp hbang
    exact ⟨t, ht.symm⟩
  obtain ⟨cmd, args, hreq, hcmd⟩ := unquoted_first (by decide) (by decide) hprefix
  rw [ImageSafe, unknown_cons hreq]
  cases hcall : w.reshapeCall .rowwm env c req ptr with
  | some call =>
    obtain ⟨w₁, tag, r⟩ := call
    have hknown := known_of_call hreq hcall
    rw [handshake_iff_of_call hreq hcall h]
    simp only [Option.mem_def, Option.some.injEq, forall_eq', hreq, List.head?_cons, hknown,
      not_true_eq_false, and_false, false_implies, and_true]
  | none =>
    simp only [Option.mem_def, reduceCtorEq, false_implies, implies_true, true_and]
    by_cases hlen : args.length < 2
    · rw [handlerequest_cons hreq] at h
      simp only [hbang, hlen, and_self, if_true, Option.some.injEq, Prod.mk.injEq] at h
      obtain ⟨rfl, rfl⟩ := h
      refine iff_of_true (handshake_of_error rfl) ?_
      rintro ⟨hlong, -⟩
      exact absurd hlong (Nat.not_le.mpr hlen)
    · rw [handshake_iff_of_no_call hcmd hreq hlen hcall h]
      simp only [Nat.le_of_not_lt hlen, true_and]

/-- A manager with one row on the screen, and no controller. -/
def oneRow : Wm :=
  { client := fun _ => { wins := [⟨".", ⟨⟨0, 0⟩, ⟨196, 20⟩⟩, some ⟨0, ⟨⟨0, 0⟩, ⟨196, 20⟩⟩⟩⟩] }
    screen := ⟨⟨0, 0⟩, ⟨196, 400⟩⟩ }

/-- A row that gets another height. -/
theorem handshake_iff_reshape :
    ∃ w', oneRow.handlerequest .rowwm default 0 "!reshape . -1 0 0 196 30" [] = some (w', none) ∧
      oneRow.Handshake 0 w' none := by
  obtain ⟨⟨w', e⟩, h, he⟩ := (Option.any_eq_true _ _).mp
    (show (oneRow.handlerequest .rowwm default 0 "!reshape . -1 0 0 196 30" []).any
      (fun x => decide (x.2 = none)) = true by decide +kernel)
  obtain rfl : e = none := of_decide_eq_true he
  exact ⟨w', h, (handshake_iff (by decide +kernel) h).mpr (by decide +kernel)⟩

/-- A row of the same size, while `childminder` still has an image to hand over: `rowwm`
answers nil although the image request has been refused. -/
theorem refused_move_succeeds :
    ∃ w', oneRow.handlerequest .rowwm { (default : Env) with accepts := fun _ => false } 0
        "!reshape . -1 0 40 196 60" [] = some (w', none) ∧
      w'.accepted 0 = oneRow.accepted 0 ∧ ¬ oneRow.Handshake 0 w' none := by
  obtain ⟨⟨w', e⟩, h, he⟩ := (Option.any_eq_true _ _).mp
    (show (oneRow.handlerequest .rowwm { (default : Env) with accepts := fun _ => false } 0
        "!reshape . -1 0 40 196 60" []).any
      (fun x => decide (x.2 = none ∧ x.1.accepted 0 = [])) = true by decide +kernel)
  obtain ⟨rfl, hacc⟩ : e = none ∧ w'.accepted 0 = [] := of_decide_eq_true he
  refine ⟨w', h, hacc, ?_⟩
  intro hshake
  obtain ⟨request, hreq⟩ := hshake.mp rfl
  rw [hacc] at hreq
  cases hreq

end Wm

/-! ## The client's side -/

namespace Childminder

/-- `recvimage` of `tkclient`: it takes an image, or a nil and then an image. -/
inductive Recvimage (m : Childminder) (i : Image) (m' : Childminder) : Prop where
  | image : m.step (.outimg (some i)) = some m' → Recvimage m i m'
  | moved (m₁) : m.step (.outimg none) = some m₁ → m₁.step (.outimg (some i)) = some m' →
      Recvimage m i m'

variable {m m' : Childminder} {o : Option Point} {i : Image}

/-- What the process offers on the images channel. -/
theorem step_outimg (hphase : m.phase = .main) (h : m.imgstate ≠ .Imgnone) :
    m.step (.outimg m.sendimg') = m.peeked.imgsent := by
  simp only [step, hphase, mainAlt, offers, if_neg h, if_true]

/-- An image that is to be sent is received. -/
theorem recvimage_of_imgsend (hphase : m.phase = .main) (h : m.imgstate = .Imgsend)
    (himg : m.img = some i) : ∃ m', m.step (.outimg (some i)) = some m' := by
  have hstep := step_outimg hphase (h ▸ by decide)
  rw [sendimg', h] at hstep
  simp only [himg] at hstep
  have hsent : m.peeked.imgsent =
      some { m.peeked with imgstate := .Imgnone, img := none, sendimg := none } := by
    simp only [imgsent, peeked, h]
  exact ⟨_, hstep.trans hsent⟩

/-- After an accepted request `recvimage` gets the image of that request. -/
theorem recvimage_of_accepted (h : m.step (.image o (some i) 0) = some m') :
    ∃ m'', Recvimage m' i m'' := by
  rw [step] at h
  cases hphase : m.phase with
  | main =>
    simp only [hphase, mainAlt] at h
    split_ifs at h
    · rename_i habs
      cases habs
    · obtain rfl := Option.some.inj h
      cases o with
      | none =>
        obtain ⟨m'', hm''⟩ := recvimage_of_imgsend (m := m.peeked.imgaccept none (some i)) hphase
          rfl rfl
        exact ⟨m'', .image hm''⟩
      | some o =>
        -- the nil that announces the new origin comes first
        let m₁ := m.peeked.imgaccept (some o) (some i)
        have hnil : m₁.step (.outimg none) = m₁.peeked.imgsent :=
          step_outimg (m := m₁) hphase Imgstate.noConfusion
        obtain ⟨m'', hm''⟩ := recvimage_of_imgsend
          (m := { m₁.peeked with imgstate := .Imgsend, origins := m₁.peeked.origins ++ [(i, o)] })
          hphase rfl rfl
        exact ⟨m'', .moved _ hnil hm''⟩
  | reply => simp only [hphase, replyAlt, reduceCtorEq] at h
  | gone => simp only [hphase, reduceCtorEq] at h

/-- Without an accepted request nobody sends an image. -/
theorem outimg_none (h : m.imgstate = .Imgnone) (i : Option Image) :
    m.step (.outimg i) = none := by
  rw [step]
  cases m.phase with
  | main => simp [mainAlt, offers, h]
  | reply | gone => rfl

end Childminder

end Aimsgui
