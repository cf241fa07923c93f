import Aimsgui.Serving

/-!
# No client wedges the manager

A client breaks a `Service` if it leaves before it has been accepted, since it has no `stop`
channel yet; if it gets a message before it has been accepted, since it has no `childminder`
yet, because it has asked for the keyboard, or because it has raised itself in `tabswin` or
`topwin` and those on the screen are spoken to; or if it makes a window before it has taken the
reply, since its `childminder` accepts no images until then. And whenever a client joins, the
main loop may go on before `wm()` has started the `childminder`. As long as nothing of this
happens everything is `Sound`, and the main loop never waits (`never_wedged`).
-/

namespace Aimsgui

open Transition

namespace Service

variable {m : Manager} {s s' : Service} {env : Env} {srv' : Wmsrv} {w : Wm} {c : Cid} {a : Act}
  {e : Event} {data : String} {ptr : List Pointer}

theorem received_leave (h : received s.srv (.leave c) = some srv') :
    s.srv.pc = .leave c ∧ srv' = { s.srv.delclient c with pc := .serve } := by
  simp only [received, Wmsrv.step] at h
  split_ifs at h with hpc
  rw [hpc] at h
  simp only [if_true] at h
  obtain rfl := Option.some.inj h
  exact ⟨hpc, rfl⟩

theorem received_request (h : received s.srv (.request c data ptr) = some srv') :
    s.srv.pc = .req c data ∧ srv' = { s.srv with pc := .serve } := by
  simp only [received, Wmsrv.step] at h
  split_ifs at h with hpc
  rw [hpc] at h
  simp only [if_true] at h
  obtain rfl := Option.some.inj h
  exact ⟨hpc, rfl⟩

/-- What holds as long as nobody does anything too early. A `childminder` that is not healthy
has been told to stop. -/
structure Sound (m : Manager) (s : Service) : Prop where
  table : s.srv.Table
  refs : s.wm.z.refs = s.srv.recs.length
  gone : ∀ c ∈ s.left, c < s.srv.recs.length ∧ c ∉ s.srv.live
  asking : ∀ c data, s.srv.pc = .req c data → c ∈ s.srv.live
  joined : ∀ c, s.Joined c ↔ c ∈ s.srv.childminders
  healthy : ∀ c, ∀ minder ∈ s.minders c,
    minder.Healthy ∨ minder.phase = .gone ∧ c ∈ s.left ∧ .stop c ∉ s.todo
  answered : ∀ c ∈ s.answered, c ∈ s.srv.live
  circle : s.wm.Circle m s.left s.Joined s.Past
  todo : ∃ l, (∀ x ∈ l, x.Spoken (Here s.left s.Joined) s.Past) ∧
    (s.todo = l ∨ ∃ c ∈ s.left, s.Joined c ∧ s.todo = l ++ [.stop c])

theorem start_sound (screen : Rect) : Sound m (start screen) where
  table := Wmsrv.start_table
  refs := rfl
  gone := fun _ h => absurd h List.not_mem_nil
  asking := by rintro c data ⟨⟩
  joined c := by simp [Joined, start]
  healthy := by rintro c minder ⟨⟩
  answered := by rintro c ⟨⟩
  circle := Wm.Circle.start screen
  todo := ⟨[], fun _ h => absurd h List.not_mem_nil, Or.inl rfl⟩

theorem Sound.here (h : s.Sound m) (hc : c ∈ s.srv.live) (hjoined : s.Joined c) :
    Here s.left s.Joined c := ⟨hjoined, fun hm => (h.gone c hm).2 hc⟩

theorem joined_of_past (h : s.Past c) : s.Joined c := by
  rw [Past, Option.any_eq_true] at h
  obtain ⟨minder, hminder, -⟩ := h
  rw [Joined, hminder]
  rfl

theorem past_iff : s.Past c ↔ ∃ minder ∈ s.minders c, minder.phase ≠ .reply := by
  rw [Past, Option.any_eq_true]
  exact exists_congr fun minder => and_congr_right fun _ => by simp

/-- Whoever is still there has a `childminder` that runs. -/
theorem Sound.minder (h : s.Sound m) (hc : Here s.left s.Joined c) :
    ∃ minder ∈ s.minders c, minder.Healthy := by
  obtain ⟨minder, hminder⟩ := Option.isSome_iff_exists.mp hc.1
  rcases h.healthy c minder hminder with hhealthy | ⟨-, hleft, -⟩
  · exact ⟨minder, hminder, hhealthy⟩
  · exact absurd hleft hc.2

/-- A client that is about to be accepted has no `childminder` yet, as its `stop` is nil. -/
theorem Sound.not_joined (h : s.Sound m) (hpc : s.srv.pc = .join c ∨ s.srv.pc = .answer c) :
    ¬ s.Joined c := by
  intro hjoined
  obtain ⟨-, r, hr, hstop⟩ := h.table.asking c hpc
  obtain ⟨q, hq, htrue⟩ := (h.table.minded c).mp ((h.joined c).mp hjoined)
  obtain rfl := Option.some.inj (hr.symm.trans hq)
  cases hstop.symm.trans htrue

/-- What comes next can be sent. -/
theorem Sound.accepts (h : s.Sound m) {x : Send} {rest : List Send} (htodo : s.todo = x :: rest) :
    s.Accepts x := by
  obtain ⟨l, hspoken, htail⟩ := h.todo
  -- it is spoken to one of the circle, or ends the client that leaves
  have hx : x.Spoken (Here s.left s.Joined) s.Past ∨
      ∃ c ∈ s.left, s.Joined c ∧ s.todo = [.stop c] ∧ x = .stop c := by
    rcases l with _ | ⟨y, l⟩
    · rcases htail with htail | ⟨c, hleft, hjoined, htail⟩
      · cases htodo.symm.trans htail
      · obtain ⟨rfl, -⟩ := List.cons.inj (htodo.symm.trans htail)
        exact Or.inr ⟨c, hleft, hjoined, htail, rfl⟩
    · left
      have hy := hspoken y List.mem_cons_self
      rcases htail with htail | ⟨c, -, -, htail⟩
      · obtain ⟨rfl, -⟩ := List.cons.inj (htodo.symm.trans htail)
        exact hy
      · obtain ⟨rfl, -⟩ := List.cons.inj (htodo.symm.trans htail)
        exact hy
  rintro ⟨d, a⟩ hact
  rcases hx with hx | ⟨c, hleft, hjoined, hstop, rfl⟩
  · cases hx with
    | ctl hz =>
      cases hact
      obtain ⟨minder, hminder, hhealthy⟩ := h.minder hz
      exact ⟨⟨minder, hminder, hhealthy.takes (Or.inr (Or.inr (Or.inl ⟨_, rfl⟩)))⟩, nofun⟩
    | ptr hz =>
      cases hact
      obtain ⟨minder, hminder, hhealthy⟩ := h.minder hz
      exact ⟨⟨minder, hminder, hhealthy.takes (Or.inr (Or.inl ⟨_, rfl⟩))⟩, nofun⟩
    | kbd hz =>
      cases hact
      obtain ⟨minder, hminder, hhealthy⟩ := h.minder hz
      exact ⟨⟨minder, hminder, hhealthy.takes (Or.inl ⟨_, rfl⟩)⟩, nofun⟩
    | flush hz hpast =>
      cases hact
      obtain ⟨minder, hminder, hhealthy⟩ := h.minder hz
      obtain ⟨minder', hminder', hphase⟩ := past_iff.mp hpast
      -- a flush and an image are taken in the main phase only
      obtain rfl := Option.some.inj (hminder.symm.trans hminder')
      exact ⟨⟨minder, hminder, (hhealthy.takes_main hphase).1⟩, nofun⟩
    | image hz hpast =>
      cases hact
      obtain ⟨minder, hminder, hhealthy⟩ := h.minder hz
      obtain ⟨minder', hminder', hphase⟩ := past_iff.mp hpast
      obtain rfl := Option.some.inj (hminder.symm.trans hminder')
      exact ⟨⟨minder, hminder, (hhealthy.takes_main hphase).2 _ _⟩, nofun⟩
    | fakekbd | wmctl | origin => cases hact
  · cases hact
    obtain ⟨minder, hminder⟩ := Option.isSome_iff_exists.mp hjoined
    -- a client that has left is still to be told so
    rcases h.healthy d minder hminder with hhealthy | ⟨-, -, hnot⟩
    · refine ⟨⟨minder, hminder, hhealthy.takes (Or.inr (Or.inr (Or.inr rfl)))⟩, fun _ => ?_⟩
      exact Wmsrv.has_eq_true.mpr ((h.table.minded d).mp ((h.joined d).mp hjoined))
    · rw [hstop] at hnot
      exact absurd List.mem_cons_self hnot

/-! ## Steps -/

/-- `wm()` hears of a client. -/
theorem serve_sound (h : s.Sound m) {e : Wmsrv.Event} (he : e.ofClient = true)
    (hstep : s.srv.step e = some srv') :
    Sound m { s with srv := srv', wm := noted s.wm s.srv srv' } := by
  have htable := Wmsrv.step_table h.table hstep
  have hasking : ∀ c data, srv'.pc = .req c data → c ∈ srv'.live :=
    fun c data hpc => Wmsrv.step_asking hstep hpc
  rcases Wmsrv.step_cases hstep with ⟨pc, rfl, -⟩ | ⟨fid, rfl, -, -, rfl⟩ | ⟨c, rfl, -⟩ | ⟨c, rfl, -⟩
  · have hnoted : noted s.wm s.srv { s.srv with pc := pc } = s.wm := if_pos rfl
    rw [hnoted]
    exact ⟨htable, h.refs, h.gone, hasking, h.joined, h.healthy, h.answered, h.circle, h.todo⟩
  · have hlength : (s.srv.addclient fid).recs.length = s.srv.recs.length + 1 :=
      List.length_append
    have hnoted : noted s.wm s.srv (s.srv.addclient fid) =
        s.wm.addclient (Wmsrv.freeslot s.srv.clients) := if_neg (by omega)
    rw [hnoted]
    refine ⟨htable, ?_, ?_, hasking, h.joined, h.healthy,
      fun c hc => Wmsrv.live_addclient_of_live (h.answered c hc), h.circle.addclient _, h.todo⟩
    · exact (congrArg (· + 1) h.refs).trans hlength.symm
    · intro c hc
      obtain ⟨hlt, hnot⟩ := h.gone c hc
      refine ⟨hlength ▸ Nat.lt_succ_of_lt hlt, fun hlive => ?_⟩
      rcases Wmsrv.live_addclient hlive with rfl | hlive
      · exact absurd hlt (Nat.lt_irrefl _)
      · exact hnot hlive
  · cases he
  · cases he

/-- What a turn adds to the log is what has to be sent. -/
theorem drop_log {out l : List Send} : (out ++ l).drop out.length = l := List.drop_left

/-- A turn in which nobody leaves. -/
theorem Sound.keeps (h : s.Sound m) (htable : srv'.Table)
    (hrecs : srv'.recs = s.srv.recs) (hlive : srv'.live = s.srv.live)
    (hminders : srv'.childminders = s.srv.childminders) (hpc : srv'.pc = s.srv.pc ∨ srv'.pc = .serve)
    (hkeeps : s.wm.Keeps m s.left s.Joined s.Past w) (hrefs : w.z.refs = s.wm.z.refs) :
    Sound m
      { s with
        srv := srv'
        wm := w
        answered := none
        todo := w.out.drop s.wm.out.length } := by
  obtain ⟨hcircle, l, hout, hspoken⟩ := hkeeps h.circle
  rw [hout, drop_log]
  refine ⟨htable, ?_, ?_, ?_, ?_, ?_, by rintro c ⟨⟩, hcircle, l, hspoken, Or.inl rfl⟩
  · rw [hrecs]
    exact hrefs.trans h.refs
  · rw [hrecs, hlive]
    exact h.gone
  · intro c data hasking
    rw [hlive]
    rcases hpc with hpc | hpc
    · exact h.asking c data (hpc.symm.trans hasking)
    · cases hpc.symm.trans hasking
  · rw [hminders]
    exact h.joined
  · intro c minder hminder
    rcases h.healthy c minder hminder with hhealthy | ⟨hgone, hleft, -⟩
    · exact Or.inl hhealthy
    · refine Or.inr ⟨hgone, hleft, fun hm => ?_⟩
      cases hspoken _ hm

/-- The main loop answers to a client that joins. -/
theorem accept_sound (h : s.Sound m) (hstep : s.srv.step (.joined c) = some srv') :
    Sound m { s with srv := srv', answered := some c } := by
  simp only [Wmsrv.step] at hstep
  split_ifs at hstep with hpc
  obtain rfl := Option.some.inj hstep
  obtain ⟨hlive, hnew⟩ := h.table.asking c (Or.inl hpc)
  refine ⟨?_, h.refs, h.gone, by rintro a data ⟨⟩, h.joined, h.healthy, ?_, h.circle, h.todo⟩
  · refine h.table.pc (fun d hd => ?_) (by rintro d ⟨⟩)
    rcases hd with ⟨⟨⟩⟩ | ⟨⟨⟩⟩
    exact ⟨hlive, hnew⟩
  · rintro a ⟨⟩
    exact hlive

/-- `wm()` starts the `childminder` of a client that has been accepted. -/
theorem spawn_sound (h : s.Sound m) (hstep : s.srv.step (.answered c none) = some srv') :
    Sound m { s with srv := srv', minders := Function.update s.minders c (some .start) } := by
  simp only [Wmsrv.step] at hstep
  split_ifs at hstep with hpc
  obtain rfl := Option.some.inj hstep
  let s₁ : Service := { s with minders := Function.update s.minders c (some .start) }
  have hself : s₁.minders c = some .start := Function.update_self ..
  have hother : ∀ a, a ≠ c → s₁.minders a = s.minders a := fun a ha => Function.update_of_ne ha ..
  have hjoined : ∀ a, s₁.Joined a ↔ s.Joined a ∨ a = c := by
    intro a
    by_cases hac : a = c
    · subst hac
      exact iff_of_true (by rw [Joined, hself]; rfl) (Or.inr rfl)
    · rw [or_iff_left hac, Joined, hother a hac, Joined]
  have hpast : ∀ a, s.Past a → s₁.Past a := by
    intro a ha
    have hac : a ≠ c := by
      rintro rfl
      exact h.not_joined (Or.inr hpc) (joined_of_past ha)
    rwa [Past, hother a hac]
  have hlength : (s.srv.start c).recs.length = s.srv.recs.length := List.length_modify ..
  refine ⟨h.table.start hpc, h.refs.trans hlength.symm, ?_, by rintro a data ⟨⟩, ?_, ?_, h.answered,
    h.circle.mono (fun a ha => (hjoined a).mpr (Or.inl ha)) hpast, ?_⟩
  · intro a ha
    exact ⟨hlength.symm ▸ (h.gone a ha).1, (h.gone a ha).2⟩
  · intro a
    refine (hjoined a).trans ?_
    rw [h.joined a]
    exact (List.mem_append.trans (or_congr_right List.mem_singleton)).symm
  · intro a minder hminder
    by_cases hac : a = c
    · subst hac
      obtain rfl := Option.some.inj (hself.symm.trans hminder)
      exact Or.inl Childminder.healthy_start
    · exact h.healthy a minder ((hother a hac).symm.trans hminder)
  · obtain ⟨l, hspoken, htail⟩ := h.todo
    refine ⟨l, fun x hx => (hspoken x hx).mono
      (fun b hb => ⟨(hjoined b).mpr (Or.inl hb.1), hb.2⟩) hpast, ?_⟩
    refine htail.imp_right ?_
    rintro ⟨d, hleft, hd, heq⟩
    exact ⟨d, hleft, (hjoined d).mpr (Or.inl hd), heq⟩

/-- A client leaves that has been accepted. -/
theorem leave_sound (h : s.Sound m) (hjoined : s.Joined c)
    (hreceived : received s.srv (.leave c) = some srv') :
    Sound m
      { s with
        srv := srv'
        wm := s.wm.onLeave m env c
        left := c :: s.left
        answered := none
        todo := (s.wm.onLeave m env c).out.drop s.wm.out.length } := by
  obtain ⟨hpc, rfl⟩ := received_leave hreceived
  have hlive := h.table.leaving c hpc
  have hc : c ∉ s.left := fun hm => (h.gone c hm).2 hlive
  obtain ⟨hcircle, l, hout, hspoken⟩ := h.circle.onLeave env hc
  have hrecs := Wmsrv.recs_delclient s.srv c
  rw [hout, drop_log]
  refine ⟨h.table.delclient, ?_, ?_, ?_, ?_, ?_, by rintro a ⟨⟩, hcircle, l, hspoken,
    Or.inr ⟨c, List.mem_cons_self, hjoined, rfl⟩⟩
  · exact ((Session.onLeave_refs s.wm c).trans h.refs).trans (congrArg List.length hrecs).symm
  · intro a ha
    have hlost : a < s.srv.recs.length ∧ a ∉ (s.srv.delclient c).live := by
      rcases List.mem_cons.mp ha with rfl | ha
      · exact ⟨h.table.lt_of_live hlive, fun hm => (h.table.live_delclient hlive hm).1 rfl⟩
      · exact ⟨(h.gone a ha).1, fun hm => (h.gone a ha).2 (h.table.live_delclient hlive hm).2⟩
    exact ⟨(congrArg List.length hrecs).symm ▸ hlost.1, hlost.2⟩
  · rintro a data ⟨⟩
  · intro a
    exact (h.joined a).trans (Wmsrv.childminders_delclient s.srv c ▸ Iff.rfl)
  · intro a minder hminder
    rcases h.healthy a minder hminder with hhealthy | ⟨hgone, hleft, -⟩
    · exact Or.inl hhealthy
    · refine Or.inr ⟨hgone, List.mem_cons_of_mem _ hleft, fun hm => ?_⟩
      rcases List.mem_append.mp hm with hm | hm
      · cases hspoken _ hm
      · obtain rfl := Send.stop.inj (List.mem_singleton.mp hm)
        exact hc hleft

/-- A client that has been heard of, and has not left, makes a request. -/
theorem request_sound (h : s.Sound m) (hproper : Proper m s (.turn env (.request c data ptr)))
    (hreceived : received s.srv (.request c data ptr) = some srv') {answer : Answer}
    (hreq : s.wm.handlerequest m env c data ptr = some (w, answer)) :
    Sound m
      { s with
        srv := srv'
        wm := w
        answered := none
        todo := w.out.drop s.wm.out.length } := by
  obtain ⟨hpc, rfl⟩ := received_request hreceived
  have hlive := h.asking c data hpc
  obtain ⟨hstart, hmessage, hplace⟩ := hproper
  have hdecent : Wm.Decent m env s.left s.Joined s.Past s.wm c data ptr :=
    ⟨h.refs.symm ▸ h.table.lt_of_live hlive, fun hm => (h.gone c hm).2 hlive, hstart, hmessage,
      hplace⟩
  refine h.keeps ?_ rfl rfl rfl (Or.inr rfl) ?_ (Session.handled_refs (Wm.handled hreq))
  · exact h.table.pc (by rintro d (⟨⟨⟩⟩ | ⟨⟨⟩⟩)) (by rintro d ⟨⟩)
  · exact hdecent.keeps (fun a ha => joined_of_past ha) hreq

/-- The main loop takes a turn. -/
theorem turn_sound (h : s.Sound m) (hproper : Proper m s (.turn env e))
    (hanswered : s.answered = joins e) (hreceived : received s.srv e = some srv')
    (hhandled : handled m env s.wm e = some w) :
    Sound m
      { s with
        srv := srv'
        wm := w
        left := leaves e ++ s.left
        answered := none
        todo := w.out.drop s.wm.out.length } := by
  have hquiet : srv' = s.srv → s.wm.Keeps m s.left s.Joined s.Past w →
      w.z.refs = s.wm.z.refs →
      Sound m
        { s with
          srv := srv'
          wm := w
          answered := none
          todo := w.out.drop s.wm.out.length } := by
    rintro rfl hkeeps hrefs
    exact h.keeps h.table rfl rfl rfl (Or.inl rfl) hkeeps hrefs
  cases e with
  | opened id => cases hreceived
  | join c =>
    obtain rfl := Option.some.inj hreceived
    obtain rfl := Option.some.inj hhandled
    exact hquiet rfl (.onJoin (h.here (h.answered c hanswered) hproper))
      (congrArg Zorder.refs (Session.still_onJoin s.wm c).z)
  | leave c =>
    obtain rfl := Option.some.inj hhandled
    exact leave_sound h hproper hreceived
  | request c data ptr =>
    obtain ⟨⟨w, answer⟩, hreq, rfl⟩ := Option.map_eq_some_iff.mp hhandled
    exact request_sound h hproper hreceived hreq
  | key k =>
    obtain rfl := Option.some.inj hreceived
    obtain rfl := Option.some.inj hhandled
    exact hquiet rfl (.onKey k) (congrArg Zorder.refs (Session.still_onKey s.wm k).z)
  | pointer p taken =>
    obtain rfl := Option.some.inj hreceived
    obtain rfl := Option.some.inj hhandled
    exact hquiet rfl (.onPointer (fun _ => joined_of_past) p taken)
      (congrArg Zorder.refs (Session.still_onPointer s.wm p taken).z)
  | winctl e img =>
    obtain rfl := Option.some.inj hreceived
    obtain rfl := Option.some.inj hhandled
    exact hquiet rfl (.onWinctl e img hproper) (Session.onWinctl_refs s.wm e img)

/-- A `childminder` communicates, and as much of `todo` is left as is still waited for. -/
theorem mind_sound (h : s.Sound m) {minder minder' : Childminder} (hminder : minder ∈ s.minders c)
    (hstep : minder.step a = some minder') {todo : List Send} (hsub : ∀ x ∈ todo, x ∈ s.todo)
    (hhealthy : minder.Healthy →
      minder'.Healthy ∨ minder'.phase = .gone ∧ c ∈ s.left ∧ .stop c ∉ todo)
    (htodo : ∃ l, (∀ x ∈ l, x.Spoken (Here s.left s.Joined) s.Past) ∧
      (todo = l ∨ ∃ d ∈ s.left, s.Joined d ∧ todo = l ++ [.stop d])) :
    Sound m { s with minders := Function.update s.minders c (some minder'), todo := todo } := by
  let s₁ : Service := { s with minders := Function.update s.minders c (some minder') }
  have hself : s₁.minders c = some minder' := Function.update_self ..
  have hother : ∀ b, b ≠ c → s₁.minders b = s.minders b := fun b hb => Function.update_of_ne hb ..
  have hjoined : ∀ b, s.Joined b ↔ s₁.Joined b := by
    intro b
    by_cases hbc : b = c
    · subst hbc
      rw [Joined, Joined, hself, hminder]
      rfl
    · rw [Joined, Joined, hother b hbc]
  have hpast : ∀ b, s.Past b → s₁.Past b := by
    intro b hb
    by_cases hbc : b = c
    · subst hbc
      obtain ⟨old, hold, hphase⟩ := past_iff.mp hb
      obtain rfl := Option.some.inj (hminder.symm.trans hold)
      exact past_iff.mpr ⟨minder', hself, Childminder.step_past hstep hphase⟩
    · rwa [Past, hother b hbc]
  refine ⟨h.table, h.refs, h.gone, h.asking, fun b => (hjoined b).symm.trans (h.joined b), ?_,
    h.answered, h.circle.mono (fun b hb => (hjoined b).mp hb) hpast, ?_⟩
  · intro b new hnew
    by_cases hbc : b = c
    · subst hbc
      obtain rfl := Option.some.inj (hself.symm.trans hnew)
      rcases h.healthy b minder hminder with hwas | ⟨hgone, -⟩
      · exact hhealthy hwas
      · rw [Childminder.step.eq_def, hgone] at hstep
        cases hstep
    · rcases h.healthy b new ((hother b hbc).symm.trans hnew) with hwas | ⟨hgone, hleft, hnot⟩
      · exact Or.inl hwas
      · exact Or.inr ⟨hgone, hleft, fun hm => hnot (hsub _ hm)⟩
  · obtain ⟨l, hspoken, htail⟩ := htodo
    refine ⟨l, fun x hx => (hspoken x hx).mono (fun b hb => ⟨(hjoined b).mp hb.1, hb.2⟩) hpast, ?_⟩
    rcases htail with htail | ⟨d, hleft, hd, htail⟩
    · exact Or.inl htail
    · exact Or.inr ⟨d, hleft, (hjoined d).mp hd, htail⟩

/-- The main loop sends what comes next. -/
theorem send_sound (h : s.Sound m) (hstep : s.step m .send = some s') : s'.Sound m := by
  simp only [step] at hstep
  split at hstep
  · cases hstep
  · rename_i x rest hrest
    have hsub : ∀ y ∈ rest, y ∈ s.todo := fun y hy => hrest ▸ List.mem_cons_of_mem x hy
    obtain ⟨l, hspoken, htail⟩ := h.todo
    rcases l with _ | ⟨y, l⟩
    · -- nothing but the end of the client that leaves
      rcases htail with htail | ⟨d, hleft, hjoined, htail⟩
      · cases hrest.symm.trans htail
      · obtain ⟨rfl, rfl⟩ := List.cons.inj (hrest.symm.trans htail)
        obtain ⟨minder', hbind, rfl⟩ := Option.map_eq_some_iff.mp hstep
        obtain ⟨minder, hminder, hmind⟩ := Option.bind_eq_some_iff.mp hbind
        refine mind_sound h hminder hmind hsub (fun hwas => Or.inr ⟨?_, hleft, List.not_mem_nil⟩)
          ⟨[], fun _ hx => absurd hx List.not_mem_nil, Or.inl rfl⟩
        rw [Childminder.step.eq_def] at hmind
        cases hphase : minder.phase with
        | gone => exact absurd hphase hwas.running
        | reply | main =>
          rw [hphase] at hmind
          obtain rfl := Option.some.inj hmind
          rfl
    · have hy := hspoken y List.mem_cons_self
      have hl := fun z hz => hspoken z (List.mem_cons_of_mem y hz)
      -- what is sent is spoken to one of the circle, and the rest stays to be said
      obtain ⟨rfl, hremain⟩ : x = y ∧ (rest = l ∨ ∃ d ∈ s.left, s.Joined d ∧ rest = l ++ [.stop d]) := by
        rcases htail with htail | ⟨d, hleft, hjoined, htail⟩
        · obtain ⟨rfl, rfl⟩ := List.cons.inj (hrest.symm.trans htail)
          exact ⟨rfl, Or.inl rfl⟩
        · obtain ⟨rfl, rfl⟩ := List.cons.inj (hrest.symm.trans htail)
          exact ⟨rfl, Or.inr ⟨d, hleft, hjoined, rfl⟩⟩
      split at hstep
      · rename_i d a hact
        obtain ⟨minder', hbind, rfl⟩ := Option.map_eq_some_iff.mp hstep
        obtain ⟨minder, hminder, hmind⟩ := Option.bind_eq_some_iff.mp hbind
        refine mind_sound h hminder hmind hsub (fun hwas => Or.inl ?_) ⟨l, hl, hremain⟩
        -- the childminder is none the worse for it: it is not stopped, nor flushed too early, nor
        -- asked by itself for an image
        refine Childminder.step_healthy hwas ?_ ?_ ?_ hmind
        · rintro rfl
          cases hy <;> cases hact
        · rintro rfl
          cases hy <;> cases hact
          rename_i _ hpast
          obtain ⟨old, hold, hphase⟩ := past_iff.mp hpast
          obtain rfl := Option.some.inj (Eq.trans (Eq.symm hminder) hold)
          exact hphase
        · rintro o answer rfl
          cases hy <;> cases hact
      · obtain rfl := Option.some.inj hstep
        refine ⟨h.table, h.refs, h.gone, h.asking, h.joined, ?_, h.answered, h.circle, l, hl,
          hremain⟩
        intro c minder hminder
        rcases h.healthy c minder hminder with hhealthy | ⟨hgone, hleft, hnot⟩
        · exact Or.inl hhealthy
        · exact Or.inr ⟨hgone, hleft, fun hm => hnot (hsub _ hm)⟩

/-- A client communicates with its `childminder`. -/
theorem client_sound (h : s.Sound m) (hstep : s.step m (.client c a) = some s') : s'.Sound m := by
  simp only [step] at hstep
  split_ifs at hstep with ha
  obtain ⟨minder', hbind, rfl⟩ := Option.map_eq_some_iff.mp hstep
  obtain ⟨minder, hminder, hmind⟩ := Option.bind_eq_some_iff.mp hbind
  refine mind_sound h hminder hmind (fun _ hx => hx) (fun hwas => Or.inl ?_) h.todo
  refine Childminder.step_healthy hwas ?_ ?_ ?_ hmind
  · rintro rfl
    cases ha
  · rintro rfl
    cases ha
  · rintro o answer rfl
    cases ha

/-- One step, if nobody is too early. -/
theorem step_sound (h : s.Sound m) {e : Move} (hproper : Proper m s e)
    (hstep : s.step m e = some s') : s'.Sound m := by
  cases e with
  | serve e =>
    simp only [step] at hstep
    split_ifs at hstep with he
    obtain ⟨srv, hsrv, rfl⟩ := Option.map_eq_some_iff.mp hstep
    exact serve_sound h he hsrv
  | accept c =>
    simp only [step] at hstep
    split_ifs at hstep
    obtain ⟨srv, hsrv, rfl⟩ := Option.map_eq_some_iff.mp hstep
    exact accept_sound h hsrv
  | spawn c =>
    obtain ⟨srv, hsrv, rfl⟩ := Option.map_eq_some_iff.mp hstep
    exact spawn_sound h hsrv
  | turn env e =>
    simp only [step] at hstep
    split_ifs at hstep with hready
    obtain ⟨srv, hreceived, hmap⟩ := Option.bind_eq_some_iff.mp hstep
    obtain ⟨w, hhandled, rfl⟩ := Option.map_eq_some_iff.mp hmap
    exact turn_sound h hproper hready.2 hreceived hhandled
  | send => exact send_sound h hstep
  | client c a => exact client_sound h hstep

/-- However the clients open and close the file, read and write it, ask for connections, and take
replies and messages or leave them: as long as nobody is too early, the main loop always finds
the `childminder` that it sends to running and ready for it, and never sends on a nil channel. -/
theorem never_wedged {screen : Rect} {es : List Move}
    (h : Run (Guarded (Proper m) (StepOf (step m))) (start screen) es s) :
    ∀ x ∈ s.todo.head?, s.Accepts x := by
  have hsound : s.Sound m := by
    refine h.invariant (start_sound screen) ?_
    rintro s e s' hs ⟨hproper, hstep⟩
    exact step_sound hs hproper hstep
  intro x hx
  obtain ⟨rest, htodo⟩ := List.head?_eq_some_iff.mp hx
  exact hsound.accepts htodo

/-- A client joins, takes the reply, makes a window and leaves: its `childminder` is told. -/
theorem never_wedged_window :
    ∃ s, Run (Guarded (Proper .rowwm) (StepOf (step .rowwm))) (start ⟨⟨0, 0⟩, ⟨196, 400⟩⟩)
        [.serve (.read 7 true), .serve (.wmreq "7"), .accept 0, .spawn 0, .turn default (.join 0), .send,
          .client 0 .reply, .serve (.write 7 "!reshape . -1 0 0 50 20"),
          .turn default (.request 0 "!reshape . -1 0 0 50 20" []), .send, .send, .send,
          .serve (.close 7), .turn default (.leave 0)] s ∧
      s.todo.head? = some (.stop 0) ∧ s.Accepts (.stop 0) := by
  obtain ⟨s, hrun, hnext⟩ : ∃ s, Run (Guarded (Proper .rowwm) (StepOf (step .rowwm)))
      (start ⟨⟨0, 0⟩, ⟨196, 400⟩⟩)
      [.serve (.read 7 true), .serve (.wmreq "7"), .accept 0, .spawn 0, .turn default (.join 0), .send,
        .client 0 .reply, .serve (.write 7 "!reshape . -1 0 0 50 20"),
        .turn default (.request 0 "!reshape . -1 0 0 50 20" []), .send, .send, .send,
        .serve (.close 7), .turn default (.leave 0)] s ∧ s.todo.head? = some (.stop 0) :=
    Run.exists_of_execGuarded (by decide +kernel)
  exact ⟨s, hrun, hnext, never_wedged hrun _ hnext⟩

/-- A client that leaves before it has joined: the main loop sends on its `stop` channel, which
is nil, and there is no `childminder`. -/
theorem wedged_by_leaving :
    ∃ s, Run (StepOf (step .rowwm)) (start ⟨⟨0, 0⟩, ⟨196, 400⟩⟩)
        [.serve (.read 7 true), .serve (.close 7), .turn default (.leave 0)] s ∧
      s.todo.head? = some (.stop 0) ∧ s.srv.has Wmsrv.Clientrec.stop 0 = false ∧
      s.minders 0 = none ∧ ¬ ∀ x ∈ s.todo.head?, s.Accepts x := by
  obtain ⟨s, hrun, hnext, hnil, hnone⟩ : ∃ s, Run (StepOf (step .rowwm))
      (start ⟨⟨0, 0⟩, ⟨196, 400⟩⟩)
      [.serve (.read 7 true), .serve (.close 7), .turn default (.leave 0)] s ∧
      s.todo.head? = some (.stop 0) ∧ s.srv.has Wmsrv.Clientrec.stop 0 = false ∧
      (s.minders 0).isNone = true :=
    Run.exists_of_exec (by decide +kernel)
  refine ⟨s, hrun, hnext, hnil, Option.isNone_iff_eq_none.mp hnone, fun hall => ?_⟩
  have hstop := (hall _ hnext (0, .stop) rfl).2 rfl
  cases hnil.symm.trans hstop

/-- Whenever a client joins, the main loop may go on first, and wait to send to a client that has no
`childminder`. It waits for nobody but `wm()`. -/
theorem hasty_join (h : s.Sound m) (hstep : s.step m (.accept c) = some s') (env : Env) :
    ∃ s₁, s'.step m (.turn env (.join c)) = some s₁ ∧ s₁.minders c = none ∧
      s₁.todo.head? = some (.ctl c ("rect " ++ Wm.r2s s.wm.screen)) ∧
      ∃ s₂, s₁.step m (.spawn c) = some s₂ ∧ s₂.Accepts (.ctl c ("rect " ++ Wm.r2s s.wm.screen)) := by
  simp only [step] at hstep
  split_ifs at hstep with hready
  obtain ⟨srv, hsrv, rfl⟩ := Option.map_eq_some_iff.mp hstep
  simp only [Wmsrv.step] at hsrv
  split_ifs at hsrv with hpc
  obtain rfl := Option.some.inj hsrv
  obtain ⟨l, hout⟩ := Wm.out_onJoin s.wm c
  have htodo : (s.wm.onJoin c).out.drop s.wm.out.length =
      Send.ctl c ("rect " ++ Wm.r2s s.wm.screen) :: l := by
    rw [hout, drop_log]
  refine ⟨_, if_pos ⟨hready.1, rfl⟩, Option.not_isSome_iff_eq_none.mp (h.not_joined (Or.inl hpc)),
    congrArg List.head? htodo, _, congrArg (Option.map _) (if_pos rfl), ?_⟩
  rintro _ ⟨⟩
  exact ⟨⟨.start, Function.update_self .., rfl⟩, by rintro ⟨⟩⟩

/-- A client that asks for the keyboard before it has joined; one that makes a window before it
has taken the reply; and one that raises itself before it has joined, when the manager is told
to exit. -/
example : ∀ m ∈ [Manager.tabswin, .topwin], ∀ es ∈ ([
    [.serve (.read 7 true), .serve (.write 7 "start kbd"),
      .turn default (.request 0 "start kbd" []), .send],
    [.serve (.read 7 true), .serve (.wmreq "7"), .accept 0, .spawn 0, .turn default (.join 0),
      .send, .serve (.write 7 "!reshape . -1 0 0 50 20"),
      .turn default (.request 0 "!reshape . -1 0 0 50 20" [])],
    [.serve (.read 7 true), .serve (.write 7 "raise"), .turn default (.request 0 "raise" []),
      .turn default (.winctl "exit" none)]] : List (List Move)),
    (exec (step m) (start ⟨⟨0, 0⟩, ⟨196, 400⟩⟩) es).any fun s =>
      decide (∃ x ∈ s.todo.head?, ¬ s.Accepts x) := by
  decide +kernel

end Service

end Aimsgui
