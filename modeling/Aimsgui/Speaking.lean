import Aimsgui.Control
import Aimsgui.Listing
import Aimsgui.Sizes

/-!
# Whom a manager talks to

A manager sends to the clients on the screen, to those that have a focus or the control, and to
the client whose request it handles. `Circle` says that they have all `been` accepted at some
time and have not left, and that those with windows are `past` the connection reply. The screen
of `tabswin` and `topwin` is an exception: a client comes there by raising itself, accepted or
not. Every operation keeps it that way and talks to nobody else (`Keeps`), if no client asks too
early for the keyboard or for a window, or is spoken to before it has been accepted
(`Decent`).
-/

namespace Aimsgui

/-- The client has been accepted and has not left. -/
def Here (left : List Cid) (been : Cid → Prop) (c : Cid) : Prop := been c ∧ c ∉ left

/-- Something for a client `who`; an image, or a nil pointer, only if the client is `past` the
reply. -/
inductive Send.Spoken (who past : Cid → Prop) : Send → Prop where
  | ctl {z e} : who z → Spoken who past (.ctl z e)
  | ptr {z p} : who z → Spoken who past (.ptr z (some p))
  | flush {z} : who z → past z → Spoken who past (.ptr z none)
  | kbd {z k} : who z → Spoken who past (.kbd z k)
  | image {z o i ok} : who z → past z → Spoken who past (.image z o i ok)
  | fakekbd {s} : Spoken who past (.fakekbd s)
  | wmctl {s} : Spoken who past (.wmctl s)
  | origin {z tag org} : Spoken who past (.origin z tag org)

/-- More may be said to more clients. -/
theorem Send.Spoken.mono {who who' past past' : Cid → Prop} (hwho : ∀ c, who c → who' c)
    (hpast : ∀ c, past c → past' c) {x : Send} (h : x.Spoken who past) : x.Spoken who' past' := by
  cases h with
  | ctl hz => exact .ctl (hwho _ hz)
  | ptr hz => exact .ptr (hwho _ hz)
  | flush hz hp => exact .flush (hwho _ hz) (hpast _ hp)
  | kbd hz => exact .kbd (hwho _ hz)
  | image hz hp => exact .image (hwho _ hz) (hpast _ hp)
  | fakekbd => exact .fakekbd
  | wmctl => exact .wmctl
  | origin => exact .origin

namespace Wm

/-- Between `w` and `w'` nothing is sent but what is `Spoken`. -/
def Speaks (who past : Cid → Prop) (w w' : Wm) : Prop :=
  ∃ l, w'.out = w.out ++ l ∧ ∀ x ∈ l, x.Spoken who past

/-- Whoever the manager may talk to has been accepted and is still there. -/
structure Circle (m : Manager) (left : List Cid) (been past : Cid → Prop) (w : Wm) : Prop where
  lists : Lists left (fun c => m = .rowwm → been c) w
  kbdfocus : ∀ c ∈ w.kbdfocus, Here left been c
  ptrfocus : ∀ c ∈ w.ptrfocus, Here left been c ∧ past c
  controller : ∀ c ∈ w.controller, Here left been c
  started : ∀ c, (w.client c).kbdstarted = true → been c
  wins : ∀ c, (w.client c).wins ≠ [] → past c

variable {m : Manager} {env : Env} {left : List Cid} {been past : Cid → Prop}
  {w w' w'' : Wm} {c : Cid} {l : List Send} {e req : String}
  {ptr : List Pointer}

theorem Circle.here (h : Circle m left been past w) (hc : c ∈ w.order) (hbeen : been c) :
    Here left been c := ⟨hbeen, (h.lists.mem_order hc).2.1⟩

/-- The circle is kept, and nobody else is talked to. -/
def Keeps (m : Manager) (left : List Cid) (been past : Cid → Prop) (w w' : Wm) : Prop :=
  Circle m left been past w → Circle m left been past w' ∧ Speaks (Here left been) past w w'

namespace Keeps

theorem trans (h : Keeps m left been past w w') (h' : Keeps m left been past w' w'') :
    Keeps m left been past w w'' := by
  intro hw
  obtain ⟨hw', l, hl, hsaid⟩ := h hw
  obtain ⟨hw'', l', hl', hsaid'⟩ := h' hw'
  refine ⟨hw'', l ++ l', by rw [hl', hl, List.append_assoc], ?_⟩
  intro x hx
  rcases List.mem_append.mp hx with hx | hx
  · exact hsaid x hx
  · exact hsaid' x hx

/-- Nobody gets a focus or the control, or has a first window. -/
theorem frame (hlists : Circle m left been past w → Lists left (fun c => m = .rowwm → been c) w')
    (hkbd : w'.kbdfocus = w.kbdfocus)
    (hptr : w'.ptrfocus = w.ptrfocus) (hctlr : ∀ c ∈ w'.controller, c ∈ w.controller)
    (hstarted : ∀ a, (w'.client a).kbdstarted = true → (w.client a).kbdstarted = true ∨ been a)
    (hwins : ∀ a, (w.client a).wins = [] → (w'.client a).wins = [])
    (hout : w'.out = w.out ++ l)
    (hl : Circle m left been past w → ∀ x ∈ l, x.Spoken (Here left been) past) :
    Keeps m left been past w w' := by
  intro hw
  refine ⟨⟨hlists hw, ?_, ?_, ?_, ?_, ?_⟩, l, hout, hl hw⟩
  · rw [hkbd]
    exact hw.kbdfocus
  · rw [hptr]
    exact hw.ptrfocus
  · exact fun a ha => hw.controller a (hctlr a ha)
  · exact fun a ha => (hstarted a ha).elim (hw.started a) id
  · exact fun a ha => hw.wins a (mt (hwins a) ha)

theorem logged (hl : Circle m left been past w → ∀ x ∈ l, x.Spoken (Here left been) past) :
    Keeps m left been past w (w.logged l) :=
  frame (fun hw => hw.lists.of_z rfl) rfl rfl (fun _ h => h) (fun _ h => Or.inl h) (fun _ h => h)
    rfl hl

/-- Nothing is sent. -/
theorem silent (hz : w'.z = w.z) (hclient : w'.client = w.client) (hkbd : w'.kbdfocus = w.kbdfocus)
    (hptr : w'.ptrfocus = w.ptrfocus) (hctlr : ∀ c ∈ w'.controller, c ∈ w.controller)
    (hout : w'.out = w.out) : Keeps m left been past w w' :=
  frame (fun hw => hw.lists.of_z hz) hkbd hptr hctlr (fun _ h => Or.inl (hclient ▸ h))
    (fun _ h => hclient ▸ h)
    (hout.trans (List.append_nil _).symm) fun _ _ hx => absurd hx List.not_mem_nil

theorem rfl' : Keeps m left been past w w := silent rfl rfl rfl rfl (fun _ h => h) rfl

theorem send {x : Send} (hx : Circle m left been past w → x.Spoken (Here left been) past) :
    Keeps m left been past w (w.send x) :=
  logged (l := [x]) fun hw _ hy => List.mem_singleton.mp hy ▸ hx hw

theorem ctl (hc : Circle m left been past w → Here left been c) :
    Keeps m left been past w (w.ctl c e) :=
  send fun hw => .ctl (hc hw)

theorem wmctl' (s : String) : Keeps m left been past w (w.wmctl' env s).1 :=
  frame (l := [.wmctl s]) (fun hw => hw.lists.of_z rfl) rfl rfl (fun _ h => h)
    (fun _ h => Or.inl h) (fun _ h => h) rfl fun _ _ hx => List.mem_singleton.mp hx ▸ .wmctl

theorem put {f : Client → Client} (hstarted : (f (w.client c)).kbdstarted = true →
      (w.client c).kbdstarted = true ∨ been c)
    (hwins : (w.client c).wins = [] → (f (w.client c)).wins = []) :
    Keeps m left been past w (w.put c f) := by
  refine frame (l := []) (fun hw => hw.lists.of_z rfl) rfl rfl (fun _ h => h) ?_ ?_
    (List.append_nil _).symm fun _ _ hx => absurd hx List.not_mem_nil
  · intro a ha
    by_cases hac : a = c
    · subst hac
      rw [put_self] at ha
      exact hstarted ha
    · rw [put_of_ne hac] at ha
      exact Or.inl ha
  · intro a ha
    by_cases hac : a = c
    · subst hac
      rw [put_self]
      exact hwins ha
    · rwa [put_of_ne hac]

/-- The controller is in the circle. -/
theorem event (hw : Circle m left been past w) (e : String) :
    ∀ x ∈ w.event e, x.Spoken (Here left been) past := by
  intro x hx
  rw [Wm.event.eq_def] at hx
  split at hx
  · rename_i ctlr hctlr
    split_ifs at hx
    · rw [List.mem_singleton.mp hx]
      exact .ctl (hw.controller ctlr hctlr)
    · cases hx
  · cases hx

theorem controlevent (e : String) : Keeps m left been past w (w.controlevent e) := by
  rw [controlevent_logged]
  exact logged fun hw => event hw e

/-! ## The keyboard -/

/-- What `setfocus` says to the old holder, the controller and the new holder. -/
theorem notices {new : Option Cid} (hw : Circle m left been past w)
    (hnew : ∀ c ∈ new, Here left been c) :
    ∀ x ∈ w.notices m new, x.Spoken (Here left been) past := by
  have hnews : ∀ s, ∀ x ∈ w.focusnews m s, x.Spoken (Here left been) past := by
    intro s x hx
    cases m with
    | tabswin => exact event hw _ x hx
    | rowwm | topwin => cases hx
  intro x hx
  rcases List.mem_append.mp hx with hx | hx
  · rw [farewell.eq_def] at hx
    split at hx
    · rename_i old hold
      rw [List.mem_singleton.mp hx]
      exact .ctl (hw.kbdfocus old hold)
    · cases hx
  · cases new with
    | some c =>
      rcases List.mem_append.mp hx with hx | hx
      · exact hnews _ x hx
      · have hc := hnew c rfl
        rcases List.mem_cons.mp hx with rfl | hx
        · exact .ctl hc
        · rw [List.mem_singleton.mp hx]
          exact .ctl hc
    | none => exact hnews "none" x hx

/-- The client that gets the keyboard has started it. -/
theorem setfocus {new : Option Cid}
    (hnew : Circle m left been past w → ∀ c ∈ new, c ∉ left) :
    Keeps m left been past w (w.setfocus m new) := by
  have hown : ∀ {l : List Send}, Own l → ∀ x ∈ l, x.Spoken (Here left been) past := by
    intro l hl x hx
    obtain ⟨s, rfl⟩ := hl x hx
    exact .wmctl
  obtain ⟨l, hl, ⟨heq, -⟩ | ⟨-, hfocusable, heq⟩⟩ := setfocus_logged m w new
  · rw [heq]
    exact logged fun _ => hown hl
  · rw [heq]
    intro hw
    have hhere : ∀ c ∈ new, Here left been c :=
      fun c hc => ⟨hw.started c (hfocusable c hc), hnew hw c hc⟩
    refine ⟨⟨hw.lists.of_z rfl, hhere, hw.ptrfocus, hw.controller, hw.started, hw.wins⟩,
      l ++ w.notices m new, rfl, ?_⟩
    intro x hx
    rcases List.mem_append.mp hx with hx | hx
    · exact hown hl x hx
    · exact notices hw hhere x hx

/-! ## Windows -/

theorem spoken_of_places {x : Send} (h : x.Places (Here left been) c)
    (hc : Here left been c ∧ past c) : x.Spoken (Here left been) past := by
  cases h with
  | reshape hz | rect hz => exact .ctl hz
  | image => exact .image hc.1 hc.2
  | @ptr p =>
    cases p with
    | none => exact .flush hc.1 hc.2
    | some p => exact .ptr hc.1
  | origin => exact .origin
  | wmctl => exact .wmctl
  | fakekbd => exact .fakekbd

/-- What is sent while windows are placed, whoever they are placed for, is for nobody in
particular. -/
theorem spoken_of_forall_places {x : Send}
    (h : ∀ c, x.Places (Here left been) c) : x.Spoken (Here left been) past := by
  have hother := h 1
  cases h 0 with
  | reshape hz | rect hz => exact .ctl hz
  | image => cases hother
  | ptr => cases hother
  | origin => exact .origin
  | wmctl => exact .wmctl
  | fakekbd => exact .fakekbd

/-- Windows are placed for a client that is past the reply. -/
theorem placing (hc : Here left been c ∧ past c)
    (h : Circle m left been past w → Placing (Here left been) c w w')
    (hlists : Lists left (fun c => m = .rowwm → been c) w →
      Lists left (fun c => m = .rowwm → been c) w')
    (hwins : ∀ a, a ≠ c → (w.client a).wins = [] → (w'.client a).wins = []) :
    Keeps m left been past w w' := by
  intro hw
  have hplaced := h hw
  obtain ⟨l, hout, hl⟩ := hplaced.sent
  refine ⟨⟨hlists hw.lists, ?_, ?_, ?_, ?_, ?_⟩, l, hout,
    fun x hx => spoken_of_places (hl x hx) hc⟩
  · rw [hplaced.kbdfocus]
    exact hw.kbdfocus
  · rw [hplaced.ptrfocus]
    exact hw.ptrfocus
  · rw [hplaced.controller]
    exact hw.controller
  · intro a ha
    rw [(hplaced.client a).kbdstarted] at ha
    exact hw.started a ha
  · intro a ha
    by_cases hac : a = c
    · exact hac ▸ hc.2
    · exact hw.wins a (mt (hwins a hac) ha)

/-- All windows are placed anew. -/
theorem replacing (h : Circle m left been past w → ∀ c, Placing (Here left been) c w w')
    (hlists : Lists left (fun c => m = .rowwm → been c) w →
      Lists left (fun c => m = .rowwm → been c) w')
    (hwins : ∀ a, (w.client a).wins = [] → (w'.client a).wins = []) :
    Keeps m left been past w w' := by
  intro hw
  have hplaced := h hw 0
  obtain ⟨l, hout, -⟩ := hplaced.sent
  refine ⟨⟨hlists hw.lists, ?_, ?_, ?_, ?_, fun a ha => hw.wins a (mt (hwins a) ha)⟩, l, hout, ?_⟩
  · rw [hplaced.kbdfocus]
    exact hw.kbdfocus
  · rw [hplaced.ptrfocus]
    exact hw.ptrfocus
  · rw [hplaced.controller]
    exact hw.controller
  · intro a ha
    rw [(hplaced.client a).kbdstarted] at ha
    exact hw.started a ha
  · intro x hx
    refine spoken_of_forall_places fun c => ?_
    obtain ⟨l', hout', hl'⟩ := (h hw c).sent
    obtain rfl := List.append_cancel_left (hout.symm.trans hout')
    exact hl' x hx

/-- A repack gives nobody a first window. -/
theorem replaceAll_windowless {σ : Type} {newr : Rect} {place : σ → Window → σ × Option Rect}
    (w : Wm) (s : σ) (cs : List Cid) (a : Cid) (h : (w.client a).wins = []) :
    ((replaceAll env newr place w s cs).1.client a).wins = [] := by
  refine replaceAll_wins (P := fun wins => wins = []) ?_ w s cs a h
  rintro c w s wins rfl
  rfl

theorem packWindows_windowless {newr : Rect} (a : Cid) (h : (w.client a).wins = []) :
    ((w.packWindows env newr).client a).wins = [] :=
  replaceAll_windowless _ _ _ a (client_packed w ▸ h)

theorem packWindows (newr : Rect) :
    Keeps .rowwm left been past w (w.packWindows env newr) := by
  refine replacing (fun hw c => .packWindows ?_) (fun h => h.packWindows newr)
    packWindows_windowless
  intro z hz
  obtain ⟨-, hleft, hbeen⟩ := hw.lists.packed.mem_order hz
  exact ⟨hbeen rfl, hleft⟩

theorem rescreened (newr : Rect) (hall : ∀ z ∈ w.order, been z) :
    Keeps m left been past w (w.rescreened m env newr) :=
  replacing (fun hw _ => .rescreened fun z hz => hw.here hz (hall z hz))
    (fun h => h.of_z (rescreened_z newr)) fun a h => replaceAll_windowless _ _ _ a h

/-- A window is reshaped. -/
theorem reshape (hc : Here left been c ∧ past c) (hbound : c < w.z.refs) (tag : String) (r : Rect) :
    Keeps m left been past w (Wm.reshape m env w c tag r).1 := by
  refine placing hc (fun hw => .reshape fun hm z hz => ?_)
    (fun h => h.reshape hbound hc.1.2 (fun _ => hc.1.1) tag r) ?_
  · -- whoever is told about a new place has come to the screen by now
    have hframe := (reshapeImage_frame env w c tag r).1
    have himage : Lists left (fun c => m = .rowwm → been c) (w.reshapeImage env c tag r).1 :=
      hw.lists.of_z hframe
    have hlisted :=
      (himage.enlist (hframe.symm ▸ hbound) hc.1.2 fun _ => hc.1.1).packed.mem_order hz
    exact ⟨hlisted.2.2 hm, hlisted.2.1⟩
  · intro a hac ha
    have himage : ((w.reshapeImage env c tag r).1.client a).wins = [] := by
      rwa [reshapeImage_others env w c tag r hac]
    rw [Wm.reshape]
    generalize w.reshapeImage env c tag r = res at himage ⊢
    obtain ⟨w₁, _ | e⟩ := res
    · cases m with
      | rowwm =>
        have henlist : ((w₁.enlist c).client a).wins = [] := by rwa [enlist_client]
        simp only
        split_ifs
        · exact packWindows_windowless a henlist
        · exact henlist
      | tabswin | topwin => exact himage
    · exact himage

/-! ## Requests -/

/-- What happens before a window is reshaped, on behalf of a client that is past the reply. -/
theorem still (hc : Here left been c ∧ past c) (h : Placing (Here left been) c w w')
    (hs : Still w w') : Keeps m left been past w w' :=
  placing hc (fun _ => h) (fun hl => hl.of_z hs.z) fun a _ ha => (hs.wins a).trans ha

end Keeps

/-- The client whom the controller `c` has a message passed on to. -/
def addressee (w : Wm) (c : Cid) (req : String) : Option Cid :=
  match unquoted req with
  | "ctl" :: id :: _ :: _ =>
    if (w.client c).controlstarted then w.order.find? fun z => ((w.client z).id : Int) = int id
    else none
  | _ => none

/-- The client asks for nothing too early. A window can be asked for at any time; it is too early
if it is made. -/
structure Decent (m : Manager) (env : Env) (left : List Cid) (been past : Cid → Prop) (w : Wm)
    (c : Cid) (req : String) (ptr : List Pointer) : Prop where
  bound : c < w.z.refs
  stays : c ∉ left
  start : unquoted req = ["start", "kbd"] → been c
  message : ∀ z ∈ w.addressee c req, been z
  place : ∀ call ∈ w.reshapeCall m env c req ptr, env.newwindow call.1.tick = true → past c

namespace Decent

theorem window_windowless (hwins : (w.client c).wins = []) (tag : String) :
    (w.client c).window tag = none := by
  rw [Client.window, hwins]
  rfl

/-- A client without windows moves and sizes none. -/
theorem moveArgs_windowless (hwins : (w.client c).wins = []) (ismove : Bool)
    (ptr : List Pointer) (args : List String) : w.moveArgs c ismove ptr args = none := by
  rw [moveArgs.eq_def]
  split
  · rw [window_windowless hwins]
  · rfl

theorem reshapeCall_windowless (hwins : (w.client c).wins = []) :
    w.reshapeCall m env c req ptr = w.reshapeCall m env c req [] := by
  simp only [reshapeCall, moveArgs_windowless hwins]

theorem reshapeArgs_windowless (hwins : (w.client c).wins = []) {call : Wm × String × Rect}
    (hcall : w.reshapeCall m env c req ptr = some call) :
    ∃ args, w.reshapeArgs m env args = some call := by
  simp only [reshapeCall, moveArgs_windowless hwins] at hcall
  split at hcall
  · cases hcall
  · split_ifs at hcall
    exact ⟨_, hcall⟩

/-- A client without windows that is refused one. -/
theorem keeps_refused {w₁ : Wm} {tag : String} {r : Rect} (hwins : (w.client c).wins = [])
    (hcall : w.reshapeCall m env c req ptr = some (w₁, tag, r))
    (hno : env.newwindow w₁.tick = false) :
    Keeps m left been past w (Wm.reshape m env w₁ c tag r).1 := by
  have hstill := Still.reshapeCall hcall
  obtain ⟨args, hargs⟩ := reshapeArgs_windowless hwins hcall
  have hcalled : Keeps m left been past w w₁ :=
    .replacing (fun _ _ => .reshapeArgs hargs) (fun hl => hl.of_z hstill.z)
      fun a ha => (hstill.wins a).trans ha
  have hmoves : ¬ w₁.Moves c tag r := by
    rintro ⟨-, win, hwin, -⟩
    rw [window_windowless ((hstill.wins c).trans hwins)] at hwin
    cases hwin
  have hrefused : (Wm.reshape m env w₁ c tag r).1 = { w₁ with tick := w₁.tick + 1 } := by
    simp only [Wm.reshape, reshapeImage, if_neg hmoves, newwindow, hno, Bool.false_eq_true,
      if_false]
  rw [hrefused]
  exact hcalled.trans (.silent rfl rfl rfl rfl (fun _ h => h) rfl)

/-- The effects of a request, if it is not dragging a window for a client that cannot have
one. -/
theorem keeps_of_handled (hd : Decent m env left been past w c req ptr)
    (hpast : ∀ a, past a → been a) (hdrag : ptr = [] ∨ past c) (hwins : (w.client c).wins ≠ [] → past c)
    (h : Handled m env w c req ptr w') : Keeps m left been past w w' := by
  cases h with
  | answered => exact .rfl'
  | key s => exact .send fun _ => .fakekbd
  | wmctl => exact .wmctl' req
  | cursor f hf =>
    have hput : Keeps m left been past w (w.put c f) :=
      .put (fun hk => Or.inl (hf.kbdstarted _ ▸ hk)) fun hwins => (hf.wins _).trans hwins
    exact hput.trans (.wmctl' req)
  | pointer p hfocus =>
    refine Keeps.trans (.wmctl' req) (Keeps.trans (.send fun hw => ?_) (.send fun hw => ?_))
    · have hc := hw.ptrfocus c hfocus
      exact .flush hc.1 hc.2
    · exact .ptr (hw.ptrfocus c hfocus).1
  | marked f hf =>
    exact .put (fun hk => Or.inl (hf.kbdstarted _ ▸ hk)) fun hwins => (hf.wins _).trans hwins
  | kbd hstart =>
    have hput : Keeps m left been past w (w.put c fun cl => { cl with kbdstarted := true }) :=
      .put (fun _ => Or.inr (hd.start hstart)) id
    refine hput.trans (.setfocus ?_)
    rintro - _ ⟨⟩
    -- the client that asks for the keyboard is told that it has it
    exact hd.stays
  | control hflag hreq => exact .put Or.inl id
  | reshape w₁ tag r hcall =>
    by_cases hrefused : (w.client c).wins = [] ∧ env.newwindow w₁.tick = false
    -- a client without windows that gets none keeps silent
    · exact keeps_refused hrefused.1 hcall hrefused.2
    -- otherwise its images are sent to it, so it has to take them
    · have hp : past c := by
        by_cases hnone : (w.client c).wins = []
        · exact hd.place _ hcall (Bool.not_eq_false _ ▸ fun hno => hrefused ⟨hnone, hno⟩)
        · exact hwins hnone
      have hc : Here left been c ∧ past c := ⟨⟨hpast c hp, hd.stays⟩, hp⟩
      have hstill := Still.reshapeCall hcall
      have hcalled : Keeps m left been past w w₁ := .still hc (.reshapeCall hcall) hstill
      exact hcalled.trans (.reshape hc (hstill.z ▸ hd.bound) tag r)
  | dragged win off w₁ e hdragged =>
    rcases hdrag with rfl | hc
    · -- without events nothing is dragged
      rw [drag] at hdragged
      split_ifs at hdragged
      · obtain ⟨rfl, -⟩ := hdragged
        exact .rfl'
      · cases hdragged
    · exact .still ⟨⟨hpast c hc, hd.stays⟩, hc⟩ (.drag hdragged) (.drag hdragged)
  | delete tag args hreq =>
    have hput : Keeps m left been past w (w.put c (·.dropwin tag)) := by
      refine .put (fun hk => Or.inl ((Client.Same.dropwin tag).kbdstarted ▸ hk)) fun hwins => ?_
      rw [Client.dropwin, hwins]
      exact hwins
    rw [deleteRequest]
    split_ifs
    · refine hput.trans (.setfocus ?_)
      rintro - _ ⟨⟩
    · exact hput
  | top hm =>
    refine .frame (l := []) (fun hw => ?_) rfl rfl (fun _ h => h) (fun _ h => Or.inl h)
      (fun _ h => h) (List.append_nil _).symm fun _ _ hx => absurd hx List.not_mem_nil
    exact hw.lists.top hd.bound hd.stays fun hrow => absurd hrow hm
  | bottom hm hlower =>
    refine .frame (l := []) (fun hw => ?_) rfl rfl (fun _ h => h) (fun _ h => Or.inl h)
      (fun _ h => h) (List.append_nil _).symm fun _ _ hx => absurd hx List.not_mem_nil
    exact hw.lists.lower hm hd.bound hd.stays
  | focus =>
    refine .setfocus ?_
    rintro - _ ⟨⟩
    exact hd.stays
  | unfocus hfocus =>
    refine .setfocus ?_
    rintro - _ ⟨⟩
  | message id msg msgs z hreq hstarted hfind =>
    have hz : w.addressee c req = some z := by
      rw [addressee, hreq]
      exact (if_pos hstarted).trans hfind
    exact .ctl fun hw => hw.here (List.mem_of_find?_eq_some hfind) (hd.message z hz)
  | endcontrol args hreq =>
    rw [endcontrolRequest]
    split_ifs
    · exact .rfl'
    · have hput : Keeps m left been past w
          (w.put c fun cl => { cl with controlstarted := false, controller := false }) :=
        .put Or.inl id
      refine hput.trans (.silent rfl rfl rfl rfl ?_ rfl)
      rintro _ ⟨⟩
  | forward ctlr hctlr hne hstarted => exact .ctl fun hw => hw.controller ctlr hctlr

/-- For a client without windows it makes no difference what the pointer does. -/
theorem handled_windowless (hwins : (w.client c).wins = []) {a : Answer}
    (h : w.handlerequest m env c req ptr = some (w', a)) : Handled m env w c req [] w' := by
  refine handled (e := a) ?_
  rw [← h, handlerequest, handlerequest]
  split
  · rfl
  · rename_i cmd args hreq
    split_ifs
    · rfl
    · rw [moveRequest.eq_def, moveRequest.eq_def]
      split
      · simp only [window_windowless hwins]
      · rfl
    · rfl

/-- The manager handles a request. -/
theorem keeps (hd : Decent m env left been past w c req ptr) (hpast : ∀ a, past a → been a)
    {a : Answer} (h : w.handlerequest m env c req ptr = some (w', a)) :
    Keeps m left been past w w' := by
  intro hw
  by_cases hwins : (w.client c).wins = []
  · have hd' : Decent m env left been past w c req [] :=
      ⟨hd.bound, hd.stays, hd.start, hd.message, reshapeCall_windowless hwins ▸ hd.place⟩
    exact hd'.keeps_of_handled hpast (Or.inl rfl) (hw.wins c) (handled_windowless hwins h) hw
  · exact hd.keeps_of_handled hpast (Or.inr (hw.wins c hwins)) (hw.wins c) (handled h) hw

end Decent

/-! ## Turns -/

/-- The first thing that is sent to a client that joins. -/
theorem out_onJoin (w : Wm) (c : Cid) :
    ∃ l, (w.onJoin c).out = w.out ++ Send.ctl c ("rect " ++ r2s w.screen) :: l := by
  simp only [Wm.onJoin]
  split_ifs
  · exact ⟨[], rfl⟩
  · rw [Wm.controlevent_logged]
    exact ⟨_, List.append_assoc ..⟩

namespace Circle

theorem start (screen : Rect) : Circle m left been past { screen := screen } where
  lists := ⟨[], ⟨⟨.nil, List.nodup_nil, fun _ h => absurd h List.not_mem_nil, fun _ _ _ => rfl⟩,
    fun _ h => absurd h List.not_mem_nil⟩, fun _ h => absurd h List.not_mem_nil⟩
  kbdfocus := by rintro c ⟨⟩
  ptrfocus := by rintro c ⟨⟩
  controller := by rintro c ⟨⟩
  started := by rintro c ⟨⟩
  wins := fun _ h => absurd rfl h

/-- More clients are accepted, or take the reply. -/
theorem mono (h : Circle m left been past w) {been' past' : Cid → Prop}
    (hbeen : ∀ c, been c → been' c) (hpast : ∀ c, past c → past' c) :
    Circle m left been' past' w where
  lists := h.lists.mono fun c hc hm => hbeen c (hc hm)
  kbdfocus c hc := ⟨hbeen c (h.kbdfocus c hc).1, (h.kbdfocus c hc).2⟩
  ptrfocus c hc :=
    ⟨⟨hbeen c (h.ptrfocus c hc).1.1, (h.ptrfocus c hc).1.2⟩, hpast c (h.ptrfocus c hc).2⟩
  controller c hc := ⟨hbeen c (h.controller c hc).1, (h.controller c hc).2⟩
  started c hc := hbeen c (h.started c hc)
  wins c hc := hpast c (h.wins c hc)

theorem addclient (h : Circle m left been past w) (id : Nat) :
    Circle m left been past (w.addclient id) := by
  refine ⟨h.lists.opened id, h.kbdfocus, h.ptrfocus, h.controller, ?_, ?_⟩
  · intro c hc
    by_cases hnew : c = w.z.refs
    · rw [hnew, addclient_self] at hc
      cases hc
    · exact h.started c (addclient_of_ne hnew id ▸ hc)
  · intro c hc
    by_cases hnew : c = w.z.refs
    · rw [hnew, addclient_self] at hc
      exact absurd rfl hc
    · exact h.wins c (addclient_of_ne hnew id ▸ hc)

/-- Whoever leaves is forgotten. -/
theorem forgetting (h : Circle m left been past w) (hc : c ∉ left) :
    Circle m (c :: left) been past (w.forgetting m c) := by
  have hforget : ∀ {x : Option Cid} {a : Cid}, a ∈ forget c x → a ∈ x ∧ a ≠ c := by
    intro x a ha
    rw [forget] at ha
    split_ifs at ha with hx
    · cases ha
    · exact ⟨ha, fun hac => hx (hac ▸ ha)⟩
  have hhere : ∀ {a : Cid}, Here left been a → a ≠ c → Here (c :: left) been a :=
    fun ha hac => ⟨ha.1, fun hm => (List.mem_cons.mp hm).elim hac ha.2⟩
  refine ⟨(h.lists.remove hc).of_z rfl, ?_, ?_, ?_, h.started, h.wins⟩
  · intro a ha
    obtain ⟨hold, hac⟩ := hforget ha
    exact hhere (h.kbdfocus a hold) hac
  · intro a ha
    obtain ⟨hold, hac⟩ := hforget ha
    exact ⟨hhere (h.ptrfocus a hold).1 hac, (h.ptrfocus a hold).2⟩
  · intro a ha
    obtain ⟨hold, hac⟩ := hforget ha
    exact hhere (h.controller a hold) hac

end Circle

namespace Keeps

/-- A client that has been accepted joins. -/
theorem onJoin (hc : Here left been c) : Keeps m left been past w (w.onJoin c) := by
  have hrect : Keeps m left been past w (w.ctl c ("rect " ++ r2s w.screen)) := .ctl fun _ => hc
  simp only [Wm.onJoin]
  refine hrect.trans (Keeps.trans ?_ (.put Or.inl id))
  split_ifs
  · have hput : Keeps m left been past (w.ctl c ("rect " ++ r2s w.screen))
        ((w.ctl c ("rect " ++ r2s w.screen)).put c fun cl => { cl with controller := true }) :=
      .put Or.inl id
    -- it becomes the controller
    refine hput.trans fun hw => ⟨⟨hw.lists, hw.kbdfocus, hw.ptrfocus, ?_, hw.started, hw.wins⟩,
      [], (List.append_nil _).symm, fun _ hx => absurd hx List.not_mem_nil⟩
    rintro _ ⟨⟩
    exact hc
  · exact .controlevent _

theorem onKey (k : Int) : Keeps m left been past w (w.onKey k) := by
  rw [Wm.onKey]
  split
  · rename_i c hc
    exact .send fun hw => .kbd (hw.kbdfocus c hc)
  · exact .rfl'

/-- The client under the pointer has a window. -/
theorem pointAt (hpast : ∀ a, past a → been a) (hc : c ∈ w.order)
    (hwins : (w.client c).wins ≠ []) (p : Pointer) :
    Keeps m left been past w (w.pointAt m c p) := by
  have hhere : ∀ {v : Wm}, v.order = w.order → v.client = w.client → Circle m left been past v →
      Here left been c ∧ past c := by
    intro v horder hclient hv
    have hp := hv.wins c (hclient ▸ hwins)
    exact ⟨hv.here (horder ▸ hc) (hpast c hp), hp⟩
  simp only [Wm.pointAt]
  split_ifs
  · have hfocus : ∀ {v : Wm}, v.order = w.order → v.client = w.client →
        Keeps m left been past v { v with ptrfocus := some c } := by
      intro v horder hclient hw
      refine ⟨⟨hw.lists, hw.kbdfocus, ?_, hw.controller, hw.started, hw.wins⟩,
        [], (List.append_nil _).symm, fun _ hx => absurd hx List.not_mem_nil⟩
      rintro _ ⟨⟩
      exact hhere horder hclient hw
    split
    · rename_i old hold
      split_ifs
      · exact Keeps.trans (.send fun hw => .ptr (hw.ptrfocus old hold).1) (hfocus rfl rfl)
      · exact hfocus rfl rfl
    · exact hfocus rfl rfl
  · exact .rfl'
  · have hraise : Keeps m left been past w (w.ctl c "raise") :=
      .ctl fun hw => (hhere rfl rfl hw).1
    refine hraise.trans (.setfocus fun hw => ?_)
    rintro _ ⟨⟩
    exact (hhere (v := w.ctl c "raise") rfl rfl hw).1.2
  · refine .setfocus fun hw => ?_
    rintro _ ⟨⟩
    exact (hhere rfl rfl hw).1.2

theorem onPointer (hpast : ∀ a, past a → been a) (p : Pointer) (taken : Bool) :
    Keeps m left been past w (w.onPointer m p taken) := by
  rw [onPointer_eq]
  split_ifs
  · exact .rfl'
  · have haimed : Keeps m left been past w (w.aimed m p) := by
      rw [aimed]
      split
      · rename_i c hfind
        refine pointAt hpast (List.mem_of_find?_eq_some hfind) ?_ p
        intro hwins
        have hcontains := List.find?_some hfind
        rw [Client.contains, hwins] at hcontains
        cases hcontains
      · exact .rfl'
    refine haimed.trans ?_
    rw [deliver]
    split
    · rename_i c hc
      split_ifs
      · have hbuttons : Keeps m left been past (w.aimed m p)
            { w.aimed m p with buttons := p.buttons } := .silent rfl rfl rfl rfl (fun _ h => h) rfl
        exact hbuttons.trans (.send fun hw => .ptr (hw.ptrfocus c hc).1)
      · exact .silent rfl rfl rfl rfl (fun _ h => h) rfl
    · exact .silent rfl rfl rfl rfl (fun _ h => h) rfl

theorem ctlAll (e : String) (cs : List Cid)
    (hcs : Circle m left been past w → ∀ c ∈ cs, Here left been c) :
    Keeps m left been past w (ctlAll e cs w) := by
  induction cs generalizing w with
  | nil => exact .rfl'
  | cons c cs ih =>
    intro hw
    have hall := hcs hw
    have hctl : Keeps m left been past w (w.ctl c e) := .ctl fun _ => hall c List.mem_cons_self
    have hrest : Keeps m left been past (w.ctl c e) (Wm.ctlAll e cs (w.ctl c e)) :=
      ih fun _ a ha => hall a (List.mem_cons_of_mem _ ha)
    exact hctl.trans hrest hw

theorem onWinctl (e : String) (img : Option Rect)
    (hall : e = "exit" ∨ img.isSome → ∀ z ∈ w.order, been z) :
    Keeps m left been past w (w.onWinctl m env e img) := by
  have htold : Keeps m left been past w (w.told e) := by
    rw [told]
    split_ifs with hexit
    · have hsaid : Keeps m left been past w (Wm.ctlAll "exit" w.order w) :=
        ctlAll "exit" w.order fun hw z hz => hw.here hz (hall (Or.inl hexit) z hz)
      exact hsaid.trans (.send fun _ => .wmctl)
    · exact .send fun _ => .wmctl
  cases img with
  | some newr =>
    have hrescreened : Keeps m left been past (w.told e) ((w.told e).rescreened m env newr) := by
      refine rescreened newr fun z hz => hall (Or.inr rfl) z ?_
      rwa [Wm.order, (Session.still_told w e).z] at hz
    refine (htold.trans hrescreened).trans ?_
    cases m with
    | rowwm => exact packWindows newr
    | tabswin | topwin => exact .rfl'
  | none => exact htold

end Keeps

/-- A client leaves: it is told to stop, and that is the last thing. -/
theorem Circle.onLeave (h : Circle m left been past w) (env : Env) (hc : c ∉ left) :
    Circle m (c :: left) been past (w.onLeave m env c) ∧
      ∃ l, (w.onLeave m env c).out = w.out ++ (l ++ [.stop c]) ∧
        ∀ x ∈ l, x.Spoken (Here (c :: left) been) past := by
  have hdeparting : Keeps m (c :: left) been past (w.forgetting m c) (w.departing m c) := by
    rw [Wm.departing]
    exact .controlevent _
  have hdeparted : Keeps m (c :: left) been past (w.forgetting m c) (w.departed m env c) := by
    cases m with
    | rowwm => exact hdeparting.trans (.packWindows _)
    | tabswin | topwin => exact hdeparting
  have helected : Keeps m (c :: left) been past (w.forgetting m c)
      ((w.departed m env c).setfocus m (w.departed m env c).elect) :=
    hdeparted.trans (.setfocus fun hw a ha => (hw.lists.mem_order (List.mem_of_find?_eq_some ha)).2.1)
  obtain ⟨hw, l, hl, hspoken⟩ := helected (h.forgetting hc)
  rw [onLeave_eq]
  refine ⟨⟨hw.lists.of_z rfl, hw.kbdfocus, hw.ptrfocus, hw.controller, hw.started, hw.wins⟩,
    l, ?_, hspoken⟩
  rw [← List.append_assoc]
  exact congrArg (· ++ [Send.stop c]) hl

end Wm

end Aimsgui
