import Aimsgui.Packing

/-!
# What placing windows leaves alone

Most of what a manager does for a request is to place windows: it asks for images, records
rectangles, brings clients forward and tells them about their places. `Placing` says what
such an action keeps (the flags of all clients, the focus, the controller) and what it may
send, so that the modules about focus, control and messages need not look at windows.
-/

namespace Aimsgui

/-- What is sent while windows are placed: the clients `who` are told where their windows
are, and the client `c` gets an image or the pointer. -/
inductive Send.Places (who : Cid → Prop) (c : Cid) : Send → Prop where
  | reshape {z tag r} : who z → Places who c (.ctl z (Wm.reshapeMsg tag r))
  | rect {z r} : who z → Places who c (.ctl z ("rect " ++ Wm.r2s r))
  | image {o i ok} : Places who c (.image c o i ok)
  | ptr {p} : Places who c (.ptr c p)
  | origin {tag org} : Places who c (.origin c tag org)
  | wmctl {s} : Places who c (.wmctl s)
  | fakekbd {s} : Places who c (.fakekbd s)

/-- Two records with the same id and the same flags. -/
structure Client.Same (cl cl' : Client) : Prop where
  id : cl'.id = cl.id
  kbdstarted : cl'.kbdstarted = cl.kbdstarted
  controlstarted : cl'.controlstarted = cl.controlstarted
  controller : cl'.controller = cl.controller

namespace Client.Same

variable {cl cl' cl'' : Client}

theorem rfl' : Same cl cl := ⟨rfl, rfl, rfl, rfl⟩

theorem trans (h : Same cl cl') (h' : Same cl' cl'') : Same cl cl'' :=
  ⟨h'.id.trans h.id, h'.kbdstarted.trans h.kbdstarted, h'.controlstarted.trans h.controlstarted,
    h'.controller.trans h.controller⟩

/-- A new image or another rectangle for a window leaves the flags alone. -/
theorem putimage (tag : String) (img : Image) : Same cl (cl.putimage tag img) := by
  rw [Client.putimage.eq_def]
  split
  · exact ⟨rfl, rfl, rfl, rfl⟩
  · exact ⟨rfl, rfl, rfl, rfl⟩

/-- So does deleting a window. -/
theorem dropwin (tag : String) : Same cl (cl.dropwin tag) := by
  rw [Client.dropwin.eq_def]
  split
  · split_ifs
    · exact ⟨rfl, rfl, rfl, rfl⟩
    · exact ⟨rfl, rfl, rfl, rfl⟩
  · exact rfl'

end Client.Same

namespace Wm

/-- The manager `w'` comes from `w` by placing windows. -/
structure Placing (who : Cid → Prop) (c : Cid) (w w' : Wm) : Prop where
  client : ∀ a, (w.client a).Same (w'.client a)
  refs : w'.z.refs = w.z.refs
  ptrfocus : w'.ptrfocus = w.ptrfocus
  kbdfocus : w'.kbdfocus = w.kbdfocus
  controller : w'.controller = w.controller
  allowcontrol : w'.allowcontrol = w.allowcontrol
  sent : ∃ l, w'.out = w.out ++ l ∧ ∀ x ∈ l, x.Places who c

variable {m : Manager} {env : Env} {w w' w'' : Wm} {c : Cid} {who : Cid → Prop} {req tag : String}
  {ptr : List Pointer} {args : List String} {r : Rect}

namespace Placing

theorem rfl' : Placing who c w w :=
  ⟨fun _ => .rfl', rfl, rfl, rfl, rfl, rfl, [], (List.append_nil _).symm,
    fun _ hx => absurd hx List.not_mem_nil⟩

/-- Windows are placed one after the other. -/
theorem trans (h : Placing who c w w') (h' : Placing who c w' w'') : Placing who c w w'' := by
  obtain ⟨l, hl, hsent⟩ := h.sent
  obtain ⟨l', hl', hsent'⟩ := h'.sent
  refine ⟨fun a => (h.client a).trans (h'.client a), h'.refs.trans h.refs,
    h'.ptrfocus.trans h.ptrfocus, h'.kbdfocus.trans h.kbdfocus,
    h'.controller.trans h.controller, h'.allowcontrol.trans h.allowcontrol, l ++ l', ?_, ?_⟩
  · rw [hl', hl, List.append_assoc]
  · intro x hx
    rcases List.mem_append.mp hx with hx | hx
    · exact hsent x hx
    · exact hsent' x hx

theorem send {s : Send} (h : s.Places who c) : Placing who c w (w.send s) := by
  refine ⟨fun _ => .rfl', rfl, rfl, rfl, rfl, rfl, [s], rfl, ?_⟩
  intro x hx
  exact List.mem_singleton.mp hx ▸ h

/-- A change of one client that leaves its id and its flags alone. -/
theorem put (a : Cid) {f : Client → Client} (hf : ∀ cl : Client, cl.Same (f cl)) :
    Placing who c w (w.put a f) := by
  refine ⟨?_, rfl, rfl, rfl, rfl, rfl, [], (List.append_nil _).symm,
    fun _ hx => absurd hx List.not_mem_nil⟩
  intro b
  by_cases hb : b = a
  · subst hb
    rw [put_self]
    exact hf _
  · rw [put_of_ne hb]
    exact .rfl'

/-- The other variables of the manager do not count. -/
theorem frame (h : Placing who c w w') (hclient : w''.client = w'.client)
    (hrefs : w''.z.refs = w'.z.refs) (hptr : w''.ptrfocus = w'.ptrfocus)
    (hkbd : w''.kbdfocus = w'.kbdfocus) (hctlr : w''.controller = w'.controller)
    (hallow : w''.allowcontrol = w'.allowcontrol) (hout : w''.out = w'.out) :
    Placing who c w w'' :=
  ⟨fun a => hclient ▸ h.client a, hrefs.trans h.refs, hptr.trans h.ptrfocus,
    hkbd.trans h.kbdfocus, hctlr.trans h.controller, hallow.trans h.allowcontrol, hout ▸ h.sent⟩

theorem wmctl' (s : String) : Placing who c w (w.wmctl' env s).1 :=
  (send .wmctl).frame rfl rfl rfl rfl rfl rfl rfl

/-! ## The z-order -/

/-- The links of the z-order change, never the number of clients. -/
theorem refs_xtop (q : Zorder) (a : Cid) : (Xwmsrv.top q a).refs = q.refs := by
  rw [Xwmsrv.top, Wmsrv.top]
  split_ifs <;> rfl

theorem refs_sink (q : Zorder) (a : Cid) : (Wmsrv.sink q a).refs = q.refs := by
  simp only [Wmsrv.sink]
  split <;> rfl

theorem refs_remove (q : Zorder) (a : Cid) : (Wmsrv.remove q a).refs = q.refs := by
  rw [Wmsrv.remove]
  split <;> rfl

/-- A client is brought to the front; that sends nothing. -/
theorem top (a : Cid) : Placing who c w (w.top m a) := by
  refine rfl'.frame rfl ?_ rfl rfl rfl rfl rfl
  cases m with
  | rowwm => exact refs_xtop _ _
  | tabswin | topwin =>
    simp only [Wm.top, Wmsrv.top]
    split_ifs <;> rfl

/-- A client goes to the back, in whichever of the two ways. -/
theorem bottom (a : Cid) : Placing who c w (w.bottom m a) := by
  refine rfl'.frame rfl ?_ rfl rfl rfl rfl rfl
  cases m with
  | rowwm =>
    simp only [Wm.bottom, Xwmsrv.bottom]
    split_ifs
    · rfl
    · exact refs_sink _ _
  | tabswin | topwin =>
    simp only [Wm.bottom, Wmsrv.bottom]
    split_ifs
    · rfl
    · exact refs_sink _ _

/-- A client is taken off the screen. -/
theorem remove (a : Cid) : Placing who c w (w.remove m a) := by
  refine rfl'.frame rfl ?_ rfl rfl rfl rfl rfl
  cases m with
  | rowwm => exact refs_remove _ _
  | tabswin | topwin => exact refs_remove _ _

/-- A client that is not on the screen comes last in the z-order. -/
theorem enlist (a : Cid) : Placing who c w (w.enlist a) := by
  rw [Wm.enlist]
  split_ifs
  · exact rfl'
  · exact bottom a

/-! ## Placing windows anew -/

/-- The inner loop of `pack_windows` and of `reshape_floating` tells only the client whose windows
it is at. -/
theorem replaceWins {σ : Type} {newr : Rect} {place : σ → Window → σ × Option Rect} {z : Cid}
    (hz : who z) (w : Wm) (s : σ) (wins : List Window) :
    Placing who c w (Wm.replaceWins env newr place z w s wins).1 := by
  induction wins generalizing w s with
  | nil => exact rfl'
  | cons win wins ih =>
    rw [Wm.replaceWins]
    split
    · exact ih _ _
    · refine Placing.trans ?_ (ih _ _)
      refine Placing.trans ?_ (send (.rect hz))
      refine Placing.trans ?_ (send (.reshape hz))
      exact rfl'.frame rfl rfl rfl rfl rfl rfl rfl

/-- The outer loop tells the clients on its list. -/
theorem replaceAll {σ : Type} {newr : Rect} {place : σ → Window → σ × Option Rect} {cs : List Cid}
    (hcs : ∀ z ∈ cs, who z) (w : Wm) (s : σ) :
    Placing who c w (Wm.replaceAll env newr place w s cs).1 := by
  induction cs generalizing w s with
  | nil => exact rfl'
  | cons z cs ih =>
    have hrest := ih fun z hz => hcs z (List.mem_cons_of_mem _ hz)
    have hz := hcs z List.mem_cons_self
    refine Placing.trans ?_ (hrest _ _)
    refine (replaceWins hz w s (w.client z).wins).trans (Placing.put z ?_)
    exact fun _ => ⟨rfl, rfl, rfl, rfl⟩

/-- The header and the footer are moved to the ends of the z-order without a message. -/
theorem packed (w : Wm) : Placing who c w w.packHeader.packFooter := by
  have hheader : Placing who c w w.packHeader := by
    rw [packHeader]
    split
    · exact top _
    · exact rfl'
  rw [packFooter]
  split
  · exact hheader.trans (bottom _)
  · exact hheader

/-- `pack_windows` tells the clients that are on the screen when it stacks their windows. -/
theorem packWindows {newr : Rect} (hwho : ∀ z ∈ w.packHeader.packFooter.order, who z) :
    Placing who c w (w.packWindows env newr) :=
  (packed w).trans (replaceAll hwho _ _)

/-- All windows are given new places after the screen has changed; who is on the screen is told. -/
theorem rescreened {newr : Rect} (hwho : ∀ z ∈ w.order, who z) :
    Placing who c w (w.rescreened m env newr) := by
  rw [Wm.rescreened, reshapeFloating]
  refine Placing.trans ?_ (replaceAll ?_ _ _)
  · exact rfl'.frame rfl rfl rfl rfl rfl rfl rfl
  · exact hwho

/-! ## Reshaping a window -/

/-- An image, or a refusal, is sent to the client that has asked. -/
theorem images (o : Option Point) (i : Image) : Placing who c w (Wm.images env w c o i).1 :=
  (send .image).frame rfl rfl rfl rfl rfl rfl rfl

/-- A window of the same size is moved, and its client is sent the origin. -/
theorem setorigin (tag : String) (o : Point) : Placing who c w (w.setorigin env c tag o).1 := by
  rw [Wm.setorigin]
  split
  · exact rfl'
  · rename_i img _
    have himages : Placing who c w (Wm.images env w c (some o) img).1 := images _ _
    split
    · rename_i heq
      rw [heq] at himages
      dsimp only at himages ⊢
      refine himages.trans (Placing.put c ?_)
      exact fun _ => ⟨rfl, rfl, rfl, rfl⟩
    · rename_i heq
      rwa [heq] at himages

/-- The first half of `reshape`: the client is sent an origin or an image, and nothing else. -/
theorem reshapeImage (tag : String) (r : Rect) :
    Placing who c w (w.reshapeImage env c tag r).1 := by
  rw [Wm.reshapeImage]
  split_ifs
  · exact setorigin _ _
  · rw [newwindow]
    split
    · rename_i heq
      obtain rfl := congrArg Prod.fst heq
      exact rfl'.frame rfl rfl rfl rfl rfl rfl rfl
    · rename_i w₁ img heq
      have htick : Placing who c w w₁ := by
        obtain rfl := congrArg Prod.fst heq
        exact rfl'.frame rfl rfl rfl rfl rfl rfl rfl
      have hset : Placing who c w (w₁.setimage env c tag img).1 := by
        rw [setimage]
        refine (htick.trans (Placing.put c ?_)).trans (images _ _)
        exact fun _ => .putimage _ _
      split
      all_goals
        rename_i heq'
        rwa [heq'] at hset

/-- A reshape tells the clients that are on the screen when it packs. -/
theorem reshape (hwho : m = .rowwm →
    ∀ z ∈ ((w.reshapeImage env c tag r).1.enlist c).packHeader.packFooter.order, who z) :
    Placing who c w (Wm.reshape m env w c tag r).1 := by
  have himage : Placing who c w (w.reshapeImage env c tag r).1 := reshapeImage tag r
  rw [Wm.reshape]
  split
  · rename_i heq
    rwa [heq] at himage
  · rename_i w₁ heq
    rw [heq] at himage hwho
    dsimp only at himage
    split
    · simp only
      split_ifs
      · exact (himage.trans (enlist c)).trans (packWindows (hwho rfl))
      · exact himage.trans (enlist c)
    · exact himage.trans (top c)

/-! ## Before a reshape -/

/-- A drag reads the pointer and moves the image, until the buttons are released. -/
theorem follow {win : Window} {off : Point} {p : Pointer}
    (h : Wm.follow c win off w ptr = some (w', p)) : Placing who c w w' := by
  induction ptr generalizing w with
  | nil => cases h
  | cons q ptr ih =>
    rw [Wm.follow] at h
    split_ifs at h
    · obtain ⟨rfl, rfl⟩ := h
      exact send .origin
    · exact (send .origin).trans (ih h)

/-- `dragwin` as a whole, whether it moves the window or not. -/
theorem drag {win : Window} {off : Point} {e : Except String Rect}
    (h : w.drag c win off ptr = some (w', e)) : Placing who c w w' := by
  rw [Wm.drag] at h
  split_ifs at h
  · obtain ⟨rfl, rfl⟩ := h
    exact rfl'
  · split at h
    · cases h
    · rename_i w₁ p hfollow
      obtain ⟨rfl, rfl⟩ := h
      exact ((follow hfollow).trans (send .ptr)).frame rfl rfl rfl rfl rfl rfl rfl

/-- Where a new window comes: the words may name a place, or `winplace` is asked. -/
theorem placement {r' : Rect} (h : w.placement m env r args = some (w', r')) :
    Placing who c w w' := by
  rw [Wm.placement.eq_def] at h
  split at h
  · obtain ⟨rfl, rfl⟩ := h
    exact rfl'
  · split_ifs at h
    · obtain ⟨rfl, rfl⟩ := h
      exact rfl'
    · split at h
      all_goals
        obtain ⟨rfl, rfl⟩ := h
        exact rfl'.frame rfl rfl rfl rfl rfl rfl rfl
    all_goals
      obtain ⟨rfl, rfl⟩ := h
      exact rfl'

/-- The arguments of `!reshape` are read, `lastrect` at most is new. -/
theorem reshapeArgs (h : w.reshapeArgs m env args = some (w', tag, r)) :
    Placing who c w w' := by
  rw [Wm.reshapeArgs.eq_def] at h
  split at h
  · obtain ⟨⟨w₁, r₁⟩, hplace, heq⟩ := Option.map_eq_some_iff.mp h
    obtain ⟨rfl, -⟩ := heq
    exact placement hplace
  · cases h

/-- So are those of `!move` and `!size`, for which the pointer is followed. -/
theorem moveArgs {ismove : Bool} (h : w.moveArgs c ismove ptr args = some (w', tag, r)) :
    Placing who c w w' := by
  rw [Wm.moveArgs.eq_def] at h
  split at h
  · split at h
    · cases h
    · split_ifs at h
      · split at h
        · rename_i hdrag
          obtain ⟨rfl, -⟩ := h
          exact drag hdrag
        · cases h
      · obtain ⟨r₁, -, heq⟩ := Option.map_eq_some_iff.mp h
        obtain ⟨rfl, -⟩ := heq
        exact rfl'
  · cases h

/-- What happens before `reshape` is called. -/
theorem reshapeCall (h : w.reshapeCall m env c req ptr = some (w', tag, r)) :
    Placing who c w w' := by
  rw [Wm.reshapeCall.eq_def] at h
  split at h
  · cases h
  · split_ifs at h
    · exact moveArgs h
    · exact reshapeArgs h

end Placing

end Wm

end Aimsgui
