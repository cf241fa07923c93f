import Aimsgui.Notices
import Aimsgui.BottomPointer

/-!
# Who is on the screen

A client is put on the screen by its own request, and taken off when it leaves. `Lists` says
that the z-order is well formed, that nobody on it has left, and that whoever is on it has
the property `who`; each operation of a manager keeps it, if a client that may come to the
screen by it (`Entering`) has the property too.
-/

namespace Aimsgui

open Zorder

namespace Wm

/-- The request may put its client on the screen. -/
def Entering (m : Manager) (env : Env) (w : Wm) (c : Cid) (req : String) (ptr : List Pointer) :
    Prop :=
  m ≠ .rowwm ∧ (unquoted req).head? = some "raise" ∨ (w.reshapeCall m env c req ptr).isSome

instance (m : Manager) (env : Env) (w : Wm) (c : Cid) (req : String) (ptr : List Pointer) :
    Decidable (Entering m env w c req ptr) := inferInstanceAs (Decidable (_ ∨ _))

/-- The z-order is well formed, and lists only clients `who` that have not left. -/
def Lists (left : List Cid) (who : Cid → Prop) (w : Wm) : Prop :=
  ∃ l, Standing w.z left l ∧ ∀ a ∈ l, who a

variable {m : Manager} {env : Env} {w w' : Wm} {c : Cid} {left : List Cid} {who : Cid → Prop}
  {req tag : String} {ptr : List Pointer} {r : Rect}

namespace Lists

theorem mono (h : Lists left who w) {who' : Cid → Prop} (hle : ∀ c, who c → who' c) :
    Lists left who' w := by
  obtain ⟨l, hl, hall⟩ := h
  exact ⟨l, hl, fun a ha => hle a (hall a ha)⟩

/-- Whoever is on the screen has not left, and is one of the clients there are. -/
theorem strengthen (h : Lists left who w) {who' : Cid → Prop}
    (hwho : ∀ c < w.z.refs, c ∉ left → who c → who' c) : Lists left who' w := by
  obtain ⟨l, hl, hall⟩ := h
  exact ⟨l, hl, fun a ha => hwho a (hl.listed.bound a ha) (hl.present a ha) (hall a ha)⟩

theorem of_z (h : Lists left who w) (hz : w'.z = w.z) : Lists left who w' := by
  rw [Lists, hz]
  exact h

theorem mem_order (h : Lists left who w) (hc : c ∈ w.order) : c < w.z.refs ∧ c ∉ left ∧ who c := by
  obtain ⟨l, hl, hwho⟩ := h
  have hm : c ∈ l := hl.listed.order_eq ▸ hc
  exact ⟨hl.listed.bound c hm, hl.present c hm, hwho c hm⟩

/-- The client `c` comes first or last. -/
theorem mem_cons_erase {l : List Cid} (hl : ∀ a ∈ l, who a) (hc : who c) :
    (∀ a ∈ c :: l.erase c, who a) ∧ ∀ a ∈ l.erase c ++ [c], who a := by
  have herase : ∀ a ∈ l.erase c, who a := fun a ha => hl a (List.mem_of_mem_erase ha)
  refine ⟨?_, ?_⟩
  · intro a ha
    rcases List.mem_cons.mp ha with rfl | ha
    · exact hc
    · exact herase a ha
  · intro a ha
    rcases List.mem_append.mp ha with ha | ha
    · exact herase a ha
    · exact List.mem_singleton.mp ha ▸ hc

theorem top (h : Lists left who w) (hc : c < w.z.refs) (hleft : c ∉ left) (hwho : who c) :
    Lists left who (w.top m c) := by
  obtain ⟨l, hl, hall⟩ := h
  refine ⟨c :: l.erase c, ?_, (mem_cons_erase hall hwho).1⟩
  cases m with
  | rowwm => exact hl.xtop hc hleft
  | tabswin | topwin => exact hl.top hc hleft

theorem bottom (h : Lists left who w) (hc : c < w.z.refs) (hleft : c ∉ left) (hwho : who c) :
    Lists left who (w.bottom m c) := by
  obtain ⟨l, hl, hall⟩ := h
  cases m with
  | rowwm =>
    refine ⟨_, hl.xsink hc hleft, ?_⟩
    split_ifs
    · exact hall
    · exact (mem_cons_erase hall hwho).2
  | tabswin | topwin =>
    by_cases hlast : w.z.znext c = none
    · refine ⟨l, ?_, hall⟩
      have hz : Zorder.Standing (Wmsrv.bottom w.z c) left l := by rwa [Wmsrv.bottom, if_pos hlast]
      exact hz
    · refine ⟨l.erase c ++ [c], ?_, (mem_cons_erase hall hwho).2⟩
      have hz : Zorder.Standing (Wmsrv.bottom w.z c) left (l.erase c ++ [c]) := by
        rw [Wmsrv.bottom, if_neg hlast]
        exact hl.sink hc hleft
      exact hz

/-- Whoever is not on the screen does not come there by being lowered. -/
theorem lower (h : Lists left who w) (hm : m ≠ .rowwm) (hc : c < w.z.refs) (hleft : c ∉ left) :
    Lists left who (w.bottom m c) := by
  obtain ⟨l, hl, hall⟩ := h
  by_cases hin : c ∈ l
  · exact bottom ⟨l, hl, hall⟩ hc hleft (hall c hin)
  · have hlast : w.z.znext c = none := hl.listed.loose c hin hleft
    refine of_z ⟨l, hl, hall⟩ ?_
    cases m with
    | rowwm => exact absurd rfl hm
    | tabswin | topwin => exact if_pos hlast

theorem remove (h : Lists left who w) (hleft : c ∉ left) :
    Lists (c :: left) who (w.remove m c) := by
  obtain ⟨l, hl, hall⟩ := h
  refine ⟨l.erase c, ?_, fun a ha => hall a (List.mem_of_mem_erase ha)⟩
  cases m with
  | rowwm => exact hl.xremove hleft
  | tabswin | topwin => exact hl.remove hleft

theorem enlist (h : Lists left who w) (hc : c < w.z.refs) (hleft : c ∉ left) (hwho : who c) :
    Lists left who (w.enlist c) := by
  rw [Wm.enlist]
  split_ifs
  · exact h
  · exact h.bottom hc hleft hwho

theorem opened (h : Lists left who w) (id : Nat) : Lists left who (w.addclient id) := by
  obtain ⟨l, hl, hall⟩ := h
  exact ⟨l, hl.opened, hall⟩

/-- `pack_windows` moves clients that are on the screen. -/
theorem packed (h : Lists left who w) : Lists left who w.packHeader.packFooter := by
  have hheader : Lists left who w.packHeader := by
    rw [packHeader]
    split
    · rename_i hc
      obtain ⟨hbound, hleft, hwho⟩ := h.mem_order (mem_of_typed hc)
      exact h.top hbound hleft hwho
    · exact h
  rw [packFooter]
  split
  · rename_i hc
    obtain ⟨hbound, hleft, hwho⟩ := hheader.mem_order (mem_of_typed hc)
    exact hheader.bottom hbound hleft hwho
  · exact hheader

theorem packWindows (h : Lists left who w) (newr : Rect) :
    Lists left who (w.packWindows env newr) :=
  h.packed.of_z (replaceAll_z _ _ _)

/-- A reshape puts the client on the screen. -/
theorem reshape (h : Lists left who w) (hc : c < w.z.refs) (hleft : c ∉ left) (hwho : who c)
    (tag : String) (r : Rect) : Lists left who (Wm.reshape m env w c tag r).1 := by
  have hframe := (reshapeImage_frame env w c tag r).1
  have himage := h.of_z hframe
  rw [Wm.reshape]
  generalize w.reshapeImage env c tag r = res at hframe himage ⊢
  obtain ⟨w₁, _ | e⟩ := res
  · have hc₁ : c < w₁.z.refs := hframe.symm ▸ hc
    cases m with
    | rowwm =>
      have henlist := himage.enlist hc₁ hleft hwho
      simp only
      split_ifs
      · exact henlist.packWindows _
      · exact henlist
    | tabswin =>
      have htop : Lists left who (w₁.top .tabswin c) := himage.top hc₁ hleft hwho
      exact htop
    | topwin =>
      have htop : Lists left who (w₁.top .topwin c) := himage.top hc₁ hleft hwho
      exact htop
  · exact himage

theorem setfocus (h : Lists left who w) (new : Option Cid) : Lists left who (w.setfocus m new) :=
  h.of_z (Still.setfocus new).z

/-- A request puts nobody on the screen but the client it is from. -/
theorem handled (h : Lists left who w) (hc : c < w.z.refs) (hleft : c ∉ left)
    (hwho : Entering m env w c req ptr → who c) (hreq : Handled m env w c req ptr w') :
    Lists left who w' := by
  cases hreq with
  | reshape w₁ tag r hcall =>
    have hz := (Still.reshapeCall hcall).z
    have henters : Entering m env w c req ptr := Or.inr (hcall ▸ rfl)
    exact (h.of_z hz).reshape (hz.symm ▸ hc) hleft (hwho henters) tag r
  | dragged win off w₁ e hdrag => exact h.of_z (Still.drag hdrag).z
  | top hm hraise => exact h.top hc hleft (hwho (Or.inl ⟨hm, hraise⟩))
  | bottom hm => exact h.lower hm hc hleft
  | delete tag args =>
    rw [deleteRequest]
    split_ifs
    · refine Lists.setfocus ?_ none
      exact h.of_z rfl
    · exact h.of_z rfl
  | endcontrol args =>
    rw [endcontrolRequest]
    split_ifs
    · exact h
    · exact h.of_z rfl
  | kbd =>
    refine Lists.setfocus ?_ _
    exact h.of_z rfl
  | focus => exact h.setfocus _
  | unfocus => exact h.setfocus _
  | answered | key | wmctl | cursor | pointer | marked | control | message | forward =>
    exact h.of_z rfl

/-- A departure takes the client off the screen. -/
theorem departing (h : Lists left who w) (hleft : c ∉ left) :
    Lists (c :: left) who (w.departing m c) := by
  have hforgetting : Lists (c :: left) who (w.forgetting m c) := (h.remove hleft).of_z rfl
  rw [Wm.departing]
  exact hforgetting.of_z (Still.controlevent _).z

theorem onLeave (h : Lists left who w) (hleft : c ∉ left) :
    Lists (c :: left) who (w.onLeave m env c) := by
  have hdeparting : Lists (c :: left) who (w.departing m c) := h.departing hleft
  rw [Wm.onLeave_eq]
  refine Lists.of_z (w := Wm.setfocus m _ _) ?_ rfl
  refine Lists.setfocus ?_ _
  cases m with
  | rowwm => exact hdeparting.packWindows _
  | tabswin | topwin => exact hdeparting

/-- A new image of the manager's own window moves nobody. -/
theorem onWinctl (h : Lists left who w) (e : String) (img : Option Rect) :
    Lists left who (w.onWinctl m env e img) := by
  have htold : Lists left who (w.told e) := h.of_z (Session.still_told w e).z
  cases img with
  | some newr =>
    have hscreen : Lists left who ((w.told e).rescreened m env newr) :=
      htold.of_z (rescreened_z newr)
    cases m with
    | rowwm => exact hscreen.packWindows newr
    | tabswin | topwin => exact hscreen
  | none => exact htold

end Lists

end Wm

namespace Session

open Wm

variable {m : Manager} {env : Env} {s s' : Session} {e : Event} {who : Cid → Prop}

/-- A turn puts nobody on the screen but the client whose request it handles. -/
theorem step_lists (h : Lists s.left who s.wm)
    (hwho : ∀ c data ptr, e = .request c data ptr → Entering m env s.wm c data ptr → who c)
    (hstep : s.step m env e = some s') : Lists s'.left who s'.wm := by
  cases e with
  | opened id =>
    obtain rfl := Option.some.inj hstep
    exact h.opened id
  | join c =>
    simp only [step] at hstep
    split_ifs at hstep
    obtain rfl := Option.some.inj hstep
    exact h.of_z (still_onJoin s.wm c).z
  | leave c =>
    simp only [step] at hstep
    split_ifs at hstep with hc
    obtain rfl := Option.some.inj hstep
    exact h.onLeave hc.2
  | request c data ptr =>
    simp only [step] at hstep
    split_ifs at hstep with hc
    obtain ⟨⟨w, a⟩, hreq, rfl⟩ := Option.map_eq_some_iff.mp hstep
    exact h.handled hc.1 hc.2 (hwho c data ptr rfl) (Wm.handled hreq)
  | key k =>
    obtain rfl := Option.some.inj hstep
    exact h.of_z (still_onKey s.wm k).z
  | pointer p taken =>
    obtain rfl := Option.some.inj hstep
    exact h.of_z (still_onPointer s.wm p taken).z
  | winctl e img =>
    obtain rfl := Option.some.inj hstep
    exact h.onWinctl e img

/-- A request makes no records. -/
theorem handled_refs {w w' : Wm} {c : Cid} {req : String} {ptr : List Pointer}
    (h : Handled m env w c req ptr w') : w'.z.refs = w.z.refs := by
  cases h with
  | reshape w₁ tag r hcall =>
    have hplaced : Placing (fun _ => True) c w₁ (Wm.reshape m env w₁ c tag r).1 :=
      .reshape fun _ _ _ => trivial
    exact hplaced.refs.trans (congrArg Zorder.refs (Still.reshapeCall hcall).z)
  | dragged win off w₁ e hdrag => exact congrArg Zorder.refs (Still.drag hdrag).z
  | top =>
    have hplaced : Placing (fun _ => True) c w (w.top m c) := .top c
    exact hplaced.refs
  | bottom =>
    have hplaced : Placing (fun _ => True) c w (w.bottom m c) := .bottom c
    exact hplaced.refs
  | delete tag args =>
    rw [deleteRequest]
    split_ifs
    · exact congrArg Zorder.refs (setfocus_frame _ _ _).2.1
    · rfl
  | endcontrol args =>
    rw [endcontrolRequest]
    split_ifs <;> rfl
  | kbd => exact congrArg Zorder.refs (setfocus_frame _ _ _).2.1
  | focus => exact congrArg Zorder.refs (setfocus_frame _ _ _).2.1
  | unfocus => exact congrArg Zorder.refs (setfocus_frame _ _ _).2.1
  | answered | key | wmctl | cursor | pointer | marked | control | message | forward => rfl

theorem onLeave_refs (w : Wm) (c : Cid) : (w.onLeave m env c).z.refs = w.z.refs := by
  have hremove : Placing (fun _ => True) c w (w.remove m c) := .remove c
  have hdeparting : (w.departing m c).z.refs = w.z.refs := by
    rw [Wm.departing]
    exact (congrArg Zorder.refs (Still.controlevent _).z).trans hremove.refs
  refine (congrArg Zorder.refs (setfocus_frame m _ _).2.1).trans ?_
  cases m with
  | rowwm =>
    have hpacked : Placing (fun _ => True) c (w.departing .rowwm c)
        ((w.departing .rowwm c).packWindows env (w.departing .rowwm c).screen) :=
      .packWindows fun _ _ => trivial
    exact hpacked.refs.trans hdeparting
  | tabswin | topwin => exact hdeparting

theorem onWinctl_refs (w : Wm) (e : String) (img : Option Rect) :
    (w.onWinctl m env e img).z.refs = w.z.refs := by
  have htold : (w.told e).z.refs = w.z.refs := congrArg Zorder.refs (still_told w e).z
  cases img with
  | some newr =>
    have hscreen : ((w.told e).rescreened m env newr).z.refs = w.z.refs :=
      (congrArg Zorder.refs (rescreened_z newr)).trans htold
    cases m with
    | rowwm =>
      have hpacked : Placing (fun _ => True) 0 ((w.told e).rescreened .rowwm env newr)
          (((w.told e).rescreened .rowwm env newr).packWindows env newr) :=
        .packWindows fun _ _ => trivial
      have heq : w.onWinctl .rowwm env e (some newr) =
          ((w.told e).rescreened .rowwm env newr).packWindows env newr := rfl
      rw [heq]
      exact hpacked.refs.trans hscreen
    | tabswin | topwin => exact hscreen
  | none => exact htold

/-- Who has joined has joined for good. -/
theorem step_joined (h : s.step m env e = some s') :
    s'.joined = s.joined ∨ ∃ c, e = .join c ∧ s.Live c ∧ s'.joined = c :: s.joined := by
  cases e with
  | join c =>
    simp only [step] at h
    split_ifs at h with hc
    obtain rfl := Option.some.inj h
    exact Or.inr ⟨c, rfl, hc.1, rfl⟩
  | leave c =>
    simp only [step] at h
    split_ifs at h
    obtain rfl := Option.some.inj h
    exact Or.inl rfl
  | request c data ptr =>
    simp only [step] at h
    split_ifs at h
    obtain ⟨-, -, rfl⟩ := Option.map_eq_some_iff.mp h
    exact Or.inl rfl
  | opened | key | pointer | winctl =>
    obtain rfl := Option.some.inj h
    exact Or.inl rfl

/-- Records are made, and never destroyed. -/
theorem step_refs (h : s.step m env e = some s') : s.wm.z.refs ≤ s'.wm.z.refs := by
  cases e with
  | opened id =>
    obtain rfl := Option.some.inj h
    exact Nat.le_succ _
  | join c =>
    simp only [step] at h
    split_ifs at h
    obtain rfl := Option.some.inj h
    exact (congrArg Zorder.refs (still_onJoin s.wm c).z).ge
  | leave c =>
    simp only [step] at h
    split_ifs at h
    obtain rfl := Option.some.inj h
    exact (onLeave_refs s.wm c).ge
  | request c data ptr =>
    simp only [step] at h
    split_ifs at h
    obtain ⟨⟨w, a⟩, hreq, rfl⟩ := Option.map_eq_some_iff.mp h
    exact (handled_refs (handled hreq)).ge
  | key k =>
    obtain rfl := Option.some.inj h
    exact (congrArg Zorder.refs (still_onKey s.wm k).z).ge
  | pointer p taken =>
    obtain rfl := Option.some.inj h
    exact (congrArg Zorder.refs (still_onPointer s.wm p taken).z).ge
  | winctl e img =>
    obtain rfl := Option.some.inj h
    exact (onWinctl_refs s.wm e img).ge

end Session

end Aimsgui
