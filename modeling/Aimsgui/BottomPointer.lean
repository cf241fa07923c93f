import Aimsgui.Packing
import Aimsgui.Lib.Run

/-!
# The pointer to the last client

`Xwmsrv` keeps in `bottom` what should be the last client of the z-order, and
`Client.bottom` trusts it. Two operations can leave it stale: `Client.top` on the last of
several clients, and `Client.remove` on the first of more than two. `xtop_bottom_iff` and
`xremove_bottom_iff` say that these are the only ways. A run of `rowwm` that takes neither
keeps the pointer right (`bottom_names_last`), and then a repack puts the header first and
the footer last.
-/

namespace Aimsgui

open Links Transition

namespace Zorder

variable {q : Zorder} {left l : List Cid} {c : Cid}

/-- The links list `l`, none of whose clients has left, and `bottom` is the last of them. -/
structure Ends (q : Zorder) (left l : List Cid) : Prop extends Standing q left l where
  bottom : q.bottom = l.getLast?

/-- The last client after the client `c` has been put first. -/
theorem getLast?_top_iff (hnd : l.Nodup) (hl : l ≠ []) :
    l.getLast? = (c :: l.erase c).getLast? ↔ (l.getLast? = some c → l = [c]) := by
  obtain ⟨l, b, rfl⟩ := (List.eq_nil_or_concat' l).resolve_left hl
  have hb : b ∉ l := fun hm => (List.nodup_append.mp hnd).2.2 b hm b (List.mem_singleton_self b) rfl
  rw [List.getLast?_concat]
  by_cases hbc : b = c
  · subst hbc
    rw [List.erase_append_right _ hb, List.erase_cons_head, List.append_nil]
    rcases List.eq_nil_or_concat' l with rfl | ⟨l, a, rfl⟩
    · simp
    · have hab : b ≠ a := fun h => hb (h ▸ List.mem_append_right _ (List.mem_singleton_self _))
      have hne : l ++ [a] ++ [b] ≠ [b] := by
        intro h
        have hlen := congrArg List.length h
        simp at hlen
      rw [← List.cons_append, List.getLast?_concat]
      simp only [Option.some.injEq, hab, true_implies, hne]
  · have hlast : (c :: (l ++ [b]).erase c).getLast? = some b := by
      have herase : ∃ l', (l ++ [b]).erase c = l' ++ [b] := by
        by_cases hc : c ∈ l
        · exact ⟨l.erase c, List.erase_append_left _ hc⟩
        · refine ⟨l, ?_⟩
          rw [List.erase_append_right _ hc, List.erase_cons_tail (by simpa using hbc),
            List.erase_nil]
      obtain ⟨l', hl'⟩ := herase
      rw [hl', ← List.cons_append, List.getLast?_concat]
    rw [hlast]
    simp [hbc]

/-- `Client.top` keeps `bottom` right exactly when it is not called on the last of several
clients. -/
theorem xtop_bottom_iff (h : Ends q left l) :
    (Xwmsrv.top q c).bottom = (c :: l.erase c).getLast? ↔ (l.getLast? = some c → l = [c]) := by
  rw [xtop_bottom h.listed, h.bottom]
  split_ifs with hl
  · subst hl
    simp
  · exact getLast?_top_iff h.listed.nodup hl

/-- `Client.remove` keeps `bottom` right exactly when it is not called on the first of more
than two clients. -/
theorem xremove_bottom_iff (h : Ends q left l) :
    (Xwmsrv.remove q c).bottom = (l.erase c).getLast? ↔ (l.head? = some c → l.length ≤ 2) := by
  have hbottom := h.bottom
  by_cases hm : c ∈ l
  · obtain ⟨l₁, l₂, rfl, hc₁, herase⟩ := Listed.split hm h.listed.nodup
    have hfind := h.listed.find_of_mem
    have hnext : q.znext c = l₂.head? := h.listed.chain.next_eq
    rw [herase]
    rcases List.eq_nil_or_concat' l₁ with rfl | ⟨l₁, p, rfl⟩
    · -- the client is in front: `bottom` becomes the next one
      have hb : (Xwmsrv.remove q c).bottom = l₂.head? := by
        rw [Xwmsrv.remove, hfind, ← hnext]
        rfl
      rw [hb]
      rcases l₂ with _ | ⟨a, _ | ⟨b, l₂⟩⟩
      · simp
      · simp
      · have hnd := h.listed.nodup
        have hab : a ∉ b :: l₂ := (List.nodup_cons.mp (List.nodup_cons.mp hnd).2).1
        have hlast : (a :: b :: l₂).getLast? ≠ some a := by
          rw [List.getLast?_cons_cons]
          exact fun hl => hab (List.mem_of_getLast? hl)
        simpa using hlast.symm
    · have hb : (Xwmsrv.remove q c).bottom = if q.bottom = some c then some p else q.bottom := by
        rw [Xwmsrv.remove, hfind, List.getLast?_concat]
      have hhead : (l₁ ++ [p] ++ c :: l₂).head? ≠ some c := by
        intro hh
        have hmem : c ∈ l₁ ++ [p] := by
          cases l₁ with
          | nil => exact List.mem_singleton.mpr (Option.some.inj hh).symm
          | cons a l₁ => exact (Option.some.inj hh) ▸ List.mem_cons_self
        exact hc₁ hmem
      rw [hb, hbottom]
      simp only [hhead, false_implies, iff_true]
      cases l₂ with
      | nil => simp
      | cons b l₂ =>
        have hnd := h.listed.nodup
        have hlast : (l₁ ++ [p] ++ c :: b :: l₂).getLast? = (b :: l₂).getLast? := by
          rw [List.getLast?_append_of_ne_nil _ (List.cons_ne_nil _ _), List.getLast?_cons_cons]
        have hne : (b :: l₂).getLast? ≠ some c := by
          intro hl
          have hc₂ := (List.nodup_cons.mp (List.nodup_append.mp hnd).2.1).1
          exact hc₂ (List.mem_of_getLast? hl)
        rw [hlast, if_neg hne, List.getLast?_append_of_ne_nil _ (List.cons_ne_nil _ _)]
  · have hhead : l.head? ≠ some c := fun hh => hm (List.mem_of_head? hh)
    rw [Xwmsrv.remove, h.listed.find_of_notMem hm, List.erase_of_not_mem hm, hbottom]
    simp [hhead]

namespace Ends

theorem top (h : Ends q left l) (hc : c < q.refs) (hleft : c ∉ left)
    (hlast : l.getLast? = some c → l = [c]) : Ends (Xwmsrv.top q c) left (c :: l.erase c) :=
  ⟨h.toStanding.xtop hc hleft, (xtop_bottom_iff h).mpr hlast⟩

/-- `Client.bottom` leaves the client last, also where it finds nothing to do. -/
theorem sink (h : Ends q left l) (hc : c < q.refs) (hleft : c ∉ left) :
    Ends (Xwmsrv.bottom q c) left (l.erase c ++ [c]) := by
  have hsink := h.toStanding.xsink hc hleft
  refine ⟨?_, by rw [xsink_bottom, List.getLast?_concat]⟩
  split_ifs at hsink with hb
  · rw [h.bottom] at hb
    obtain ⟨l', rfl⟩ := List.getLast?_eq_some_iff.mp hb
    have hc' : c ∉ l' := fun hm =>
      (List.nodup_append.mp h.listed.nodup).2.2 c hm c (List.mem_singleton_self c) rfl
    rwa [List.erase_append_right _ hc', List.erase_cons_head, List.append_nil]
  · exact hsink

theorem remove (h : Ends q left l) (hleft : c ∉ left) (hfirst : l.head? = some c → l.length ≤ 2) :
    Ends (Xwmsrv.remove q c) (c :: left) (l.erase c) :=
  ⟨h.toStanding.xremove hleft, (xremove_bottom_iff h).mpr hfirst⟩

end Ends

end Zorder

open Zorder

namespace Wm

variable {env : Env} {w : Wm} {left l : List Cid} {c hd ft : Cid} {a : String}

theorem mem_of_typed (h : w.typed a = some c) : c ∈ w.order := List.mem_of_find?_eq_some h

/-- The client `c` is the only one on the screen with that attribute. -/
def Sole (w : Wm) (a : String) (c : Cid) : Prop :=
  c ∈ w.order ∧ ∀ z ∈ w.order, (w.client z).attrs = some a ↔ z = c

instance (w : Wm) (a : String) (c : Cid) : Decidable (w.Sole a c) :=
  inferInstanceAs (Decidable (_ ∧ _))

theorem Sole.typed (h : w.Sole a c) : w.typed a = some c := by
  have hattrs := (h.2 c h.1).mpr rfl
  cases hfind : w.typed a with
  | none =>
    have hno := List.find?_eq_none.mp hfind c h.1
    exact absurd hattrs (by simpa using hno)
  | some z =>
    have hz : (w.client z).attrs = some a := by simpa using List.find?_some hfind
    rw [(h.2 z (mem_of_typed hfind)).mp hz]

/-- The header comes first. -/
theorem packHeader_ends (h : Ends w.z left l)
    (hsafe : ∀ hd ∈ w.typed "header", w.order.getLast? = some hd → w.order = [hd]) :
    ∃ l', Ends w.packHeader.z left l' ∧ ∀ hd, w.typed "header" = some hd → l' = hd :: l.erase hd := by
  have horder : w.order = l := h.listed.order_eq
  rw [packHeader]
  cases htyped : w.typed "header" with
  | none => exact ⟨l, h, by rintro _ ⟨⟩⟩
  | some c =>
    have hm : c ∈ l := horder ▸ mem_of_typed htyped
    have hlast := hsafe c htyped
    rw [horder] at hlast
    refine ⟨c :: l.erase c, h.top (h.listed.bound c hm) (h.present c hm) hlast, ?_⟩
    rintro hd hc
    rw [Option.some.inj hc]

/-- The footer comes last. -/
theorem packFooter_ends (h : Ends w.z left l) :
    ∃ l', Ends w.packFooter.z left l' ∧
      ∀ ft, w.typed "footer" = some ft → l' = l.erase ft ++ [ft] := by
  have horder : w.order = l := h.listed.order_eq
  rw [packFooter]
  cases htyped : w.typed "footer" with
  | none => exact ⟨l, h, by rintro _ ⟨⟩⟩
  | some c =>
    have hm : c ∈ l := horder ▸ mem_of_typed htyped
    refine ⟨l.erase c ++ [c], h.sink (h.listed.bound c hm) (h.present c hm), ?_⟩
    rintro ft hc
    rw [Option.some.inj hc]

/-- `pack_windows` keeps the pointer right, and puts header and footer in their places. -/
theorem packWindows_ends (env : Env) (newr : Rect) (h : Ends w.z left l)
    (hsafe : ∀ hd ∈ w.typed "header", w.order.getLast? = some hd → w.order = [hd]) :
    ∃ l', Ends (w.packWindows env newr).z left l' ∧
      ∀ hd ft, w.Sole "header" hd → w.Sole "footer" ft →
        l'.head? = some hd ∧ l'.getLast? = some ft := by
  obtain ⟨l₁, hl₁, hheader⟩ := packHeader_ends h hsafe
  obtain ⟨l₂, hl₂, hfooter⟩ := packFooter_ends hl₁
  refine ⟨l₂, ?_, ?_⟩
  · rw [packWindows, replaceAll_z]
    exact hl₂
  intro hd ft hsole hsole'
  have horder : w.order = l := h.listed.order_eq
  have horder₁ : w.packHeader.order = l₁ := hl₁.listed.order_eq
  have hclient : w.packHeader.client = w.client := by
    rw [packHeader]
    split <;> rfl
  obtain rfl := hheader hd hsole.typed
  have hne : ft ≠ hd := by
    rintro rfl
    have hattrs := (hsole.2 ft hsole.1).mpr rfl
    rw [(hsole'.2 ft hsole'.1).mpr rfl] at hattrs
    exact absurd (Option.some.inj hattrs) (by decide)
  have hmem : ∀ z, z ∈ hd :: l.erase hd ↔ z ∈ w.order := by
    intro z
    rw [horder]
    exact (List.perm_cons_erase (horder ▸ hsole.1)).mem_iff.symm
  have hsole'' : w.packHeader.Sole "footer" ft := by
    rw [Sole, horder₁, hclient, hmem]
    refine ⟨hsole'.1, ?_⟩
    intro z hz
    exact hsole'.2 z ((hmem z).mp hz)
  rw [hfooter ft hsole''.typed, List.getLast?_concat, List.erase_cons_tail (by simpa using hne.symm)]
  exact ⟨rfl, rfl⟩

end Wm

/-- The client that leaves. -/
def Event.departs : Event → Option Cid
  | .leave c => some c
  | _ => none

namespace Session

open Wm

variable {env : Env} {s s' : Session} {e : Event} {es : List Event} {l : List Cid} {w : Wm}
  {screen : Rect}

/-- The turn neither removes the first of more than two clients nor, when it packs, brings
to the front a header that is the last of several clients. -/
def BottomSafe (env : Env) (s : Session) (e : Event) : Prop :=
  (∀ c ∈ e.departs, s.wm.order.head? = some c → s.wm.order.length ≤ 2) ∧
    ∀ w ∈ s.packing env e, ∀ hd ∈ w.typed "header", w.order.getLast? = some hd → w.order = [hd]

instance (env : Env) (s : Session) (e : Event) : Decidable (BottomSafe env s e) :=
  inferInstanceAs (Decidable (_ ∧ _))

/-- The pointer is right when a turn calls `pack_windows`. -/
theorem packing_ends (h : Ends s.wm.z s.left l) (hsafe : BottomSafe env s e)
    (hstep : s.step .rowwm env e = some s') (hp : s.packing env e = some w) :
    ∃ l', Ends w.z s'.left l' := by
  rcases packing_z hstep hp with ⟨c, rfl, hc, hz, hleft⟩ | ⟨hleft, hz | ⟨c, hc, -, hz⟩⟩
  · have hfirst := hsafe.1 c rfl
    rw [Wm.order, h.listed.order_eq] at hfirst
    rw [hz, hleft]
    exact ⟨_, h.remove hc.2 hfirst⟩
  · rw [hz, hleft]
    exact ⟨l, h⟩
  · rw [hz, hleft]
    exact ⟨_, h.sink hc.1 hc.2⟩

/-- A turn that does not pack keeps the pointer right. -/
theorem unpacked_ends (h : Ends s.wm.z s.left l) (hw : Unpacked env s e w) :
    ∃ l', Ends w.z s.left l' := by
  rcases unpacked_z hw with hz | hz | ⟨c, hc, -, hz⟩
  · exact ⟨l, hz ▸ h⟩
  · exact ⟨l, hz ▸ ⟨h.toStanding.opened, h.bottom⟩⟩
  · exact ⟨_, hz ▸ h.sink hc.1 hc.2⟩

/-- One turn keeps the pointer right; a turn that packs puts header and footer in their
places. -/
theorem step_ends (h : Ends s.wm.z s.left l) (hsafe : BottomSafe env s e)
    (hstep : s.step .rowwm env e = some s') :
    ∃ l', Ends s'.wm.z s'.left l' ∧ ∀ w, s.packing env e = some w →
      ∀ hd ft, w.Sole "header" hd → w.Sole "footer" ft →
        l'.head? = some hd ∧ l'.getLast? = some ft := by
  cases hp : s.packing env e with
  | none =>
    obtain ⟨l', hl'⟩ := unpacked_ends h (step_unpacked hstep hp)
    refine ⟨l', ?_, by rintro _ ⟨⟩⟩
    rwa [step_left hstep hp]
  | some w =>
    obtain ⟨l₁, hl₁⟩ := packing_ends h hsafe hstep hp
    obtain ⟨l₂, hl₂, hsole⟩ := packWindows_ends env w.screen hl₁ (hsafe.2 w hp)
    refine ⟨l₂, ?_, ?_⟩
    · rwa [(step_packed hstep hp).z]
    · intro w' hw'
      rwa [← Option.some.inj hw']

theorem start_ends : Ends (start screen).wm.z (start screen).left [] := ⟨Standing.empty, rfl⟩

/-- In every run of `rowwm` that takes neither of the two wrong turns, `bottom` is the last
client of the z-order, `c.bottom()` leaves `c` last, and a turn that packs with one header
and one footer on the screen leaves them first and last. -/
theorem bottom_names_last
    (h : Run (Guarded (BottomSafe env) (StepOf (step .rowwm env))) (start screen) es s) :
    Chain s.wm.z.znext s.wm.z.zorder s.wm.order ∧
      s.wm.z.bottom = s.wm.order.getLast? ∧
      (∀ c, s.Live c → (Xwmsrv.bottom s.wm.z c).order.getLast? = some c) ∧
      ∀ e s' w, BottomSafe env s e → s.step .rowwm env e = some s' → s.packing env e = some w →
        ∀ hd ft, w.Sole "header" hd → w.Sole "footer" ft →
          s'.wm.order.head? = some hd ∧ s'.wm.order.getLast? = some ft := by
  obtain ⟨l, hl⟩ := h.invariant (I := fun s => ∃ l, Ends s.wm.z s.left l) ⟨[], start_ends⟩
    fun s e t ⟨l, hl⟩ ⟨hsafe, hstep⟩ => by
      obtain ⟨l', hl', -⟩ := step_ends hl hsafe hstep
      exact ⟨l', hl'⟩
  have horder : s.wm.order = l := hl.listed.order_eq
  rw [horder]
  refine ⟨hl.listed.chain, hl.bottom, ?_, ?_⟩
  · intro c hc
    rw [(hl.sink hc.1 hc.2).listed.order_eq, List.getLast?_concat]
  · intro e s' w hsafe hstep hp hd ft hsole hsole'
    obtain ⟨l', hl', hpacked⟩ := step_ends hl hsafe hstep
    have horder' : s'.wm.order = l' := hl'.listed.order_eq
    rw [horder']
    exact hpacked w hp hd ft hsole hsole'

/-- A client opens `/chan/wmctl`, joins and shows a row of height twenty. -/
def showRow (c : Cid) : List Event :=
  [.opened c, .join c, .request c "!reshape . -1 0 0 196 20" []]

/-- The same for a client that says first what it is. -/
def showTyped (c : Cid) (wtype : String) : List Event :=
  [.opened c, .join c, .request c ("wintype " ++ wtype) [],
    .request c "!reshape . -1 0 0 196 20" []]

/-- A header, then a footer. -/
theorem bottom_names_last_footer :
    ∃ s, Run (Guarded (BottomSafe default) (StepOf (step .rowwm default)))
        (start ⟨⟨0, 0⟩, ⟨196, 400⟩⟩)
        (showTyped 0 "header" ++ showTyped 1 "footer") s ∧
      s.wm.order = [0, 1] ∧ s.wm.z.bottom = some 1 := by
  obtain ⟨s, hrun, horder⟩ :
      ∃ s, Run (Guarded (BottomSafe default) (StepOf (step .rowwm default)))
          (start ⟨⟨0, 0⟩, ⟨196, 400⟩⟩) (showTyped 0 "header" ++ showTyped 1 "footer") s ∧
        s.wm.order = [0, 1] :=
    Run.exists_of_execGuarded (by decide +kernel)
  refine ⟨s, hrun, horder, ?_⟩
  rw [(bottom_names_last hrun).2.1, horder]
  rfl

/-- Four rows; the first leaves, and `bottom` names the new first one. So that one does not
become the last row when it says that it is the footer. -/
theorem departure_leaves_bottom_stale :
    ∃ s, Run (StepOf (step .rowwm default)) (start ⟨⟨0, 0⟩, ⟨196, 400⟩⟩)
        (showRow 0 ++ showRow 1 ++ showRow 2 ++ showRow 3 ++
          [.leave 0, .request 1 "wintype footer" [], .request 2 "wintype header" [],
            .request 3 "!reshape . -1 0 0 196 30" []]) s ∧
      s.wm.order = [2, 1, 3] ∧ s.wm.Sole "header" 2 ∧ s.wm.Sole "footer" 1 ∧
      s.wm.z.bottom = some 1 ∧ (Xwmsrv.bottom s.wm.z 1).order.getLast? = some 3 :=
  Run.exists_of_exec (by decide +kernel)

end Session

end Aimsgui
