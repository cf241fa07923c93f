import Aimsgui.Repacking
import Aimsgui.Stacks

/-!
# Floating windows in a repack

A window whose tag is not `"."` floats: `reshape_floating` scales it to a new screen, and
`reshape` does not repack for it. But `pack_windows` makes no difference between rows and
floating windows. So a repack leaves the floating windows alone just if there is none on the
screen (`repack_leaves_floating_iff`).
-/

namespace Aimsgui

open Tiling Transition Zorder

/-- The floating windows of a client. -/
def floating (wins : List Window) : List Window := wins.filter (·.tag ≠ ".")

namespace Client

/-- A change of the row leaves the floating windows alone. -/
theorem floating_updatewin {f : Window → Window} (hf : ∀ win, (f win).tag = win.tag)
    (wins : List Window) : floating (updatewin "." f wins) = floating wins := by
  induction wins with
  | nil => rfl
  | cons win wins ih =>
    rw [updatewin]
    split_ifs with htag
    · rw [floating, List.filter_cons_of_neg (by simp [hf, htag]), floating,
        List.filter_cons_of_neg (by simp [htag])]
    · rw [floating, List.filter_cons_of_pos (by simpa using htag), floating,
        List.filter_cons_of_pos (by simpa using htag)]
      exact congrArg _ ih

theorem floating_putimage (cl : Client) (img : Image) :
    floating (cl.putimage "." img).wins = floating cl.wins := by
  rw [putimage]
  split
  · exact List.filter_cons_of_neg (by simp)
  · apply floating_updatewin
    exact fun _ => rfl

end Client

namespace Wm

variable {env : Env} {w w' : Wm} {c : Cid} {newr r : Rect} {left l : List Cid} {tag tag' : String}

/-- `w'` comes from `w` by a repack that leaves the floating windows alone: they are what they
were, the rows take up all the space, and no client is sent a message that reads as one about
another window or that is made for one of its floating windows. -/
structure LeavesFloating (newr : Rect) (w w' : Wm) : Prop where
  kept : ∀ c, floating (w'.client c).wins = floating (w.client c).wins
  space : Tiled newr w'.rows
  silent : ∀ c tag r, cstring tag ≠ "." ∨ (∃ win ∈ floating (w.client c).wins, win.tag = tag) →
    Send.ctl c (reshapeMsg tag r) ∉ w'.out.drop w.out.length

/-- No client on the screen has a floating window. -/
def Unfloating (w : Wm) : Prop := ∀ c ∈ w.order, ∀ win ∈ (w.client c).wins, win.tag = "."

instance (w : Wm) : Decidable w.Unfloating :=
  @List.decidableBAll _ _ (fun _ => List.decidableBAll _ _) _

/-! ## The messages -/

/-- A message says which tag it is about, as far as that comes through. -/
theorem reshapeMsg_tag (h : reshapeMsg tag r = reshapeMsg tag' newr) :
    cstring tag = cstring tag' := by
  have hwords := congrArg unquoted h
  rw [unquoted_reshapeMsg, unquoted_reshapeMsg] at hwords
  injection hwords with _ hwords
  injection hwords

theorem reshapeMsg_ne_rect (tag : String) (r newr : Rect) : reshapeMsg tag r ≠ "rect " ++ r2s newr := by
  intro h
  have hhead := congrArg (fun s => s.toList.head?) h
  simp [reshapeMsg] at hhead

/-- A client is told about the place of each of its windows, and of no other. -/
theorem mem_tidings_iff {wins : List Window} :
    (∃ r, Send.ctl c (reshapeMsg tag r) ∈ tidings newr c wins) ↔
      ∃ win ∈ wins, cstring win.tag = cstring tag := by
  constructor
  · rintro ⟨r, hr⟩
    obtain ⟨win, hwin, hm⟩ := List.mem_flatMap.mp hr
    refine ⟨win, hwin, ?_⟩
    rcases List.mem_cons.mp hm with heq | hm
    · injection heq with _ heq
      exact (reshapeMsg_tag heq).symm
    · injection List.mem_singleton.mp hm with _ heq
      exact absurd heq (reshapeMsg_ne_rect _ _ _)
  · rintro ⟨win, hwin, htag⟩
    refine ⟨win.r, List.mem_flatMap.mpr ⟨win, hwin, ?_⟩⟩
    rw [← reshapeMsg_cstring tag, ← htag, reshapeMsg_cstring]
    exact List.mem_cons_self

/-! ## The repack -/

theorem level_of_rows {wins : List Window} (h : ∀ win ∈ wins, win.tag = ".") :
    Level Window.height (·.tag = ".") 0 wins := by
  induction wins with
  | nil => trivial
  | cons win wins ih =>
    rw [Level, if_pos (h win List.mem_cons_self)]
    exact ⟨rfl, ih fun win' hm => h win' (List.mem_cons_of_mem _ hm)⟩

theorem tags_eq {wins wins' : List Window}
    (h : wins'.map (fun win => (win.tag, win.height)) = wins.map fun win => (win.tag, win.height)) :
    wins'.map Window.tag = wins.map Window.tag := by
  have htags := congrArg (List.map Prod.fst) h
  rwa [List.map_map, List.map_map] at htags

theorem floating_eq_nil_iff {wins : List Window} :
    floating wins = [] ↔ ∀ tag ∈ wins.map Window.tag, tag = "." := by
  simp [floating]

/-- `pack_windows` leaves the floating windows alone just if no client on the screen has one. -/
theorem packWindows_leavesFloating_iff (h : Sound w left) (env : Env) (newr : Rect) :
    LeavesFloating newr w (w.packWindows env newr) ↔ w.Unfloating := by
  obtain ⟨l, hl, -⟩ := h.zorder
  obtain ⟨-, hclients, hothers, hsent⟩ := packWindows_spec env hl newr
  have horder : ∀ c, c ∈ (w.packWindows env newr).order ↔ c ∈ w.order :=
    order_packWindows h newr
  have htags : ∀ c ∈ (w.packWindows env newr).order,
      ((w.packWindows env newr).client c).wins.map Window.tag =
        (w.client c).wins.map Window.tag := fun c hc => tags_eq (hclients c hc).1
  have hdrop : (w.packWindows env newr).out.drop w.out.length =
      (w.packWindows env newr).order.flatMap fun c =>
        tidings newr c ((w.packWindows env newr).client c).wins := by
    rw [hsent, List.drop_left]
  constructor
  · -- a floating window is placed like any other, and its client told so
    intro hleaves c hc win hwin
    by_contra hfloat
    have hc' := (horder c).mpr hc
    have htag : win.tag ∈ ((w.packWindows env newr).client c).wins.map Window.tag := by
      rw [htags c hc']
      exact List.mem_map_of_mem hwin
    have htold : ∃ r, Send.ctl c (reshapeMsg win.tag r) ∈
        tidings newr c ((w.packWindows env newr).client c).wins :=
      mem_tidings_iff.mpr ((List.mem_map.mp htag).imp fun _ h => ⟨h.1, congrArg cstring h.2⟩)
    obtain ⟨r, hr⟩ := htold
    have hfloating : win ∈ floating (w.client c).wins :=
      List.mem_filter.mpr ⟨hwin, by simpa using hfloat⟩
    apply hleaves.silent c win.tag r (Or.inr ⟨win, hfloating, rfl⟩)
    rw [hdrop]
    exact List.mem_flatMap.mpr ⟨c, hc', hr⟩
  · intro hrows
    have hdots : ∀ c ∈ (w.packWindows env newr).order,
        ∀ tag ∈ (w.client c).wins.map Window.tag, tag = "." := by
      intro c hc tag htag
      obtain ⟨win, hwin, rfl⟩ := List.mem_map.mp htag
      exact hrows c ((horder c).mp hc) win hwin
    refine ⟨?_, ?_, ?_⟩
    · intro c
      by_cases hc : c ∈ (w.packWindows env newr).order
      · rw [floating_eq_nil_iff.mpr (hdots c hc), floating_eq_nil_iff]
        rw [htags c hc]
        exact hdots c hc
      · rw [hothers c hc]
    · rw [packWindows_tiled_iff newr (nodup_packed hl)]
      apply level_of_rows
      intro win hwin
      rw [shown, ← packWindows_order env w newr, client_packed] at hwin
      obtain ⟨c, hc, hm⟩ := List.mem_flatMap.mp hwin
      exact hrows c ((horder c).mp hc) win hm
    · intro c tag r htag hm
      rw [hdrop] at hm
      obtain ⟨a, ha, hm⟩ := List.mem_flatMap.mp hm
      obtain rfl : c = a := by
        obtain ⟨win, -, hm⟩ := List.mem_flatMap.mp hm
        rcases List.mem_cons.mp hm with heq | hm
        · injection heq
        · injection List.mem_singleton.mp hm
      rcases htag with hread | ⟨win, hwin, -⟩
      · -- the message is made for a row
        obtain ⟨win, hwin, hsame⟩ := mem_tidings_iff.mp ⟨r, hm⟩
        have hdot : win.tag = "." := by
          apply hdots c ha
          rw [← htags c ha]
          exact List.mem_map_of_mem hwin
        apply hread
        rw [← hsame, hdot]
        decide
      · rw [floating_eq_nil_iff.mpr (hdots c ha)] at hwin
        cases hwin

/-- A reshape of the row leaves the client's floating windows alone. -/
theorem floating_reshapeImage (env : Env) (w : Wm) (c : Cid) (r : Rect) (a : Cid) :
    floating ((w.reshapeImage env c "." r).1.client a).wins = floating (w.client a).wins := by
  by_cases ha : a = c
  · subst ha
    rcases reshapeImage_wins env w a "." r with hsame | ⟨win, -, i, -, hput⟩ | ⟨id, hput⟩
    · rw [hsame]
    · rw [hput]
      apply Client.floating_updatewin
      exact fun _ => rfl
    · rw [hput, Client.floating_putimage]
  · rw [reshapeImage_others env w c "." r ha]

end Wm

/-- The manager's own window gets a new image. -/
def Event.rescreens : Event → Bool
  | .winctl _ (some _) => true
  | _ => false

namespace Session

open Wm

variable {env : Env} {s s' : Session} {e : Event} {es : List Event} {w : Wm} {screen : Rect}

/-- Before `pack_windows` is called no floating window has changed, unless `reshape_floating`
has scaled it to a new screen. -/
theorem packing_floating (hp : s.packing env e = some w) (he : e.rescreens = false) (a : Cid) :
    floating (w.client a).wins = floating (s.wm.client a).wins := by
  cases e with
  | leave c =>
    obtain rfl := Option.some.inj hp
    have hwins := (Still.controlevent (w := s.wm.forgetting .rowwm c)
      ("delclient " ++ toString (s.wm.client c).id)).wins a
    exact congrArg floating hwins
  | request c data ptr =>
    obtain ⟨⟨w₁, tag, r⟩, hcall, hpack⟩ := Option.bind_eq_some_iff.mp hp
    obtain ⟨rfl, -, -, rfl⟩ := reshapePacking_cases hpack
    rw [enlist_client, floating_reshapeImage, (Still.reshapeCall hcall).wins]
  | winctl txt img =>
    cases img with
    | none => cases hp
    | some newr => cases he
  | opened | join | key | pointer => cases hp

/-- In every reachable state and for every turn that repacks, whoever it is that asks for it:
up to the call of `pack_windows` only `reshape_floating` moves floating windows;
`pack_windows` leaves them alone just if no client on the screen has one; and after it the
turn leaves all windows as they are. -/
theorem repack_leaves_floating_iff (hrun : Run (StepOf (step .rowwm env)) (start screen) es s)
    (hstep : s.step .rowwm env e = some s') (hp : s.packing env e = some w) :
    (e.rescreens = false → ∀ c, floating (w.client c).wins = floating (s.wm.client c).wins) ∧
      (LeavesFloating w.screen w (w.packWindows env w.screen) ↔ w.Unfloating) ∧
      ∀ c, (s'.wm.client c).wins = ((w.packWindows env w.screen).client c).wins := by
  have hsound : Sound w s'.left := packing_sound (run_sound hrun) hstep hp
  exact ⟨packing_floating hp, packWindows_leavesFloating_iff hsound env w.screen,
    (step_packed hstep hp).wins⟩

/-- A client has a row and a pop-up window, and makes the row higher: the pop-up window becomes
a second row. -/
theorem popup_becomes_row :
    ∃ s, Run (StepOf (step .rowwm default)) (start ⟨⟨0, 0⟩, ⟨196, 400⟩⟩)
        (showRow 0 ++ [.request 0 "!reshape menu -1 50 50 100 100" []]) s ∧
      ∃ w, s.packing default (.request 0 "!reshape . -1 0 0 196 30" []) = some w ∧
        ¬ LeavesFloating w.screen w (w.packWindows default w.screen) := by
  obtain ⟨s, hrun, hpack⟩ : ∃ s,
      Run (StepOf (step .rowwm default)) (start ⟨⟨0, 0⟩, ⟨196, 400⟩⟩)
        (showRow 0 ++ [.request 0 "!reshape menu -1 50 50 100 100" []]) s ∧
      (s.packing default (.request 0 "!reshape . -1 0 0 196 30" [])).any fun w =>
        decide (((w.client 0).wins.map Wm.outline,
            ((w.packWindows default w.screen).client 0).wins.map Wm.outline) =
          ([("menu", ⟨⟨50, 50⟩, ⟨100, 100⟩⟩), (".", ⟨⟨0, 0⟩, ⟨196, 30⟩⟩)],
            [("menu", ⟨⟨0, 0⟩, ⟨196, 50⟩⟩), (".", ⟨⟨0, 50⟩, ⟨196, 80⟩⟩)])) :=
    Run.exists_of_exec (by decide +kernel)
  obtain ⟨w, hw, hout⟩ := (Option.any_eq_true _ _).mp hpack
  refine ⟨s, hrun, w, hw, fun h => ?_⟩
  have hkept := congrArg (List.map Wm.outline) (h.kept 0)
  have houtline : ∀ wins, (floating wins).map Wm.outline =
      (wins.map Wm.outline).filter (·.1 ≠ ".") := by
    intro wins
    rw [List.filter_map]
    rfl
  obtain ⟨hbefore, hafter⟩ := Prod.mk.inj (of_decide_eq_true hout)
  rw [houtline, houtline, hbefore, hafter] at hkept
  revert hkept
  decide

/-- Two rows, of which the second gets higher. -/
theorem repack_leaves_floating_rows :
    ∃ s, Run (StepOf (step .rowwm default)) (start ⟨⟨0, 0⟩, ⟨196, 400⟩⟩)
        (showRow 0 ++ showRow 1) s ∧
      ∃ w, s.packing default (.request 1 "!reshape . -1 0 20 196 50" []) = some w ∧
        LeavesFloating w.screen w (w.packWindows default w.screen) := by
  obtain ⟨s, hrun, hpack⟩ : ∃ s,
      Run (StepOf (step .rowwm default)) (start ⟨⟨0, 0⟩, ⟨196, 400⟩⟩)
        (showRow 0 ++ showRow 1) s ∧
      ((s.step .rowwm default (.request 1 "!reshape . -1 0 20 196 50" [])).isSome ∧
        (s.packing default (.request 1 "!reshape . -1 0 20 196 50" [])).any fun w =>
          decide w.Unfloating) :=
    Run.exists_of_exec (by decide +kernel)
  obtain ⟨s', hstep⟩ := Option.isSome_iff_exists.mp hpack.1
  obtain ⟨w, hw, hrows⟩ := (Option.any_eq_true _ _).mp hpack.2
  exact ⟨s, hrun, w, hw,
    (repack_leaves_floating_iff hrun hstep hw).2.1.mpr (of_decide_eq_true hrows)⟩

end Session

end Aimsgui
