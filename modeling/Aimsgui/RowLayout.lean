import Aimsgui.Rows
import Aimsgui.BottomPointer

/-!
# The layout of the rows over whole runs

`rowwm` repacks when a row gets another size, when a client leaves and when its own window
changes. Between two repacks a row of the same size may be moved away, or a row taken out,
and nobody repacks; and a repack stacks all windows, also those that are no rows. A run
without such turns keeps the rows tiled (`rows_tile`).
-/

namespace Aimsgui

open Tiling Transition Zorder

variable {env : Env} {w w' : Wm} {c : Cid} {tag : String} {left l : List Cid}

/-- A client has at most one row. -/
theorem Client.rowsOf_wins {cl : Client} (h : Proper cl.wins) :
    rowsOf cl.wins = ((cl.window ".").map Window.r).toList := by
  have htags := h.tags
  clear h
  rw [Client.window]
  generalize cl.wins = wins at htags ⊢
  induction wins with
  | nil => rfl
  | cons win wins ih =>
    rw [List.map_cons, List.nodup_cons] at htags
    rw [rowsOf_cons]
    split_ifs with hdot
    · have hnone : rowsOf wins = [] := by
        rw [rowsOf, List.filter_eq_nil_iff.mpr, List.map_nil]
        intro win' hm hdot'
        have htag : win'.tag = "." := by simpa using hdot'
        exact htags.1 (hdot ▸ htag ▸ List.mem_map_of_mem hm)
      rw [hnone, List.find?_cons_of_pos (by simpa using hdot)]
      rfl
    · rw [List.nil_append, List.find?_cons_of_neg (by simpa using hdot)]
      exact ih htags.2

/-- The client whose row a request takes out. -/
def Event.deletesRow : Event → Option Cid
  | .request c data _ =>
    match unquoted data with
    | "delete" :: tag :: _ => if tag = "." then some c else none
    | _ => none
  | _ => none

namespace Wm

/-- The rows below those of the client `c`. -/
def below (w : Wm) (c : Cid) : List Rect :=
  ((w.order.dropWhile (· ≠ c)).drop 1).flatMap fun a => rowsOf (w.client a).wins

/-- The row of the client has no height, or no row is below it. -/
def Spare (w : Wm) (c : Cid) : Prop :=
  ∀ win ∈ (w.client c).window ".", win.r.min.y = win.r.max.y ∨ w.below c = []

instance (w : Wm) (c : Cid) : Decidable (w.Spare c) :=
  inferInstanceAs (Decidable (∀ win ∈ (w.client c).window ".", _))

/-- The rows above a client, its own, and those below. -/
theorem rows_split (hnd : w.order.Nodup) (hc : c ∈ w.order) :
    ∃ above, ∀ w' : Wm, w'.order = w.order →
      (∀ a, a ≠ c → rowsOf (w'.client a).wins = rowsOf (w.client a).wins) →
        w'.rows = above ++ rowsOf (w'.client c).wins ++ w.below c := by
  obtain ⟨l₁, l₂, horder, hc₁, -⟩ := Listed.split hc hnd
  have hc₂ : c ∉ l₂ := by
    rw [horder] at hnd
    exact (List.nodup_cons.mp (List.nodup_append.mp hnd).2.1).1
  have hbelow : w.below c = l₂.flatMap fun a => rowsOf (w.client a).wins := by
    have hdrop : w.order.dropWhile (· ≠ c) = c :: l₂ := by
      rw [horder, List.dropWhile_append_of_pos]
      · rw [List.dropWhile_cons_of_neg (by simp)]
      · intro a ha
        have hac : a ≠ c := fun h => hc₁ (h ▸ ha)
        simpa using hac
    rw [below, hdrop, List.drop_one, List.tail_cons]
  refine ⟨l₁.flatMap fun a => rowsOf (w.client a).wins, ?_⟩
  intro w' horder' hothers
  rw [rows_eq, horder', horder, List.flatMap_append, List.flatMap_cons, hbelow, List.append_assoc]
  congr 1
  · refine List.flatMap_congr ?_
    intro a ha
    exact hothers a fun h => hc₁ (h ▸ ha)
  · congr 1
    refine List.flatMap_congr ?_
    intro a ha
    exact hothers a fun h => hc₂ (h ▸ ha)

/-- Taking out a row that nothing depends on leaves the others tiled. -/
theorem tiled_dropwin (h : Displayed w left) (htiled : Tiled w.screen w.rows)
    (hspare : tag = "." → w.Spare c) :
    Tiled w.screen (w.put c (·.dropwin tag)).rows := by
  by_cases hc : c ∈ w.order
  · obtain ⟨above, hsplit⟩ := rows_split h.nodup hc
    have hold := hsplit w rfl fun _ _ => rfl
    have hnew := hsplit (w.put c (·.dropwin tag)) rfl fun a ha => by rw [put_of_ne ha]
    rw [put_self, Client.rowsOf_dropwin (h.proper c)] at hnew
    split_ifs at hnew with hdot
    · rw [Client.rowsOf_wins (h.proper c)] at hold
      rw [List.append_nil] at hnew
      cases hwin : (w.client c).window "." with
      | none =>
        rw [hwin, Option.map_none, Option.toList_none, List.append_nil] at hold
        rw [hnew, ← hold]
        exact htiled
      | some win =>
        rw [hwin, Option.map_some, Option.toList_some] at hold
        rw [hold] at htiled
        rw [hnew]
        refine ⟨?_, ?_⟩
        · obtain ⟨hi, htiles⟩ := htiled.tiles
          rw [List.append_assoc, List.map_append] at htiles
          rcases hspare hdot win hwin with hflat | hlast
          · refine ⟨hi, ?_⟩
            rw [List.map_append]
            exact htiles.remove hflat
          · obtain ⟨mid, habove, -⟩ := tiles_append_iff.mp htiles
            rw [hlast, List.append_nil]
            exact ⟨mid, habove⟩
        · intro r hr
          refine htiled.wide r ?_
          rcases List.mem_append.mp hr with hr | hr
          · exact List.mem_append_left _ (List.mem_append_left _ hr)
          · exact List.mem_append_right _ hr
    · rw [hnew, ← hold]
      exact htiled
  · have hsame : (w.put c (·.dropwin tag)).rows = w.rows := by
      refine rows_congr rfl ?_
      intro a ha
      have hac : a ≠ c := fun h => hc (h ▸ ha)
      rw [put_of_ne hac]
    rw [hsame]
    exact htiled

/-- A repack changes neither the screen nor, before it stacks the windows, their places. -/
theorem packed_screen (w : Wm) : w.packHeader.packFooter.screen = w.screen := by
  have hheader : w.packHeader.screen = w.screen := by
    rw [packHeader]
    split <;> rfl
  rw [packFooter, ← hheader]
  split <;> rfl

theorem packWindows_screen (newr : Rect) : (w.packWindows env newr).screen = w.screen :=
  (replaceAll_screen _ _ _).trans (packed_screen w)

theorem tiled_still (h : Tiled w.screen w.rows) (hs : Still w w') : Tiled w'.screen w'.rows := by
  rw [hs.screen, rows_congr hs.order fun a _ => congrArg rowsOf (hs.wins a)]
  exact h

/-- A reshape that does not pack leaves the rows where they are, if the one that it is about
stays. -/
theorem rows_reshapeImage (env : Env) {r : Rect} (h : Displayed w left) (hc : c < w.z.refs) (hleft : c ∉ left)
    (hstays : tag = "." → ∀ win ∈ (w.client c).window ".", win.r.extent = r.extent → win.r = r)
    (hsame : w.Samesize c tag r ∨ tag ≠ ".") :
    ((w.reshapeImage env c tag r).1.enlist c).rows = w.rows := by
  have hframe := reshapeImage_frame env w c tag r
  have horder' : (w.reshapeImage env c tag r).1.order = w.order := by
    rw [Wm.order, hframe.1, Wm.order]
  have hrow : tag = "." → ∃ win ∈ (w.client c).window tag, win.r = r := by
    rintro rfl
    obtain ⟨win, hwin, hsize⟩ := hsame.resolve_right fun h => h rfl
    exact ⟨win, hwin, hstays rfl win hwin hsize⟩
  have hrows : ∀ a, rowsOf ((w.reshapeImage env c tag r).1.client a).wins =
      rowsOf (w.client a).wins := by
    intro a
    by_cases hac : a = c
    · subst hac
      exact rowsOf_reshapeImage (h.proper a) hrow
    · rw [reshapeImage_others env w c tag r hac]
  have hzorder : ∃ l, Standing (w.reshapeImage env c tag r).1.z left l ∧
      Anchored (w.reshapeImage env c tag r).1.z l := hframe.1.symm ▸ h.zorder
  have horder := enlist_order hzorder (hframe.1.symm ▸ hc) hleft
  rw [horder'] at horder
  split_ifs at horder with hm
  · refine rows_congr horder ?_
    intro a _
    rw [enlist_client]
    exact hrows a
  · -- the client has had no window, so this one is no row
    rw [rows_eq, horder, List.flatMap_append, List.flatMap_singleton, enlist_client, hrows,
      h.hidden c hm hleft, rowsOf_nil, List.append_nil, rows_eq]
    refine List.flatMap_congr ?_
    intro a _
    exact hrows a

end Wm

namespace Session

open Wm

variable {s s' : Session} {e : Event} {es : List Event} {screen : Rect}

/-- The call of `reshape` that a turn makes, with the client it makes it for. -/
def reshaping (env : Env) (s : Session) : Event → Option (Cid × Wm × String × Rect)
  | .request c data ptr => (s.wm.reshapeCall .rowwm env c data ptr).map (Prod.mk c)
  | _ => none

/-- A repack finds no windows with a height between the rows, a row that keeps its size
stays where it is, and a row that is taken out is the last one. -/
def RowSafe (env : Env) (s : Session) (e : Event) : Prop :=
  (∀ w ∈ s.packing env e, Level Window.height (·.tag = ".") 0 w.packHeader.packFooter.shown) ∧
    (∀ x ∈ s.reshaping env e, x.2.2.1 = "." →
      ∀ win ∈ (x.2.1.client x.1).window ".", win.r.extent = x.2.2.2.extent → win.r = x.2.2.2) ∧
    ∀ c ∈ e.deletesRow, s.wm.Spare c

instance (env : Env) (s : Session) (e : Event) : Decidable (RowSafe env s e) :=
  inferInstanceAs (Decidable (_ ∧ _ ∧ _))

/-- What is true of all windows when a turn calls `pack_windows`. -/
theorem packing_displayed (h : Displayed s.wm s.left) (hstep : s.step .rowwm env e = some s')
    (hp : s.packing env e = some w) : Displayed w s'.left := by
  cases e with
  | leave c =>
    simp only [step] at hstep
    split_ifs at hstep with hc
    obtain rfl := Option.some.inj hstep
    obtain rfl := Option.some.inj hp
    obtain ⟨l, hl, hanch⟩ := h.zorder
    have horder : s.wm.order = l := hl.listed.order_eq
    have hremove := hl.xremove hc.2
    refine Displayed.still (w := s.wm.remove .rowwm c) ?_ ?_
    · refine ⟨⟨_, hremove, hanch.remove hl.listed⟩, h.proper, ?_⟩
      intro a ha hleft
      obtain ⟨hac, hleft⟩ := not_or.mp fun hm => hleft (List.mem_cons.mpr hm)
      refine h.hidden a ?_ hleft
      have horder' : (s.wm.remove .rowwm c).order = l.erase c := hremove.listed.order_eq
      rw [horder', List.mem_erase_of_ne hac] at ha
      rwa [horder]
    · simp only [departing]
      refine Still.trans ?_ (Still.controlevent _)
      exact Still.rfl'.frame rfl rfl rfl rfl
  | request c data ptr =>
    simp only [step] at hstep
    split_ifs at hstep with hc
    obtain ⟨⟨w', a⟩, -, rfl⟩ := Option.map_eq_some_iff.mp hstep
    obtain ⟨⟨w₁, tag, r⟩, hcall, hpack⟩ := Option.bind_eq_some_iff.mp hp
    have hstill := Still.reshapeCall hcall
    have h₁ := h.still hstill
    simp only [reshapePacking] at hpack
    split at hpack
    · cases hpack
    · rename_i w₂ heq
      split_ifs at hpack
      obtain rfl := Option.some.inj hpack
      obtain rfl := congrArg Prod.fst heq
      have hframe := (reshapeImage_frame env w₁ c tag r).1
      refine Displayed.enlist ?_ ?_ ?_ ?_ hc.2
      · rw [hframe]
        exact h₁.zorder
      · exact proper_reshapeImage h₁.proper
      · intro a ha hm hleft
        rw [reshapeImage_others env w₁ c tag r ha]
        rw [Wm.order, hframe] at hm
        exact h₁.hidden a hm hleft
      · rw [hframe, hstill.z]
        exact hc.1
  | winctl e img =>
    obtain rfl := Option.some.inj hstep
    cases img with
    | none => cases hp
    | some newr =>
      obtain rfl := Option.some.inj hp
      refine Displayed.replaceAll ?_ _ _
      exact h.frame (still_told _ _).z (still_told _ _).wins
  | opened | join | key | pointer => cases hp

/-- A turn that does not pack keeps it. -/
theorem unpacked_displayed (hacc : ∀ n, env.accepts n = true) (h : Displayed s.wm s.left)
    (hw : Unpacked env s e w) : Displayed w s.left := by
  cases hw with
  | still hstill => exact h.still hstill
  | opened =>
    obtain ⟨l, hl, hanch⟩ := h.zorder
    have horder : s.wm.order = l := hl.listed.order_eq
    refine ⟨⟨l, hl.opened, hanch⟩, ?_, ?_⟩
    · intro a
      simp only [addclient, Function.update_apply]
      split_ifs
      · exact ⟨List.nodup_nil, fun _ hm => absurd hm List.not_mem_nil⟩
      · exact h.proper a
    · intro a ha hleft
      have horder' : ∀ id, (s.wm.addclient id).order = l := fun _ => hl.opened.listed.order_eq
      rw [horder', ← horder] at ha
      simp only [addclient, Function.update_apply]
      split_ifs
      · rfl
      · exact h.hidden a ha hleft
  | @reshape c data ptr w₁ tag r hc hcall hpack =>
    have hstill := Still.reshapeCall hcall
    have h₁ := h.still hstill
    have hframe := (reshapeImage_frame env w₁ c tag r).1
    rcases reshape_unpacked hpack with ⟨err, herr⟩ | ⟨-, -, heq⟩
    · have hclient := reshapeImage_refused hacc herr
      rw [herr] at hframe
      exact h₁.frame hframe fun a => congrArg (fun f => (f a).wins) hclient
    · rw [heq]
      refine Displayed.enlist ?_ (proper_reshapeImage h₁.proper) ?_ ?_ hc.2
      · rw [hframe]
        exact h₁.zorder
      · intro a ha hm hleft
        rw [reshapeImage_others env w₁ c tag r ha]
        rw [Wm.order, hframe] at hm
        exact h₁.hidden a hm hleft
      · rw [hframe, hstill.z]
        exact hc.1
  | @delete c data ptr tag args w hdata hstill =>
    refine Displayed.still ?_ hstill
    refine ⟨h.zorder, ?_, ?_⟩
    · intro a
      by_cases hac : a = c
      · subst hac
        rw [put_self]
        exact Client.proper_dropwin (h.proper a)
      · rw [put_of_ne hac]
        exact h.proper a
    · intro a ha hleft
      have hwins := h.hidden a ha hleft
      by_cases hac : a = c
      · subst hac
        rw [put_self, Client.dropwin_wins (h.proper a), hwins, List.filter_nil]
      · rw [put_of_ne hac, hwins]

/-- A turn that does not pack keeps the rows tiled, if it leaves alone those it must. -/
theorem unpacked_tiled (henv : env.Willing) (h : Displayed s.wm s.left)
    (htiled : Tiled s.wm.screen s.wm.rows) (hsafe : RowSafe env s e) (hw : Unpacked env s e w) :
    Tiled w.screen w.rows := by
  cases hw with
  | still hstill => exact tiled_still htiled hstill
  | opened =>
    obtain ⟨l, hl, -⟩ := h.zorder
    have horder : s.wm.order = l := hl.listed.order_eq
    have horder' : ∀ id, (s.wm.addclient id).order = l := fun _ => hl.opened.listed.order_eq
    have hrows : ∀ id, (s.wm.addclient id).rows = s.wm.rows := by
      intro id
      refine rows_congr ((horder' id).trans horder.symm) ?_
      intro a ha
      have hbound := hl.listed.bound a (horder ▸ ha)
      simp only [addclient]
      rw [Function.update_of_ne (Nat.ne_of_lt hbound)]
    rw [hrows]
    exact htiled
  | @reshape c data ptr w₁ tag r hc hcall hpack =>
    have hstill := Still.reshapeCall hcall
    have hstays := hsafe.2.1 (c, w₁, tag, r) (by rw [reshaping, hcall]; rfl)
    have hwilling := reshapeImage_willing henv w₁ c tag r
    rcases reshape_unpacked hpack with ⟨err, herr⟩ | ⟨-, hsame, heq⟩
    · rw [herr] at hwilling
      cases hwilling
    · have hrows := rows_reshapeImage env (h.still hstill) (hstill.z ▸ hc.1) hc.2 hstays
        hsame
      rw [heq, enlist_screen, (reshapeImage_frame env w₁ c tag r).2, hrows]
      exact tiled_still htiled hstill
  | @delete c data ptr tag args w hdata hstill =>
    refine tiled_still (tiled_dropwin h htiled ?_) hstill
    intro hdot
    refine hsafe.2.2 c ?_
    rw [Event.deletesRow, hdata, hdot]
    rfl

theorem step_displayed (hacc : ∀ n, env.accepts n = true) (h : Displayed s.wm s.left)
    (hstep : s.step .rowwm env e = some s') : Displayed s'.wm s'.left := by
  cases hp : s.packing env e with
  | none =>
    rw [step_left hstep hp]
    exact unpacked_displayed hacc h (step_unpacked hstep hp)
  | some w => exact ((packing_displayed h hstep hp).packWindows w.screen).still (step_packed hstep hp)

/-- What a turn does to the rows: they tile the screen. -/
theorem step_tiled (henv : env.Willing) (h : Displayed s.wm s.left)
    (htiled : Tiled s.wm.screen s.wm.rows) (hsafe : RowSafe env s e)
    (hstep : s.step .rowwm env e = some s') : Tiled s'.wm.screen s'.wm.rows := by
  cases hp : s.packing env e with
  | none => exact unpacked_tiled henv h htiled hsafe (step_unpacked hstep hp)
  | some w =>
    have hw := packing_displayed h hstep hp
    refine tiled_still ?_ (step_packed hstep hp)
    rw [packWindows_screen]
    exact (packWindows_tiled_iff w.screen hw.packed.nodup).mpr (hsafe.1 w hp)

theorem start_displayed : Displayed (start screen).wm (start screen).left where
  zorder := ⟨[], Standing.empty, by rintro _ ⟨⟩⟩
  proper := fun _ => ⟨List.nodup_nil, fun _ hm => absurd hm List.not_mem_nil⟩
  hidden := fun _ _ _ => rfl

theorem start_tiled : Tiled (start screen).wm.screen (start screen).wm.rows where
  tiles := ⟨screen.min.y, rfl⟩
  wide := fun _ hr => absurd hr List.not_mem_nil

/-- In every run of `rowwm` that takes none of the wrong turns, where windows can be created
and images are accepted, the rows tile the screen from the top, each across its whole width;
so rows that are not upside down do not overlap. -/
theorem rows_tile (henv : env.Willing)
    (h : Run (Guarded (RowSafe env) (StepOf (step .rowwm env))) (start screen) es s) :
    Tiled s.wm.screen s.wm.rows ∧
      ((∀ r ∈ s.wm.rows, r.min.y ≤ r.max.y) →
        s.wm.rows.Pairwise fun r r' => r.max.y ≤ r'.min.y) := by
  have htiled := (h.invariant (I := fun s => Displayed s.wm s.left ∧ Tiled s.wm.screen s.wm.rows)
    ⟨start_displayed, start_tiled⟩
    fun s e t ⟨hs, ht⟩ ⟨hsafe, hstep⟩ =>
      ⟨step_displayed henv.accepts hs hstep, step_tiled henv hs ht hsafe hstep⟩).2
  refine ⟨htiled, ?_⟩
  intro hle
  obtain ⟨hi, htiles⟩ := htiled.tiles
  have hpairwise := htiles.pairwise fun i hi => by
    obtain ⟨r, hr, rfl⟩ := List.mem_map.mp hi
    exact hle r hr
  rwa [List.pairwise_map] at hpairwise

/-- Two rows, of which the first gets another height and moves the second one down. -/
theorem rows_tile_two :
    ∃ s, Run (Guarded (RowSafe default) (StepOf (step .rowwm default)))
        (start ⟨⟨0, 0⟩, ⟨196, 400⟩⟩)
        (showRow 0 ++ showRow 1 ++ [.request 0 "!reshape . -1 0 0 196 40" []]) s ∧
      s.wm.rows = [⟨⟨0, 0⟩, ⟨196, 40⟩⟩, ⟨⟨0, 40⟩, ⟨196, 60⟩⟩] ∧
      Tiled ⟨⟨0, 0⟩, ⟨196, 400⟩⟩ s.wm.rows := by
  obtain ⟨s, hrun, hrows, hscreen⟩ :
      ∃ s, Run (Guarded (RowSafe default) (StepOf (step .rowwm default)))
          (start ⟨⟨0, 0⟩, ⟨196, 400⟩⟩)
          (showRow 0 ++ showRow 1 ++ [.request 0 "!reshape . -1 0 0 196 40" []]) s ∧
        s.wm.rows = [⟨⟨0, 0⟩, ⟨196, 40⟩⟩, ⟨⟨0, 40⟩, ⟨196, 60⟩⟩] ∧
        s.wm.screen = ⟨⟨0, 0⟩, ⟨196, 400⟩⟩ :=
    Run.exists_of_execGuarded (by decide +kernel)
  have htiled := (rows_tile ⟨fun _ => rfl, fun _ => rfl⟩ hrun).1
  rw [hscreen] at htiled
  exact ⟨s, hrun, hrows, htiled⟩

/-- Two rows of height twenty; the first takes its window away, and the second stays where
it is. -/
theorem delete_leaves_gap :
    ∃ s, Run (StepOf (step .rowwm default)) (start ⟨⟨0, 0⟩, ⟨196, 400⟩⟩)
        (showRow 0 ++ showRow 1 ++ [.request 0 "delete ." []]) s ∧
      s.wm.rows = [⟨⟨0, 20⟩, ⟨196, 40⟩⟩] ∧ ¬ Tiled s.wm.screen s.wm.rows := by
  obtain ⟨s, hrun, hrows, hscreen⟩ :
      ∃ s, Run (StepOf (step .rowwm default)) (start ⟨⟨0, 0⟩, ⟨196, 400⟩⟩)
          (showRow 0 ++ showRow 1 ++ [.request 0 "delete ." []]) s ∧
        s.wm.rows = [⟨⟨0, 20⟩, ⟨196, 40⟩⟩] ∧ s.wm.screen = ⟨⟨0, 0⟩, ⟨196, 400⟩⟩ :=
    Run.exists_of_exec (by decide +kernel)
  refine ⟨s, hrun, hrows, ?_⟩
  rw [hrows, hscreen]
  rintro ⟨⟨hi, hfirst, -⟩, -⟩
  exact absurd hfirst (by decide)

end Session

end Aimsgui
