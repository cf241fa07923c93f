import Aimsgui.Winplace
import Aimsgui.Lib.Gaps

/-!
# The windows that the line crosses

The line stops at the ends of the windows in order (`sortcoords_sorted`). At every
stop the array of the ends of the windows that it crosses, in the other direction, is in
order too (`Crosses`): `addwin` puts in two ends, and `removewin` finds them and takes
them out. Neither leaves the array or panics.
-/

namespace Aimsgui.Winplace

open Slices

variable {a l : List Delta} {wr : List Rect} {lay : Lay} {m n : Nat}

/-! ## The stops -/

theorem gap_pos (m : Nat) : 0 < gap m := by
  rw [gap]
  split_ifs
  · exact Nat.one_pos
  · omega

theorem gap_lt (h : 1 < m) : gap m < m := by
  rw [gap]
  split_ifs
  · exact h
  · omega

/-- A pass moves the ends about and loses none. -/
theorem passes_perm (n m : Nat) (a : List Delta) : (passes n m a).Perm a := by
  induction n generalizing m a with
  | zero => exact List.Perm.refl _
  | succ n ih =>
    rw [passes]
    split_ifs
    · exact (ih _ _).trans (Shellsort.pass_perm _ (gap_pos m))
    · exact List.Perm.refl _

/-- The last pass compares neighbours. -/
theorem passes_sorted (hm : 1 < m) (hn : m ≤ n) (a : List Delta) :
    (passes n m a).Pairwise (·.coord ≤ ·.coord) := by
  induction n generalizing m a with
  | zero => exact absurd (Nat.lt_of_lt_of_le hm hn) (Nat.not_lt_zero _)
  | succ n ih =>
    rw [passes, if_pos hm]
    have hlt := gap_lt hm
    rcases Nat.lt_or_ge 1 (gap m) with hgap | hgap
    · exact ih hgap (by omega) _
    · have hone : gap m = 1 := Nat.le_antisymm hgap (gap_pos m)
      rw [hone]
      have hlast : ∀ a : List Delta, passes n 1 a = a := by
        intro a
        cases n <;> rfl
      rw [hlast]
      exact Shellsort.pass_one_sorted Delta.coord

theorem sortdelta_perm (a : List Delta) : (sortdelta a).Perm a := passes_perm _ _ a

/-- The last pass is one with neighbours. -/
theorem sortdelta_sorted (a : List Delta) : (sortdelta a).Pairwise (·.coord ≤ ·.coord) := by
  rw [sortdelta]
  rcases Nat.lt_or_ge 1 a.length with hlen | hlen
  · exact passes_sorted hlen (Nat.le_refl _) a
  · cases a with
    | nil => exact List.Pairwise.nil
    | cons e a =>
      cases a with
      | nil => exact List.pairwise_singleton _ e
      | cons e' a => exact absurd hlen (by simp)

/-- The window of an index. -/
def win (wr : List Rect) (i : Nat) : Rect := wr.getD i default

theorem getElem?_eq_win {i : Nat} (hi : i < wr.length) : wr[i]? = some (win wr i) := by
  rw [win, List.getD_eq_getElem?_getD, List.getElem?_eq_getElem hi]
  rfl

/-- The line stops at both ends of every window. -/
theorem sortcoords_perm (wr : List Rect) (lay : Lay) :
    (sortcoords wr lay).Perm (Gaps.ends (fun i => ⟨1, i, lay.x (win wr i).min⟩)
      (fun i => ⟨-1, i, lay.x (win wr i).max⟩) (List.range wr.length)) := by
  have hzip : wr.zipIdx = (List.range wr.length).map fun i => (win wr i, i) := by
    refine List.ext_getElem (by simp) fun i hi _ => ?_
    rw [List.length_zipIdx] at hi
    simp [win, hi]
  rw [sortcoords, hzip, List.flatMap_map, Gaps.ends]
  exact sortdelta_perm _

theorem sortcoords_sorted (wr : List Rect) (lay : Lay) :
    (sortcoords wr lay).Pairwise (·.coord ≤ ·.coord) :=
  sortdelta_sorted _

/-! ## Finding an end -/

/-- What is found is the end that was looked for. -/
theorem run_eq_some {df : Delta} {k : Nat} (h : run df l = some k) : l[k]? = some df := by
  induction l generalizing k with
  | nil => cases h
  | cons e l ih =>
    rw [run] at h
    split_ifs at h with hcoord he
    · obtain rfl := Option.some.inj h
      exact congrArg some he
    · obtain ⟨j, hj, rfl⟩ := Option.map_eq_some_iff.mp h
      exact ih hj

/-- It is found if nothing before it has another coordinate. -/
theorem run_isSome {df : Delta} {k : Nat} (hk : l[k]? = some df)
    (hcoord : ∀ j ≤ k, ∀ e ∈ l[j]?, e.coord = df.coord) : (run df l).isSome := by
  induction l generalizing k with
  | nil => cases hk
  | cons e l ih =>
    rw [run, if_pos (hcoord 0 (Nat.zero_le _) e rfl)]
    split_ifs with he
    · rfl
    · cases k with
      | zero => exact absurd (Option.some.inj hk) he
      | succ k =>
        rw [Option.isSome_map]
        exact ih hk fun j hj e he => hcoord (j + 1) (Nat.succ_le_succ hj) e he

/-- The ends before the index are not behind the coordinate, those from it on are not before it. -/
theorem findcoord_splits (hsorted : l.Pairwise (·.coord ≤ ·.coord)) (junk : List Delta)
    (coord : Int) : Bisect.Splits Delta.coord coord l (findcoord (l ++ junk) l.length coord) :=
  Bisect.search_all hsorted

theorem getElem?_reverse_take {k idx : Nat} (hidx : idx ≤ l.length) (hk : k < idx) :
    (l.take idx).reverse[k]? = l[idx - 1 - k]? := by
  have hlen : (l.take idx).length = idx := List.length_take_of_le hidx
  rw [List.getElem?_reverse (by omega), hlen, List.getElem?_take_of_lt (by omega)]

/-- An end that is there is found. -/
theorem finddelta_eq_some (hsorted : l.Pairwise (·.coord ≤ ·.coord)) (junk : List Delta)
    {df : Delta} (hdf : df ∈ l) :
    ∃ i, finddelta (l ++ junk) l.length df = some i ∧ l[i]? = some df := by
  have hsplits := findcoord_splits hsorted junk df.coord
  rw [finddelta, List.take_left]
  generalize findcoord (l ++ junk) l.length df.coord = idx at hsplits ⊢
  rw [List.take_append_of_le_length hsplits.le]
  have hmono : ∀ i j (hi : i < l.length) (hj : j < l.length), i ≤ j → l[i].coord ≤ l[j].coord := by
    intro i j hi hj hij
    rcases Nat.lt_or_eq_of_le hij with hij | rfl
    · exact List.pairwise_iff_getElem.mp hsorted i j hi hj hij
    · exact le_rfl
  cases hup : run df (l.drop idx) with
  | some k =>
    have hk := run_eq_some hup
    rw [List.getElem?_drop] at hk
    exact ⟨idx + k, rfl, hk⟩
  | none =>
    obtain ⟨p, hp, hget⟩ := List.mem_iff_getElem.mp hdf
    have hbefore : p < idx := by
      by_contra hge
      -- then it is among the first that come at `idx` and after it
      have hsome : (run df (l.drop idx)).isSome := by
        refine run_isSome (k := p - idx) ?_ ?_
        · rw [List.getElem?_drop, Nat.add_sub_cancel' (Nat.le_of_not_lt hge),
            List.getElem?_eq_getElem hp, hget]
        · intro j hj e he
          rw [List.getElem?_drop] at he
          obtain ⟨hlt, rfl⟩ := List.getElem?_eq_some_iff.mp he
          refine le_antisymm ?_ (hsplits.after _ hlt (Nat.le_add_right _ _))
          exact (hmono _ p hlt hp (by omega)).trans (congrArg Delta.coord hget).le
      rw [hup] at hsome
      cases hsome
    have hsome : (run df (l.take idx).reverse).isSome := by
      refine run_isSome (k := idx - 1 - p) ?_ ?_
      · rw [getElem?_reverse_take hsplits.le (by omega),
          show idx - 1 - (idx - 1 - p) = p by omega, List.getElem?_eq_getElem hp, hget]
      · intro j hj e he
        rw [getElem?_reverse_take hsplits.le (by omega)] at he
        obtain ⟨hlt, rfl⟩ := List.getElem?_eq_some_iff.mp he
        refine le_antisymm (hsplits.before _ hlt (by omega)) ?_
        exact (congrArg Delta.coord hget).ge.trans (hmono p _ hp hlt (by omega))
    obtain ⟨k, hk⟩ := Option.isSome_iff_exists.mp hsome
    have hfound := run_eq_some hk
    have hlt : k < idx := by
      obtain ⟨hlt, -⟩ := List.getElem?_eq_some_iff.mp hfound
      rw [List.length_reverse, List.length_take_of_le hsplits.le] at hlt
      exact hlt
    rw [getElem?_reverse_take hsplits.le hlt] at hfound
    exact ⟨idx - 1 - k, by rw [hk]; rfl, hfound⟩

/-! ## The ends that the line crosses -/

/-- The first `nd` elements of `d` are the ends of the windows `act`, in order. -/
def Crosses (lo hi : Nat → Int) (act : List Nat) (d : List Delta) (nd : Nat) : Prop :=
  ∃ l junk, d = l ++ junk ∧ nd = l.length ∧ l.Pairwise (·.coord ≤ ·.coord) ∧
    l.Perm (Gaps.ends (fun i => ⟨1, i, lo i⟩) (fun i => ⟨-1, i, hi i⟩) act)

variable {lo hi : Nat → Int} {act : List Nat} {d : List Delta} {nd w : Nat}

theorem Crosses.perm {act' : List Nat} (h : Crosses lo hi act d nd) (hact : act'.Perm act) :
    Crosses lo hi act' d nd := by
  obtain ⟨l, junk, hd, hnd, hsorted, hperm⟩ := h
  exact ⟨l, junk, hd, hnd, hsorted, hperm.trans (hact.symm.flatMap_right _)⟩

theorem Crosses.length (h : Crosses lo hi act d nd) : nd = 2 * act.length := by
  obtain ⟨l, junk, -, rfl, -, hperm⟩ := h
  rw [hperm.length_eq, Gaps.length_ends]

theorem perm_front (A B C : List Delta) (p q : Delta) :
    (A ++ p :: B ++ q :: C).Perm (p :: q :: (A ++ B ++ C)) := by
  have hinner : (A ++ B ++ q :: C).Perm (q :: (A ++ B ++ C)) := List.perm_middle
  rw [List.append_assoc] at hinner
  rw [List.append_assoc, List.cons_append]
  exact List.perm_middle.trans (hinner.cons _)

/-- Elements at the start of a list that is longer than another by as many. -/
theorem exists_cons_append (C : List Delta) (a : Delta) :
    ∃ x Q, C ++ [a] = x :: Q ∧ Q.length = C.length := by
  cases C with
  | nil => exact ⟨a, [], rfl, rfl⟩
  | cons x C => exact ⟨x, C ++ [a], rfl, by simp⟩

/-- How `addwin` puts in two elements. -/
theorem blits (A B C junk : List Delta) (p q a b : Delta) :
    (do
      let d ← blit (A ++ B ++ C ++ a :: b :: junk) ((A ++ B).length + 2)
        (← slice (A ++ B ++ C ++ a :: b :: junk) (A ++ B).length (A ++ B ++ C).length)
      let d ← blit d ((A ++ B).length + 1) [q]
      let d ← blit d (A.length + 1) (← slice d A.length (A ++ B).length)
      let d ← blit d A.length [p]
      return (d, (A ++ B ++ C).length + 2)) =
      some (A ++ p :: B ++ q :: C ++ junk, (A ++ B ++ C).length + 2) := by
  obtain ⟨x, Q', hx, hQ'⟩ := exists_cons_append C a
  obtain ⟨x', Q, hx', hQ⟩ := exists_cons_append Q' b
  obtain ⟨y, R, hy, hR⟩ := exists_cons_append B x
  have hlist : A ++ B ++ C ++ a :: b :: junk = (A ++ B ++ [x, x']) ++ Q ++ junk := by
    have hfront : C ++ [a] ++ [b] = x :: x' :: Q := by rw [hx, List.cons_append, hx']
    calc A ++ B ++ C ++ a :: b :: junk = A ++ B ++ (C ++ [a] ++ [b]) ++ junk := by simp
      _ = (A ++ B ++ [x, x']) ++ Q ++ junk := by rw [hfront]; simp
  have h₁ : slice (A ++ B ++ C ++ a :: b :: junk) (A ++ B).length (A ++ B ++ C).length = some C :=
    slice_mid _ _ _
  have h₂ : blit (A ++ B ++ C ++ a :: b :: junk) ((A ++ B).length + 2) C =
      some (A ++ B ++ [x, x'] ++ C ++ junk) := by
    rw [hlist]
    simpa [Nat.add_assoc] using blit_mid (A ++ B ++ [x, x']) Q junk (hQ.trans hQ')
  have h₃ : blit (A ++ B ++ [x, x'] ++ C ++ junk) ((A ++ B).length + 1) [q] =
      some (A ++ B ++ [x] ++ [q] ++ (C ++ junk)) := by
    have hlen : [x'].length = [q].length := rfl
    simpa [Nat.add_assoc] using blit_mid (A ++ B ++ [x]) [x'] (C ++ junk) hlen
  have h₄ : slice (A ++ B ++ [x] ++ [q] ++ (C ++ junk)) A.length (A ++ B).length = some B := by
    simpa using slice_mid A B ([x] ++ [q] ++ (C ++ junk))
  have h₅ : blit (A ++ B ++ [x] ++ [q] ++ (C ++ junk)) (A.length + 1) B =
      some (A ++ [y] ++ B ++ (q :: C ++ junk)) := by
    have hlist' : A ++ B ++ [x] ++ [q] ++ (C ++ junk) = (A ++ [y]) ++ R ++ (q :: C ++ junk) := by
      calc A ++ B ++ [x] ++ [q] ++ (C ++ junk) = A ++ (B ++ [x]) ++ (q :: C ++ junk) := by simp
        _ = (A ++ [y]) ++ R ++ (q :: C ++ junk) := by rw [hy]; simp
    rw [hlist']
    simpa using blit_mid (A ++ [y]) R (q :: C ++ junk) hR
  have h₆ : blit (A ++ [y] ++ B ++ (q :: C ++ junk)) A.length [p] =
      some (A ++ p :: B ++ q :: C ++ junk) := by
    have hlen : [y].length = [p].length := rfl
    simpa using blit_mid A [y] (B ++ (q :: C ++ junk)) hlen
  simp only [h₁, h₂, h₃, h₄, h₅, h₆, Option.bind_eq_bind, Option.bind_some, Option.pure_def]

/-- The line crosses another window. -/
theorem addwin_crosses (h : Crosses lo hi act d nd) (hroom : nd + 2 ≤ d.length)
    (hlt : lo w < hi w) :
    ∃ d', addwin d nd w (lo w) (hi w) = some (d', nd + 2) ∧ d'.length = d.length ∧
      Crosses lo hi (w :: act) d' (nd + 2) := by
  obtain ⟨l, junk, rfl, rfl, hsorted, hperm⟩ := h
  obtain ⟨a, b, junk, rfl⟩ : ∃ a b junk', junk = a :: b :: junk' := by
    rw [List.length_append] at hroom
    cases junk with
    | nil => exact absurd hroom (by simp)
    | cons a junk =>
      cases junk with
      | nil => exact absurd hroom (by simp)
      | cons b junk => exact ⟨a, b, junk, rfl⟩
  have hmin := findcoord_splits hsorted (a :: b :: junk) (lo w)
  have hmax := findcoord_splits hsorted (a :: b :: junk) (hi w)
  rw [addwin]
  generalize findcoord (l ++ a :: b :: junk) l.length (lo w) = i at hmin ⊢
  generalize findcoord (l ++ a :: b :: junk) l.length (hi w) = j at hmax ⊢
  have hij : i ≤ j := by
    by_contra hji
    have hj : j < l.length := by
      have := hmin.le
      omega
    have hle := (hmax.after j hj (Nat.le_refl _)).trans (hmin.before j hj (by omega))
    exact absurd hlt (not_lt.mpr hle)
  have htake : l.take i ++ (l.take j).drop i = l.take j := by
    have hdrop := List.take_append_drop i (l.take j)
    rwa [List.take_take, Nat.min_eq_left hij] at hdrop
  obtain ⟨A, B, C, rfl, rfl, rfl⟩ :
      ∃ A B C, l = A ++ B ++ C ∧ i = A.length ∧ j = (A ++ B).length := by
    refine ⟨l.take i, (l.take j).drop i, l.drop j, ?_, ?_, ?_⟩
    · rw [htake, List.take_append_drop]
    · rw [List.length_take_of_le hmin.le]
    · rw [htake, List.length_take_of_le hmax.le]
  refine ⟨A ++ ⟨1, w, lo w⟩ :: B ++ ⟨-1, w, hi w⟩ :: C ++ junk, blits A B C junk _ _ a b, ?_,
    A ++ ⟨1, w, lo w⟩ :: B ++ ⟨-1, w, hi w⟩ :: C, junk, rfl, ?_, ?_, ?_⟩
  · simp
    omega
  · simp
    omega
  · have hinner : (A ++ B ++ ⟨-1, w, hi w⟩ :: C).Pairwise (·.coord ≤ ·.coord) := by
      refine Bisect.sorted_insert hsorted (fun e he => hmax.mem_take ?_) fun e he => hmax.mem_drop ?_
      · rwa [List.take_left]
      · rwa [List.drop_left]
    rw [List.append_assoc] at hinner
    rw [List.append_assoc, List.cons_append]
    refine Bisect.sorted_insert hinner (fun e he => hmin.mem_take ?_) fun e he => ?_
    · rwa [List.append_assoc, List.take_left]
    · have hdrop : ∀ e ∈ B ++ C, lo w ≤ e.coord := by
        intro e he
        refine hmin.mem_drop ?_
        rwa [List.append_assoc, List.drop_left]
      rcases List.mem_append.mp he with he | he
      · exact hdrop e (List.mem_append_left _ he)
      · rcases List.mem_cons.mp he with rfl | he
        · exact hlt.le
        · exact hdrop e (List.mem_append_right _ he)
  · exact (perm_front A B C _ _).trans ((hperm.cons _).cons _)

theorem eq_take_append_drop {x : Delta} {i : Nat} (h : l[i]? = some x) :
    i < l.length ∧ l = l.take i ++ x :: l.drop (i + 1) := by
  obtain ⟨hi, rfl⟩ := List.getElem?_eq_some_iff.mp h
  refine ⟨hi, ?_⟩
  rw [← List.drop_eq_getElem_cons hi, List.take_append_drop]

theorem exists_append_singleton (B : List Delta) (p : Delta) :
    ∃ Q z, p :: B = Q ++ [z] ∧ Q.length = B.length := by
  induction B generalizing p with
  | nil => exact ⟨[], p, rfl, rfl⟩
  | cons x B ih =>
    obtain ⟨Q, z, hQ, hlen⟩ := ih x
    exact ⟨p :: Q, z, by rw [hQ, List.cons_append], by simp [hlen]⟩

/-- How `removewin` takes out two elements. -/
theorem unblits (A B C junk : List Delta) (p q : Delta) :
    ∃ junk', junk'.length = junk.length + 2 ∧ (do
      let d ← blit (A ++ p :: B ++ q :: C ++ junk) A.length
        (← slice (A ++ p :: B ++ q :: C ++ junk) (A.length + 1) (A ++ p :: B).length)
      let d ← blit d ((A ++ p :: B).length - 1)
        (← slice d ((A ++ p :: B).length + 1) (A ++ p :: B ++ q :: C).length)
      return (d, (A ++ p :: B ++ q :: C).length - 2)) =
      some (A ++ B ++ C ++ junk', (A ++ B ++ C).length) := by
  obtain ⟨Q, z, hz, hQ⟩ := exists_append_singleton B p
  have h₁ : slice (A ++ p :: B ++ q :: C ++ junk) (A.length + 1) (A ++ p :: B).length = some B := by
    simpa using slice_mid (A ++ [p]) B (q :: C ++ junk)
  have h₂ : blit (A ++ p :: B ++ q :: C ++ junk) A.length B =
      some (A ++ B ++ [z, q] ++ C ++ junk) := by
    rw [hz]
    simpa using blit_mid A Q (z :: q :: C ++ junk) hQ
  have hlen : (A ++ p :: B).length + 1 = (A ++ B ++ [z, q]).length := by
    simp only [List.length_append, List.length_cons, List.length_nil]
    omega
  have hlen' : (A ++ p :: B ++ q :: C).length = (A ++ B ++ [z, q] ++ C).length := by
    simp only [List.length_append, List.length_cons, List.length_nil]
    omega
  have hlast : (A ++ p :: B).length - 1 = (A ++ B).length := by
    simp only [List.length_append, List.length_cons]
    omega
  have h₃ : slice (A ++ B ++ [z, q] ++ C ++ junk) ((A ++ p :: B).length + 1)
      (A ++ p :: B ++ q :: C).length = some C := by
    rw [hlen, hlen']
    exact slice_mid _ C junk
  have hrest : ([z, q] ++ C ++ junk).take C.length ++ ([z, q] ++ C ++ junk).drop C.length =
      [z, q] ++ C ++ junk := List.take_append_drop _ _
  have h₄ : blit (A ++ B ++ [z, q] ++ C ++ junk) ((A ++ p :: B).length - 1) C =
      some (A ++ B ++ C ++ ([z, q] ++ C ++ junk).drop C.length) := by
    rw [hlast, List.append_assoc, List.append_assoc, ← List.append_assoc [z, q], ← hrest,
      ← List.append_assoc]
    refine (blit_mid (A ++ B) (([z, q] ++ C ++ junk).take C.length) _ ?_).trans ?_
    · rw [List.length_take, Nat.min_eq_left]
      simp only [List.length_append]
      omega
    · rw [hrest]
  refine ⟨([z, q] ++ C ++ junk).drop C.length, ?_, ?_⟩
  · simp
    omega
  · simp only [h₁, h₂, h₃, h₄, Option.bind_eq_bind, Option.bind_some, Option.pure_def]
    congr 2
    simp only [List.length_append, List.length_cons]
    omega

/-- The line does not cross a window any longer. -/
theorem removewin_crosses (h : Crosses lo hi act d nd) (hw : w ∈ act) (hlt : lo w < hi w) :
    ∃ d', removewin d nd w (lo w) (hi w) = some (d', nd - 2) ∧ d'.length = d.length ∧
      Crosses lo hi (act.erase w) d' (nd - 2) := by
  obtain ⟨l, junk, rfl, rfl, hsorted, hperm⟩ := h
  have hmem : ∀ e ∈ [(⟨1, w, lo w⟩ : Delta), ⟨-1, w, hi w⟩], e ∈ l :=
    fun e he => hperm.mem_iff.mpr (List.mem_flatMap.mpr ⟨w, hw, he⟩)
  obtain ⟨i, hfirst, hi'⟩ :=
    finddelta_eq_some hsorted junk (hmem ⟨1, w, lo w⟩ List.mem_cons_self)
  obtain ⟨j, hlast, hj'⟩ :=
    finddelta_eq_some hsorted junk (hmem ⟨-1, w, hi w⟩ (List.mem_cons_of_mem _ List.mem_cons_self))
  have hij : i < j := by
    by_contra hji
    obtain ⟨hil, hgeti⟩ := List.getElem?_eq_some_iff.mp hi'
    obtain ⟨hjl, hgetj⟩ := List.getElem?_eq_some_iff.mp hj'
    have hle : l[j].coord ≤ l[i].coord := by
      rcases Nat.lt_or_eq_of_le (Nat.le_of_not_lt hji) with hlt | heq
      · exact List.pairwise_iff_getElem.mp hsorted j i hjl hil hlt
      · subst heq
        exact le_rfl
    rw [hgeti, hgetj] at hle
    exact absurd hlt (not_lt.mpr hle)
  obtain ⟨hjl, hsplit⟩ := eq_take_append_drop hj'
  have hi'' : (l.take j)[i]? = some ⟨1, w, lo w⟩ := by rw [List.getElem?_take_of_lt hij, hi']
  obtain ⟨hil, hsplit'⟩ := eq_take_append_drop hi''
  obtain ⟨A, B, C, rfl, rfl, rfl⟩ : ∃ A B C, l = A ++ ⟨1, w, lo w⟩ :: B ++ ⟨-1, w, hi w⟩ :: C ∧
      i = A.length ∧ j = (A ++ ⟨1, w, lo w⟩ :: B).length := by
    refine ⟨(l.take j).take i, (l.take j).drop (i + 1), l.drop (j + 1), ?_, ?_, ?_⟩
    · rw [← hsplit', ← hsplit]
    · rw [List.length_take_of_le (Nat.le_of_lt hil)]
    · rw [← hsplit', List.length_take_of_le (Nat.le_of_lt hjl)]
  obtain ⟨junk', hjunk, hblits⟩ := unblits A B C junk ⟨1, w, lo w⟩ ⟨-1, w, hi w⟩
  have hnd : (A ++ ⟨1, w, lo w⟩ :: B ++ ⟨-1, w, hi w⟩ :: C).length - 2 =
      (A ++ B ++ C).length := by
    simp only [List.length_append, List.length_cons]
    omega
  refine ⟨A ++ B ++ C ++ junk', ?_, ?_, A ++ B ++ C, junk', rfl, hnd, ?_, ?_⟩
  · rw [removewin, hfirst, hlast]
    simp only [Option.bind_eq_bind, Option.bind_some]
    rw [if_neg (Nat.ne_of_lt hij)]
    exact hblits.trans (congrArg (fun n => some (_, n)) hnd.symm)
  · simp only [List.length_append, List.length_cons]
    omega
  · refine hsorted.sublist ?_
    exact ((List.Sublist.refl A).append (List.sublist_cons_self _ B)).append
      (List.sublist_cons_self _ C)
  · have hends : (Gaps.ends (fun i => (⟨1, i, lo i⟩ : Delta)) (fun i => ⟨-1, i, hi i⟩) act).Perm
        (⟨1, w, lo w⟩ :: ⟨-1, w, hi w⟩ ::
          Gaps.ends (fun i => ⟨1, i, lo i⟩) (fun i => ⟨-1, i, hi i⟩) (act.erase w)) :=
      (List.perm_cons_erase hw).flatMap_right _
    have hall := ((perm_front A B C _ _).symm.trans hperm).trans hends
    exact hall.cons_inv.cons_inv

end Aimsgui.Winplace
