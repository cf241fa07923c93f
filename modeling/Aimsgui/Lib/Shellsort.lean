import Mathlib.Data.List.Sort

/-!
# Gapped insertion

One pass of a shell sort: from the end of an array to its start, every element moves past the
smaller ones among those that come `m`, `2 * m`, … places after it. A pass keeps the elements
(`pass_perm`), whatever `m` is; with `m = 1` it is an insertion sort (`pass_one`).
-/

universe u v

namespace Shellsort

variable {α : Type u} {β : Type v} [LinearOrder β] (key : α → β)

/-- The inner loop: `tmp` goes down the array from the place `m` before `j`. The first argument
bounds the number of steps. -/
def shift (m : Nat) (tmp : α) : Nat → List α → Nat → List α
  | 0, a, j => a.set (j - m) tmp
  | n + 1, a, j =>
    match a[j]? with
    | some x =>
      if key x < key tmp then shift m tmp n (a.set (j - m) x) (j + m) else a.set (j - m) tmp
    | none => a.set (j - m) tmp

/-- The middle loop, at one place. -/
def insert (m i : Nat) (a : List α) : List α :=
  match a[i]? with
  | some tmp => shift key m tmp a.length a (i + m)
  | none => a

/-- The middle loop, from the last place that has another one `m` places later. -/
def pass (m : Nat) (a : List α) : List α :=
  (List.range (a.length - m)).foldr (insert key m) a

variable {m i j n : Nat} {a : List α} {x : α}

/-! ## The elements -/

/-- What a step of the inner loop does is to swap `tmp` with the next element. -/
theorem set_set_perm_set {tmp : α} (hm : 0 < m) (hmj : m ≤ j) (hj : j < a.length) :
    ((a.set (j - m) a[j]).set j tmp).Perm (a.set (j - m) tmp) := by
  have hlt : j - m < (a.set (j - m) tmp).length := by
    rw [List.length_set]
    omega
  have hj' : j < (a.set (j - m) tmp).length := by rwa [List.length_set]
  have hswap := List.set_set_perm hlt hj'
  rwa [List.getElem_set_self, List.getElem_set_ne (by omega), List.set_set] at hswap

theorem shift_perm (tmp : α) (hm : 0 < m) (n : Nat) (a : List α) (j : Nat) (hmj : m ≤ j) :
    (shift key m tmp n a j).Perm (a.set (j - m) tmp) := by
  induction n generalizing a j with
  | zero => exact List.Perm.refl _
  | succ n ih =>
    rw [shift]
    cases hx : a[j]? with
    | none => exact List.Perm.refl _
    | some x =>
      obtain ⟨hj, rfl⟩ := List.getElem?_eq_some_iff.mp hx
      dsimp only
      split_ifs
      · refine (ih (a.set (j - m) a[j]) (j + m) (Nat.le_add_left _ _)).trans ?_
        rw [Nat.add_sub_cancel]
        exact set_set_perm_set hm hmj hj
      · exact List.Perm.refl _

theorem insert_perm (hm : 0 < m) : (insert key m i a).Perm a := by
  rw [insert]
  cases hx : a[i]? with
  | none => exact List.Perm.refl _
  | some x =>
    obtain ⟨hi, rfl⟩ := List.getElem?_eq_some_iff.mp hx
    have hset := shift_perm key a[i] hm a.length a (i + m) (Nat.le_add_left _ _)
    rwa [Nat.add_sub_cancel, List.set_getElem_self] at hset

/-- A pass moves the elements around. -/
theorem pass_perm (hm : 0 < m) : (pass key m a).Perm a := by
  rw [pass]
  generalize a.length - m = k
  induction k generalizing a with
  | zero => exact List.Perm.refl _
  | succ k ih =>
    rw [List.range_succ, List.foldr_append]
    exact ih.trans (insert_perm key hm)

/-! ## The last pass -/

theorem set_length (pre rest : List α) (x y : α) :
    (pre ++ x :: rest).set pre.length y = pre ++ y :: rest := by
  rw [List.set_append_right _ _ (Nat.le_refl _), Nat.sub_self]
  rfl

/-- With neighbours, the inner loop inserts `tmp` into what follows. -/
theorem shift_one (tmp : α) (pre rest : List α) (h : rest.length ≤ n) :
    shift key 1 tmp n (pre ++ x :: rest) (pre.length + 1) =
      pre ++ rest.orderedInsert (fun a b => key a ≤ key b) tmp := by
  induction rest generalizing n pre x with
  | nil =>
    cases n with
    | zero => exact set_length pre [] x tmp
    | succ n =>
      have hnone : (pre ++ [x])[pre.length + 1]? = none := by simp
      rw [shift, hnone]
      exact set_length pre [] x tmp
  | cons y rest ih =>
    cases n with
    | zero => exact absurd h (Nat.not_succ_le_zero _)
    | succ n =>
      have hnext : (pre ++ x :: y :: rest)[pre.length + 1]? = some y := by simp
      rw [shift, hnext, List.orderedInsert_cons]
      dsimp only
      rw [Nat.add_sub_cancel, set_length, set_length]
      by_cases hlt : key y < key tmp
      · -- `y` takes the place before it, and `tmp` goes on from its place
        have hstep := ih (pre ++ [y]) (x := y) (Nat.le_of_succ_le_succ h)
        rw [if_pos hlt, if_neg (not_le_of_gt hlt)]
        simpa using hstep
      · rw [if_neg hlt, if_pos (not_lt.mp hlt)]

/-- At every place, what follows is sorted already. -/
theorem insert_one {k : Nat} (hk : k < a.length) :
    insert key 1 k (a.take (k + 1) ++ (a.drop (k + 1)).insertionSort fun a b => key a ≤ key b) =
      a.take k ++ (a.drop k).insertionSort fun a b => key a ≤ key b := by
  have htake : a.take (k + 1) = a.take k ++ [a[k]] := (List.take_append_getElem hk).symm
  have hlen : (a.take k).length = k := List.length_take_of_le (Nat.le_of_lt hk)
  rw [htake, List.drop_eq_getElem_cons hk, List.insertionSort_cons, List.append_assoc,
    List.singleton_append]
  generalize hrest : (a.drop (k + 1)).insertionSort (fun a b => key a ≤ key b) = rest
  have hget : (a.take k ++ a[k] :: rest)[k]? = some a[k] := by
    rw [List.getElem?_append_right (Nat.le_of_eq hlen), hlen, Nat.sub_self]
    rfl
  rw [insert, hget]
  have hstep := shift_one (x := a[k])
    (n := (a.take k ++ a[k] :: rest).length) key a[k] (a.take k) rest ?_
  · rwa [hlen] at hstep
  · simp
    omega

/-- A pass over neighbours sorts. -/
theorem pass_one : pass key 1 a = a.insertionSort fun a b => key a ≤ key b := by
  have hfold : ∀ k ≤ a.length, (List.range k).foldr (insert key 1)
      (a.take k ++ (a.drop k).insertionSort fun a b => key a ≤ key b) =
        a.insertionSort fun a b => key a ≤ key b := by
    intro k
    induction k with
    | zero => exact fun _ => rfl
    | succ k ih =>
      intro hk
      rw [List.range_succ, List.foldr_append, List.foldr_cons, List.foldr_nil, insert_one key hk]
      exact ih (Nat.le_of_succ_le hk)
  rw [pass]
  rcases a.eq_nil_or_concat with rfl | ⟨l, x, rfl⟩
  · rfl
  · -- the last element alone is sorted
    have hlast := hfold l.length (by simp)
    simpa using hlast

/-- So the last pass sorts, whatever the passes before it have done. -/
theorem pass_one_sorted : (pass key 1 a).Pairwise (key · ≤ key ·) := by
  have : Std.Total fun a b : α => key a ≤ key b := ⟨fun a b => le_total (key a) (key b)⟩
  have : IsTrans α fun a b => key a ≤ key b := ⟨fun _ _ _ => le_trans⟩
  rw [pass_one]
  exact List.pairwise_insertionSort _ a

end Shellsort
