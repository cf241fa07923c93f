import Mathlib.Data.List.Sort

/-!
# Binary search

In an array that is sorted by a key, `search` finds a place that splits it: what comes before
has at most the key that is looked for, and what comes after at least (`search_all`). A new
element with this key may be put there (`sorted_insert`).
-/

universe u v

namespace Bisect

variable {α : Type u} {β : Type v} [LinearOrder β] (key : α → β) (c : β)

/-- The search for `c` in the places from `lo` up to `hi`, which is excluded. The first argument
bounds the number of steps. -/
def search (d : List α) : Nat → Nat → Nat → Nat
  | 0, lo, _ => lo
  | n + 1, lo, hi =>
    if lo < hi then
      match d[(lo + hi - 1) / 2]? with
      | some x =>
        if c < key x then search d n lo ((lo + hi - 1) / 2)
        else if key x < c then search d n ((lo + hi - 1) / 2 + 1) hi
        else (lo + hi - 1) / 2
      | none => lo
    else lo

/-- Where an element with the key `c` may be put. -/
structure Splits (l : List α) (i : Nat) : Prop where
  le : i ≤ l.length
  before : ∀ j (h : j < l.length), j < i → key l[j] ≤ c
  after : ∀ j (h : j < l.length), i ≤ j → c ≤ key l[j]

variable {key c} {l junk : List α} {i lo hi n : Nat} {x : α}

/-- The search keeps what it has found out. -/
theorem search_splits (hsorted : l.Pairwise (key · ≤ key ·)) (hn : hi - lo ≤ n) (hle : lo ≤ hi)
    (hhi : hi ≤ l.length) (hbefore : ∀ j (h : j < l.length), j < lo → key l[j] ≤ c)
    (hafter : ∀ j (h : j < l.length), hi ≤ j → c ≤ key l[j]) :
    Splits key c l (search key c (l ++ junk) n lo hi) := by
  have hmono : ∀ i j (hi : i < l.length) (hj : j < l.length), i ≤ j → key l[i] ≤ key l[j] := by
    intro i j hi hj hij
    rcases Nat.lt_or_eq_of_le hij with hij | rfl
    · exact List.pairwise_iff_getElem.mp hsorted i j hi hj hij
    · exact le_rfl
  induction n generalizing lo hi with
  | zero =>
    obtain rfl : lo = hi := by omega
    exact ⟨hhi, hbefore, hafter⟩
  | succ n ih =>
    rw [search]
    split_ifs with hlt
    · have hmid : (lo + hi - 1) / 2 < l.length := by omega
      generalize hm : (lo + hi - 1) / 2 = mid at hmid ⊢
      rw [List.getElem?_append_left hmid, List.getElem?_eq_getElem hmid]
      dsimp only
      split_ifs with hbelow habove
      · exact ih (by omega) (by omega) (by omega) hbefore
          fun j hj hle => hbelow.le.trans (hmono mid j hmid hj hle)
      · exact ih (by omega) (by omega) hhi
          (fun j hj hlt => (hmono j mid hj hmid (by omega)).trans habove.le) hafter
      · have heq : key l[mid] = c := le_antisymm (not_lt.mp hbelow) (not_lt.mp habove)
        refine ⟨by omega, fun j hj hlt => ?_, fun j hj hle => ?_⟩
        · exact (hmono j mid hj hmid (by omega)).trans heq.le
        · exact heq.ge.trans (hmono mid j hmid hj hle)
    · obtain rfl : lo = hi := by omega
      exact ⟨hhi, hbefore, hafter⟩

/-- A search of the whole array, which may be longer than what is in use. -/
theorem search_all (hsorted : l.Pairwise (key · ≤ key ·)) :
    Splits key c l (search key c (l ++ junk) l.length 0 l.length) := by
  refine search_splits hsorted (Nat.sub_le _ _) (Nat.zero_le _) (Nat.le_refl _) ?_ ?_
  · exact fun j _ hj => absurd hj (Nat.not_lt_zero j)
  · exact fun j hj hle => absurd hj (Nat.not_lt.mpr hle)

namespace Splits

theorem mem_take (h : Splits key c l i) (hx : x ∈ l.take i) : key x ≤ c := by
  obtain ⟨j, hj, rfl⟩ := List.mem_take_iff_getElem.mp hx
  exact h.before j (by omega) (by omega)

theorem mem_drop (h : Splits key c l i) (hx : x ∈ l.drop i) : c ≤ key x := by
  obtain ⟨j, hj, rfl⟩ := List.mem_drop_iff_getElem.mp hx
  exact h.after (i + j) (Nat.add_comm i j ▸ hj) (Nat.le_add_right _ _)

end Splits

/-- An element may be put where its key splits the array. -/
theorem sorted_insert {l₁ l₂ : List α} (hsorted : (l₁ ++ l₂).Pairwise (key · ≤ key ·))
    (h₁ : ∀ y ∈ l₁, key y ≤ key x) (h₂ : ∀ y ∈ l₂, key x ≤ key y) :
    (l₁ ++ x :: l₂).Pairwise (key · ≤ key ·) := by
  obtain ⟨hsorted₁, hsorted₂, hle⟩ := List.pairwise_append.mp hsorted
  refine List.pairwise_append.mpr ⟨hsorted₁, List.pairwise_cons.mpr ⟨h₂, hsorted₂⟩, ?_⟩
  intro y hy z hz
  rcases List.mem_cons.mp hz with rfl | hz
  · exact h₁ y hy
  · exact hle y hy z hz

end Bisect
