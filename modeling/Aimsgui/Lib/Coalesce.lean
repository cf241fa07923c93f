import Mathlib.Data.List.Basic

/-!
# Ledgers of coalescing queues

A coalescing queue may overwrite its newest element by a new one of the same key
instead of appending, and may be flushed. A `Ledger` accounts for everything that
was sent to such a queue: `sent` lists the messages (`none` is a flush), `ds` and
`qs` are the places in `sent` of what was delivered and of what is queued.

Every event is delivered, or queued, or overwritten by a later event of the same
key with only such events in between that is itself delivered or queued, or it
was discarded by a later flush. The rules `append`, `merge`, `deliver` and
`flush` are the operations of the queue; each keeps the ledger in order.
-/

universe u v

namespace Coalesce

variable {π : Type u} {β : Type v} (key : π → β)

/-- All messages from place `i` to place `j` are events with the key of the one at `i`. -/
def Supersedes (sent : List (Option π)) (i j : Nat) : Prop :=
  i ≤ j ∧ ∀ p, sent[i]? = some (some p) → ∀ k, i ≤ k → k ≤ j →
    ∃ q, sent[k]? = some (some q) ∧ key q = key p

/-- The event at place `i` is delivered, queued, overwritten or flushed. -/
def Accounted (sent : List (Option π)) (ds qs : List Nat) (i : Nat) : Prop :=
  ∃ j, Supersedes key sent i j ∧ (j ∈ ds ∨ j ∈ qs ∨ ∃ f, j < f ∧ sent[f]? = some none)

/-- `ds` are the places of the delivered, `qs` those of the queued events. -/
structure Ledger (sent : List (Option π)) (ds qs : List Nat) : Prop where
  /-- delivery is in sending order, and the queue continues it -/
  order : (ds ++ qs).Pairwise (· < ·)
  /-- only what was sent is delivered or queued -/
  bound : ∀ j ∈ ds ++ qs, j < sent.length
  /-- the last event queued is the last message sent -/
  newest : ∀ j, qs.getLast? = some j → j + 1 = sent.length
  /-- no event is lost -/
  accounted : ∀ i p, sent[i]? = some (some p) → Accounted key sent ds qs i

variable {key} {sent : List (Option π)} {ds qs : List Nat}

theorem Supersedes.refl {p : π} {i : Nat} (h : sent[i]? = some (some p)) :
    Supersedes key sent i i := by
  refine ⟨Nat.le_refl i, ?_⟩
  intro q hq k hik hki
  obtain rfl : k = i := by omega
  exact ⟨q, hq, rfl⟩

/-- Messages sent later do not change what superseded what. -/
theorem Supersedes.extend {i j : Nat} (x : Option π) (hj : j < sent.length)
    (h : Supersedes key sent i j) : Supersedes key (sent ++ [x]) i j := by
  obtain ⟨hle, hall⟩ := h
  refine ⟨hle, ?_⟩
  intro p hp k hik hkj
  rw [List.getElem?_append_left (by omega)] at hp
  obtain ⟨q, hq, hkey⟩ := hall p hp k hik hkj
  exact ⟨q, by rw [List.getElem?_append_left (by omega)]; exact hq, hkey⟩

/-- What supersedes is in turn superseded by a next event of the same key. -/
theorem Supersedes.snoc {i j : Nat} {p q : π} (h : Supersedes key sent i j)
    (hj : j + 1 = sent.length) (hp : sent[j]? = some (some p)) (hkey : key p = key q) :
    Supersedes key (sent ++ [some q]) i sent.length := by
  obtain ⟨hle, hall⟩ := h
  refine ⟨by omega, ?_⟩
  intro a ha k hik hk
  rw [List.getElem?_append_left (by omega)] at ha
  rcases Nat.lt_or_ge k sent.length with hlt | hge
  · obtain ⟨b, hb, hkb⟩ := hall a ha k hik (by omega)
    exact ⟨b, by rw [List.getElem?_append_left hlt]; exact hb, hkb⟩
  · obtain rfl : k = sent.length := by omega
    obtain ⟨b, hb, hkb⟩ := hall a ha j hle (Nat.le_refl j)
    rw [hp] at hb
    obtain rfl := Option.some.inj (Option.some.inj hb)
    exact ⟨q, List.getElem?_concat_length .., by rw [← hkey, hkb]⟩

namespace Ledger

/-- The ledger before anything is sent. -/
theorem empty : Ledger key ([] : List (Option π)) [] [] where
  order := List.Pairwise.nil
  bound := fun _ hj => absurd hj List.not_mem_nil
  newest := fun _ h => by cases h
  accounted := fun _ _ h => by cases h

/-- The events accounted for stay so when another message is sent, as long as
those that were queued still are queued. -/
theorem extend_accounted (h : Ledger key sent ds qs) {qs' : List Nat} (x : Option π)
    (hqs : ∀ i j, Supersedes key sent i j → j ∈ qs → Accounted key (sent ++ [x]) ds qs' i)
    {i : Nat} {p : π} (hp : sent[i]? = some (some p)) : Accounted key (sent ++ [x]) ds qs' i := by
  obtain ⟨j, hs, hj⟩ := h.accounted i p hp
  rcases hj with hj | hj | ⟨f, hjf, hf⟩
  · exact ⟨j, hs.extend x (h.bound j (List.mem_append_left _ hj)), Or.inl hj⟩
  · exact hqs i j hs hj
  · obtain ⟨hflt, -⟩ := List.getElem?_eq_some_iff.mp hf
    refine ⟨j, hs.extend x (by omega), Or.inr (Or.inr ⟨f, hjf, ?_⟩)⟩
    rw [List.getElem?_append_left hflt]
    exact hf

/-- The order and the bound when the queue ends in the new event. -/
theorem snoc_order (h : Ledger key sent ds qs) {qs' : List Nat} (x : Option π)
    (hsub : List.Sublist qs' qs) :
    (ds ++ (qs' ++ [sent.length])).Pairwise (· < ·) ∧
      ∀ j ∈ ds ++ (qs' ++ [sent.length]), j < (sent ++ [x]).length := by
  have hsub' : List.Sublist (ds ++ qs') (ds ++ qs) := List.Sublist.append_left hsub ds
  have hb : ∀ j ∈ ds ++ qs', j < sent.length := fun j hj => h.bound j (hsub'.subset hj)
  rw [← List.append_assoc]
  constructor
  · refine List.pairwise_append.mpr ⟨h.order.sublist hsub', List.pairwise_singleton _ _, ?_⟩
    intro a ha b hb'
    obtain rfl := List.mem_singleton.mp hb'
    exact hb a ha
  · intro j hj
    rw [List.length_append, List.length_singleton]
    rcases List.mem_append.mp hj with hj | hj
    · have := hb j hj
      omega
    · obtain rfl := List.mem_singleton.mp hj
      omega

/-- An event is appended to the queue. -/
theorem append (h : Ledger key sent ds qs) (p : π) :
    Ledger key (sent ++ [some p]) ds (qs ++ [sent.length]) where
  order := (h.snoc_order (some p) (List.Sublist.refl qs)).1
  bound := (h.snoc_order (some p) (List.Sublist.refl qs)).2
  newest := by
    intro j hj
    rw [List.getLast?_concat] at hj
    obtain rfl := Option.some.inj hj
    simp
  accounted := by
    intro i a ha
    rcases Nat.lt_or_ge i sent.length with hlt | hge
    · rw [List.getElem?_append_left hlt] at ha
      refine h.extend_accounted (some p) ?_ ha
      intro i j hs hj
      have hjlt := h.bound j (List.mem_append_right _ hj)
      exact ⟨j, hs.extend _ hjlt, Or.inr (Or.inl (List.mem_append_left _ hj))⟩
    · refine ⟨i, Supersedes.refl ha, Or.inr (Or.inl (List.mem_append_right _ ?_))⟩
      obtain ⟨hi, -⟩ := List.getElem?_eq_some_iff.mp ha
      rw [List.length_append, List.length_singleton] at hi
      rw [List.mem_singleton]
      omega

/-- An event overwrites the last one queued, which has the same key. -/
theorem merge {j : Nat} {p q : π} (h : Ledger key sent ds (qs ++ [j]))
    (hp : sent[j]? = some (some p)) (hkey : key p = key q) :
    Ledger key (sent ++ [some q]) ds (qs ++ [sent.length]) := by
  have hj : j + 1 = sent.length := h.newest j (List.getLast?_concat ..)
  have hord := h.snoc_order (some q) (List.sublist_append_left qs [j])
  refine ⟨hord.1, hord.2, ?_, ?_⟩
  · intro k hk
    rw [List.getLast?_concat] at hk
    obtain rfl := Option.some.inj hk
    simp
  · intro i a ha
    rcases Nat.lt_or_ge i sent.length with hlt | hge
    · rw [List.getElem?_append_left hlt] at ha
      refine h.extend_accounted (some q) ?_ ha
      intro i k hs hk
      rcases List.mem_append.mp hk with hk | hk
      · have hklt := h.bound k (List.mem_append_right _ (List.mem_append_left _ hk))
        exact ⟨k, hs.extend _ hklt, Or.inr (Or.inl (List.mem_append_left _ hk))⟩
      · -- the overwritten event: the new one stands for it
        obtain rfl := List.mem_singleton.mp hk
        exact ⟨sent.length, hs.snoc hj hp hkey,
          Or.inr (Or.inl (List.mem_append_right _ (List.mem_singleton_self _)))⟩
    · refine ⟨i, Supersedes.refl ha, Or.inr (Or.inl (List.mem_append_right _ ?_))⟩
      obtain ⟨hi, -⟩ := List.getElem?_eq_some_iff.mp ha
      rw [List.length_append, List.length_singleton] at hi
      rw [List.mem_singleton]
      omega

/-- The head of the queue is delivered. -/
theorem deliver {d : Nat} (h : Ledger key sent ds (d :: qs)) :
    Ledger key sent (ds ++ [d]) qs where
  order := by
    rw [List.append_assoc]
    exact h.order
  bound := by
    rw [List.append_assoc]
    exact h.bound
  newest := by
    intro j hj
    refine h.newest j ?_
    cases qs with
    | nil => cases hj
    | cons a rest => rw [List.getLast?_cons_cons]; exact hj
  accounted := by
    intro i p hp
    obtain ⟨j, hs, hj⟩ := h.accounted i p hp
    refine ⟨j, hs, ?_⟩
    rcases hj with hj | hj | hf
    · exact Or.inl (List.mem_append_left _ hj)
    · rcases List.mem_cons.mp hj with rfl | hj
      · exact Or.inl (List.mem_append_right _ (List.mem_singleton_self _))
      · exact Or.inr (Or.inl hj)
    · exact Or.inr (Or.inr hf)

/-- The queue is flushed. -/
theorem flush (h : Ledger key sent ds qs) : Ledger key (sent ++ [none]) ds [] where
  order := by
    rw [List.append_nil]
    exact (List.pairwise_append.mp h.order).1
  bound := by
    intro j hj
    rw [List.append_nil] at hj
    have := h.bound j (List.mem_append_left _ hj)
    rw [List.length_append]
    omega
  newest := fun _ hj => by cases hj
  accounted := by
    intro i p hp
    rcases Nat.lt_or_ge i sent.length with hlt | hge
    · rw [List.getElem?_append_left hlt] at hp
      refine h.extend_accounted none ?_ hp
      intro i j hs hj
      have hjlt := h.bound j (List.mem_append_right _ hj)
      exact ⟨j, hs.extend none hjlt,
        Or.inr (Or.inr ⟨sent.length, hjlt, List.getElem?_concat_length ..⟩)⟩
    · -- the flush itself is not an event
      rw [List.getElem?_append_right hge] at hp
      rcases hk : i - sent.length with _ | k <;> rw [hk] at hp <;> cases hp

end Ledger

end Coalesce
