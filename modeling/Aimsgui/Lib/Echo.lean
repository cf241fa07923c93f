import Aimsgui.Lib.Run
import Mathlib.Algebra.Order.BigOperators.Group.Finset
import Mathlib.Data.Finset.Range
import Mathlib.Data.Prod.Lex
import Mathlib.Order.WellFounded

/-!
# Echoes

Each party shows a value, and more values are on their way to it. A party that gets a value
shows it; if that is a change, a referee may answer by telling every party that is listed
what it shows, in a normal form. The normal form of a value depends on its `height` only.

Such echoes die out if all values on their way to a party have one height (`Level`), or if
only one party is about to change and all it will get from then on has one height
(`Single`). Otherwise they can go on for ever (`Tense`).
-/

namespace Echo

open Transition

universe u v w

variable {ι : Type u} {α : Type v} {β : Type w}

/-- What a party shows, and what is on its way to it, the oldest first. -/
structure Party (α : Type v) where
  cur : Option α
  flying : List α

namespace Party

/-- All that the party shows, now and later. -/
def word (p : Party α) : List α := p.cur.toList ++ p.flying

/-- What is on its way changes nothing. -/
def Settled (p : Party α) : Prop := ∀ x ∈ p.flying, p.cur = some x

/-- What is on its way from the first change on. -/
def rest [DecidableEq α] (p : Party α) : List α := p.flying.dropWhile fun x => p.cur = some x

/-- What a party is told that is listed. -/
def told (height : α → β) (norm : β → α) (p : Party α) : Party α :=
  match p.cur with
  | some x => ⟨some (norm (height x)), p.flying ++ [norm (height x)]⟩
  | none => p

variable {p : Party α} {x y : α} {l : List α}

theorem mem_word_of_flying (h : x ∈ p.flying) : x ∈ p.word := List.mem_append_right _ h

theorem mem_flying_of_rest [DecidableEq α] (h : x ∈ p.rest) : x ∈ p.flying :=
  (List.dropWhile_suffix _).subset h

/-- The rest, by whether the next value is a change. -/
theorem rest_eq [DecidableEq α] (h : p.flying = x :: l) :
    p.rest = if p.cur = some x then rest ⟨p.cur, l⟩ else x :: l := by
  rw [rest, h, List.dropWhile_cons]
  simp only [decide_eq_true_eq]
  rfl

/-- A change is part of the rest. -/
theorem mem_rest [DecidableEq α] (h : x ∈ p.flying) (hx : p.cur ≠ some x) : x ∈ p.rest := by
  obtain ⟨cur, flying⟩ := p
  induction flying with
  | nil => cases h
  | cons y flying ih =>
    rw [rest_eq rfl]
    split_ifs with hy
    · rcases List.mem_cons.mp h with rfl | h
      · exact absurd hy hx
      · exact ih h hx
    · exact h

end Party

/-- All of one height. -/
def Flat (height : α → β) (l : List α) : Prop := ∀ x ∈ l, ∀ y ∈ l, height x = height y

instance [DecidableEq β] (height : α → β) (l : List α) : Decidable (Flat height l) :=
  haveI : ∀ x, Decidable (∀ y ∈ l, height x = height y) := fun _ => List.decidableBAll _ _
  List.decidableBAll _ _

theorem Flat.mono {height : α → β} {l l' : List α} (h : Flat height l) (hle : ∀ x ∈ l', x ∈ l) :
    Flat height l' :=
  fun x hx y hy => h x (hle x hx) y (hle y hy)

theorem flat_of_eq {height : α → β} {l : List α} {a : β} (h : ∀ x ∈ l, height x = a) :
    Flat height l :=
  fun x hx y hy => (h x hx).trans (h y hy).symm

theorem flat_cons_iff {height : α → β} {x : α} {l : List α} :
    Flat height (x :: l) ↔ ∀ y ∈ l, height y = height x := by
  constructor
  · intro h y hy
    exact h y (List.mem_cons_of_mem _ hy) x List.mem_cons_self
  · intro h
    refine flat_of_eq (a := height x) ?_
    intro y hy
    rcases List.mem_cons.mp hy with rfl | hy
    · rfl
    · exact h y hy

section

variable [DecidableEq ι] (height : α → β) (norm : β → α)

/-- Everything on its way to a party has the height it shows. -/
def Level (b : ι → Party α) : Prop := ∀ i, Flat height (b i).word

/-- Only one party is about to change, and keeps its height from then on. -/
def Single [DecidableEq α] (b : ι → Party α) : Prop :=
  ∃ i, (∀ j, j ≠ i → (b j).Settled) ∧ Flat height (b i).rest

/-- The echoes die out. -/
def Calm [DecidableEq α] (b : ι → Party α) : Prop := Level height b ∨ Single height b

/-- The party `i` gets a value, and nobody is told. -/
inductive Takes (b : ι → Party α) (i : ι) : (ι → Party α) → Prop where
  /-- it is what the party shows, or the party does not get to show it -/
  | kept {x l} : (b i).flying = x :: l →
      Takes b i (Function.update b i ⟨(b i).cur, l⟩)
  | shown {x l} : (b i).flying = x :: l → Takes b i (Function.update b i ⟨some x, l⟩)

omit [DecidableEq ι] in
/-- What changes nothing is calm. -/
theorem calm_of_settled [DecidableEq α] {height : α → β} {b : ι → Party α}
    (h : ∀ i, (b i).Settled) : Calm height b := by
  refine Or.inl ?_
  intro i x hx y hy
  have hcur : ∀ z ∈ (b i).word, (b i).cur = some z := fun z hz =>
    (List.mem_append.mp hz).elim Option.mem_toList.mp (h i z)
  rw [Option.some.inj ((hcur x hx).symm.trans (hcur y hy))]

/-- The party `i` shows something new, and those that are listed are told, `i` among them. -/
inductive Spreads (b : ι → Party α) (i : ι) (listed : ι → Prop) (b' : ι → Party α) : Prop where
  | intro (x : α) (l : List α) (flying : (b i).flying = x :: l) (changed : (b i).cur ≠ some x)
      (self : listed i)
      (told : ∀ j, listed j → b' j = (Function.update b i ⟨some x, l⟩ j).told height norm)
      (others : ∀ j, ¬ listed j → b' j = b j)

variable {height norm} {b b' : ι → Party α} {i j : ι} {listed : ι → Prop}

/-- What a party takes is about nobody else. -/
theorem Takes.cases (h : Takes b i b') :
    (∀ j, j ≠ i → b' j = b j) ∧
      ∃ x l, (b i).flying = x :: l ∧ (b' i = ⟨(b i).cur, l⟩ ∨ b' i = ⟨some x, l⟩) := by
  cases h with
  | @kept x l hflying =>
    refine ⟨fun j hj => Function.update_of_ne hj _ _, x, l, hflying, Or.inl ?_⟩
    rw [Function.update_self]
  | @shown x l hflying =>
    refine ⟨fun j hj => Function.update_of_ne hj _ _, x, l, hflying, Or.inr ?_⟩
    rw [Function.update_self]

/-- Where nothing on its way is a change, taking it is none. -/
theorem Takes.settled (ht : Takes b i b') (h : ∀ j, (b j).Settled) (j : ι) : (b' j).Settled := by
  obtain ⟨hothers, x, l, hflying, hb⟩ := ht.cases
  by_cases hj : j = i
  · subst hj
    have hcur : ∀ y ∈ x :: l, (b j).cur = some y := fun y hy => h j y (hflying ▸ hy)
    intro y hy
    rcases hb with hb | hb
    · rw [hb] at hy ⊢
      exact hcur y (List.mem_cons_of_mem _ hy)
    · rw [hb] at hy ⊢
      exact (hcur x List.mem_cons_self).symm.trans (hcur y (List.mem_cons_of_mem _ hy))
  · rw [hothers j hj]
    exact h j

/-- A party that is not the one that changes is told what it shows, or nothing. -/
theorem Spreads.others' (h : Spreads height norm b i listed b') (hj : j ≠ i) :
    b' j = (b j).told height norm ∨ b' j = b j := by
  obtain ⟨x, l, -, -, -, told, others⟩ := h
  by_cases hl : listed j
  · rw [told j hl, Function.update_of_ne hj]
    exact Or.inl rfl
  · exact Or.inr (others j hl)

/-- The party that changes is told its own value in normal form. -/
theorem Spreads.self' (h : Spreads height norm b i listed b') :
    ∃ x l, (b i).flying = x :: l ∧ (b i).cur ≠ some x ∧
      b' i = ⟨some (norm (height x)), l ++ [norm (height x)]⟩ := by
  obtain ⟨x, l, hflying, hchanged, hself, told, -⟩ := h
  refine ⟨x, l, hflying, hchanged, ?_⟩
  rw [told i hself, Function.update_self]
  rfl

/-! ## One height -/

theorem flat_told (hnorm : ∀ h, height (norm h) = h) {p : Party α} (h : Flat height p.word) :
    Flat height (p.told height norm).word := by
  obtain ⟨_ | x, flying⟩ := p
  · exact h
  · have hall : ∀ y ∈ flying, height y = height x := flat_cons_iff.mp h
    refine flat_of_eq (a := height x) ?_
    intro y hy
    have hy : y ∈ norm (height x) :: (flying ++ [norm (height x)]) := hy
    rcases List.mem_cons.mp hy with rfl | hy
    · exact hnorm _
    · rcases List.mem_append.mp hy with hy | hy
      · exact hall y hy
      · exact List.mem_singleton.mp hy ▸ hnorm _

/-- The party that has changed, if all it gets has one height. -/
theorem flat_changed (hnorm : ∀ h, height (norm h) = h) {x : α} {l : List α}
    (h : Flat height (x :: l)) :
    Flat height (Party.word ⟨some (norm (height x)), l ++ [norm (height x)]⟩) :=
  flat_told (p := ⟨some x, l⟩) hnorm h

theorem Level.takes (h : Level height b) (ht : Takes b i b') : Level height b' := by
  obtain ⟨hothers, x, l, hflying, hb⟩ := ht.cases
  intro j
  by_cases hj : j = i
  · subst hj
    have hle : ∀ y ∈ x :: l, y ∈ (b j).word := fun y hy => by
      rw [Party.word, hflying]
      exact List.mem_append_right _ hy
    rcases hb with hb | hb
    · rw [hb]
      refine (h j).mono ?_
      intro y hy
      rcases List.mem_append.mp hy with hy | hy
      · exact List.mem_append_left _ hy
      · exact hle y (List.mem_cons_of_mem _ hy)
    · rw [hb]
      exact (h j).mono hle
  · rw [hothers j hj]
    exact h j

theorem Level.spreads (hnorm : ∀ h, height (norm h) = h) (h : Level height b)
    (hs : Spreads height norm b i listed b') : Level height b' := by
  intro j
  by_cases hj : j = i
  · subst hj
    obtain ⟨x, l, hflying, -, hb⟩ := hs.self'
    rw [hb]
    refine flat_changed hnorm ((h j).mono ?_)
    intro y hy
    exact Party.mem_word_of_flying (hflying ▸ hy)
  · rcases hs.others' hj with hb | hb
    · rw [hb]
      exact flat_told hnorm (h j)
    · rw [hb]
      exact h j

end

/-! ## One party that changes -/

section

variable [DecidableEq ι] [DecidableEq α] {height : α → β} {norm : β → α} {b b' : ι → Party α}
  {i j : ι} {listed : ι → Prop}

theorem Single.takes (h : Single height b) (ht : Takes b i b') : Single height b' := by
  obtain ⟨k, hsettled, hflat⟩ := h
  obtain ⟨hothers, x, l, hflying, hb⟩ := ht.cases
  refine ⟨k, ?_, ?_⟩
  · intro j hj
    by_cases hji : j = i
    · subst hji
      have hset := hsettled j hj
      have hx : (b j).cur = some x := hset x (hflying ▸ List.mem_cons_self)
      have hset' : (Party.mk (b j).cur l).Settled :=
        fun y hy => hset y (hflying ▸ List.mem_cons_of_mem _ hy)
      rcases hb with hb | hb
      · exact hb ▸ hset'
      · rw [hb, ← hx]
        exact hset'
    · rw [hothers j hji]
      exact hsettled j hj
  · by_cases hki : k = i
    · subst hki
      rw [Party.rest_eq hflying] at hflat
      split_ifs at hflat with hx
      · rcases hb with hb | hb
        · exact hb ▸ hflat
        · rw [hb, ← hx]
          exact hflat
      · -- what the party did not show is dropped with the change
        have hl : ∀ y ∈ (b' k).rest, y ∈ x :: l := fun y hy => by
          have hy' := Party.mem_flying_of_rest hy
          rcases hb with hb | hb
          · rw [hb] at hy'
            exact List.mem_cons_of_mem _ hy'
          · rw [hb] at hy'
            exact List.mem_cons_of_mem _ hy'
        exact hflat.mono hl
    · rw [hothers k hki]
      exact hflat

/-- The only change to come leaves everything at one height. -/
theorem Single.spreads (hnorm : ∀ h, height (norm h) = h) (h : Single height b)
    (hs : Spreads height norm b i listed b') : Level height b' := by
  obtain ⟨k, hsettled, hflat⟩ := h
  obtain ⟨x, l, hflying, hchanged, hb⟩ := hs.self'
  have hki : k = i := by
    by_contra hne
    exact hchanged (hsettled i (Ne.symm hne) x (hflying ▸ List.mem_cons_self))
  subst hki
  rw [Party.rest_eq hflying, if_neg hchanged] at hflat
  intro j
  by_cases hj : j = k
  · subst hj
    rw [hb]
    exact flat_changed hnorm hflat
  · have hset := hsettled j hj
    have hword : Flat height (b j).word := by
      cases hcur : (b j).cur with
      | none =>
        refine flat_of_eq (a := height x) ?_
        intro y hy
        rw [Party.word, hcur] at hy
        have hy' := hset y hy
        rw [hcur] at hy'
        cases hy'
      | some z =>
        rw [Party.word, hcur]
        refine flat_cons_iff.mpr ?_
        intro y hy
        rw [Option.some.inj (hcur.symm.trans (hset y hy))]
    rcases hs.others' hj with hb' | hb'
    · rw [hb']
      exact flat_told hnorm hword
    · rw [hb']
      exact hword

/-! ## What decreases -/

/-- How far a party is from normal form. A value that is not in normal form counts twice, as
it may be shown before it makes a change. -/
def Party.weight (height : α → β) (norm : β → α) (p : Party α) : Nat :=
  2 * p.flying.countP (fun x => x ≠ norm (height x)) +
    if ∃ x ∈ p.cur, x = norm (height x) then 0 else 1

theorem weight_eq (cur : Option α) (l : List α) :
    Party.weight height norm ⟨cur, l⟩ = 2 * l.countP (fun x => x ≠ norm (height x)) +
      if ∃ x ∈ cur, x = norm (height x) then 0 else 1 := rfl

theorem weight_cons (height : α → β) (norm : β → α) (cur : Option α) (x : α) (l : List α) :
    Party.weight height norm ⟨cur, x :: l⟩ =
      (if x = norm (height x) then 0 else 2) + Party.weight height norm ⟨cur, l⟩ := by
  rw [weight_eq, weight_eq]
  by_cases hx : x = norm (height x)
  · rw [List.countP_cons_of_neg (by simpa using hx), if_pos hx, zero_add]
  · rw [List.countP_cons_of_pos (by simpa using hx), if_neg hx]
    omega

theorem weight_shown (x : α) (l : List α) :
    Party.weight height norm ⟨some x, l⟩ =
      2 * l.countP (fun x => x ≠ norm (height x)) + if x = norm (height x) then 0 else 1 := by
  rw [weight_eq]
  simp only [Option.mem_def, Option.some.injEq, exists_eq_left']

theorem weight_bound (height : α → β) (norm : β → α) (cur : Option α) (l : List α) :
    2 * l.countP (fun x => x ≠ norm (height x)) ≤ Party.weight height norm ⟨cur, l⟩ :=
  Nat.le_add_right _ _

theorem Takes.weight_le (ht : Takes b i b') (j : ι) :
    (b' j).weight height norm ≤ (b j).weight height norm := by
  obtain ⟨hothers, x, l, hflying, hb⟩ := ht.cases
  by_cases hj : j = i
  · subst hj
    have hparty : b j = ⟨(b j).cur, x :: l⟩ := congrArg (Party.mk (b j).cur) hflying
    have hcons := weight_cons height norm (b j).cur x l
    have hbound := weight_bound height norm (b j).cur l
    rw [← hparty] at hcons
    rcases hb with hb | hb
    · rw [hb, hcons]
      exact Nat.le_add_left _ _
    · rw [hb, weight_shown]
      split_ifs at hcons ⊢
      · omega
      · omega
  · rw [hothers j hj]

theorem weight_normal (hnorm : ∀ h, height (norm h) = h) (h : β) (l : List α) :
    Party.weight height norm ⟨some (norm h), l ++ [norm h]⟩ =
      2 * l.countP (fun x => x ≠ norm (height x)) := by
  rw [weight_shown, List.countP_append, List.countP_singleton, hnorm]
  simp

/-- What is told is in normal form. -/
theorem weight_told_le (hnorm : ∀ h, height (norm h) = h) (p : Party α) :
    (p.told height norm).weight height norm ≤ p.weight height norm := by
  obtain ⟨_ | x, flying⟩ := p
  · exact le_rfl
  · rw [Party.told, weight_normal hnorm]
    exact weight_bound _ _ _ _

theorem Spreads.weight_le (hnorm : ∀ h, height (norm h) = h)
    (hs : Spreads height norm b i listed b') (hj : j ≠ i) :
    (b' j).weight height norm ≤ (b j).weight height norm := by
  rcases hs.others' hj with hb | hb
  · rw [hb]
    exact weight_told_le hnorm _
  · rw [hb]

/-- A change where all has one height is towards the normal form. -/
theorem Spreads.weight_lt (hnorm : ∀ h, height (norm h) = h) (hflat : Flat height (b i).word)
    (hs : Spreads height norm b i listed b') :
    (b' i).weight height norm < (b i).weight height norm := by
  obtain ⟨x, l, hflying, hchanged, hb⟩ := hs.self'
  have hparty : b i = ⟨(b i).cur, x :: l⟩ := congrArg (Party.mk (b i).cur) hflying
  rw [hb, hparty, weight_normal hnorm, weight_cons]
  have hbound := weight_bound height norm (b i).cur l
  split_ifs with hx
  · -- a value in normal form is no change to a party that is in normal form
    have hbad : ¬ ∃ y ∈ (b i).cur, y = norm (height y) := by
      rintro ⟨y, hy, hyn⟩
      have hyx : height y = height x :=
        hflat y (List.mem_append_left _ (Option.mem_toList.mpr hy)) x
          (Party.mem_word_of_flying (hflying ▸ List.mem_cons_self))
      refine hchanged ?_
      rw [hx, ← hyx, ← hyn]
      exact hy
    rw [weight_eq, if_neg hbad]
    omega
  · omega

/-! ## Echoes that die out -/

section Systems

variable {S : Type*} {step : S → S → Prop} {I : S → Prop} {view : S → ι → Party α}
  {size : S → Nat} {u : Finset ι} {s : S}

/-- In the states `I` every step is about values on their way: one is taken off, or a party
changes and others are told. -/
def Echoes (height : α → β) (norm : β → α) (step : S → S → Prop) (I : S → Prop)
    (view : S → ι → Party α) (size : S → Nat) (u : Finset ι) : Prop :=
  ∀ s t, I s → step s t → I t ∧
    (size t < size s ∧ (view t = view s ∨ ∃ i, Takes (view s) i (view t)) ∨
      ∃ i ∈ u, ∃ listed, Spreads height norm (view s) i listed (view t))

/-- The weight of all parties falls with every change, and the number of values on their way
with every step that is none. -/
theorem acc_of_level (hnorm : ∀ h, height (norm h) = h)
    (hsys : Echoes height norm step I view size u) (hI : I s) (h : Level height (view s)) :
    Acc (fun t s => step s t) s := by
  have hwf := (Prod.lex Nat.lt_wfRel Nat.lt_wfRel).wf
  generalize hp : (∑ j ∈ u, (view s j).weight height norm, size s) = p
  induction p using hwf.induction generalizing s with
  | h p ih =>
    subst hp
    refine Acc.intro s ?_
    intro t hstep
    obtain ⟨hIt, ⟨hsize, hview⟩ | ⟨i, hi, listed, hspread⟩⟩ := hsys s t hI hstep
    · have hle : ∑ j ∈ u, (view t j).weight height norm ≤ ∑ j ∈ u, (view s j).weight height norm := by
        refine Finset.sum_le_sum ?_
        intro j _
        rcases hview with hview | ⟨i, htakes⟩
        · rw [hview]
        · exact htakes.weight_le j
      have hlevel : Level height (view t) := by
        rcases hview with hview | ⟨i, htakes⟩
        · exact hview ▸ h
        · exact h.takes htakes
      exact ih _ (Prod.Lex.right' _ hle hsize) hIt hlevel rfl
    · have hlt : ∑ j ∈ u, (view t j).weight height norm < ∑ j ∈ u, (view s j).weight height norm := by
        refine Finset.sum_lt_sum ?_ ⟨i, hi, hspread.weight_lt hnorm (h i)⟩
        intro j _
        by_cases hj : j = i
        · subst hj
          exact (hspread.weight_lt hnorm (h j)).le
        · exact hspread.weight_le hnorm hj
      exact ih _ (Prod.Lex.left _ _ hlt) hIt (h.spreads hnorm hspread) rfl

/-- Until the only change comes, the number of values on their way falls. -/
theorem acc_of_single (hnorm : ∀ h, height (norm h) = h)
    (hsys : Echoes height norm step I view size u) (hI : I s) (h : Single height (view s)) :
    Acc (fun t s => step s t) s := by
  generalize hn : size s = n
  induction n using Nat.strong_induction_on generalizing s with
  | _ n ih =>
    refine Acc.intro s ?_
    intro t hstep
    obtain ⟨hIt, ⟨hsize, hview⟩ | ⟨i, hi, listed, hspread⟩⟩ := hsys s t hI hstep
    · have hsingle : Single height (view t) := by
        rcases hview with hview | ⟨i, htakes⟩
        · exact hview ▸ h
        · exact h.takes htakes
      exact ih (size t) (hn ▸ hsize) hIt hsingle rfl
    · exact acc_of_level hnorm hsys hIt (h.spreads hnorm hspread)

/-- Calm echoes die out. -/
theorem not_diverges_of_calm (hnorm : ∀ h, height (norm h) = h)
    (hsys : Echoes height norm step I view size u) (hI : I s) (h : Calm height (view s)) :
    ¬ Diverges step s := by
  rcases h with hlevel | hsingle
  · exact not_diverges_of_acc (acc_of_level hnorm hsys hI hlevel)
  · exact not_diverges_of_acc (acc_of_single hnorm hsys hI hsingle)

end Systems

/-! ## Echoes that go on -/

/-- A party is going to change its height more than once, or once while another party is
about to change. -/
def Tense (height : α → β) (b : ι → Party α) : Prop :=
  (∃ i, ¬ Flat height (b i).rest) ∨
    ∃ i j, j ≠ i ∧ ¬ Flat height (b i).word ∧ ¬ (b j).Settled

omit [DecidableEq ι] in
/-- What is not calm is tense. -/
theorem tense_of_not_calm (h : ¬ Calm height b) : Tense height b := by
  obtain ⟨hlevel, hsingle⟩ := not_or.mp h
  obtain ⟨i, hi⟩ := not_forall.mp hlevel
  by_cases hrest : Flat height (b i).rest
  · refine Or.inr ?_
    by_contra hnone
    refine hsingle ⟨i, ?_, hrest⟩
    intro j hj
    by_contra hj'
    exact hnone ⟨i, j, hj, hi, hj'⟩
  · exact Or.inl ⟨i, hrest⟩

/-- A party that has been told its value while a value of another height is on its way. -/
theorem not_flat_rest_told (hnorm : ∀ h, height (norm h) = h) {h : β} {l : List α} {y : α}
    (hy : y ∈ l) (hne : height y ≠ h) :
    ¬ Flat height (Party.rest ⟨some (norm h), l ++ [norm h]⟩) := by
  have hchange : norm h ≠ y := by
    rintro rfl
    exact hne (hnorm h)
  have hmem : y ∈ l.dropWhile fun x => some (norm h) = some x :=
    Party.mem_rest (p := ⟨some (norm h), l⟩) hy (fun heq => hchange (Option.some.inj heq))
  intro ha
  rw [Party.rest, List.dropWhile_append, if_neg (by simpa using List.ne_nil_of_mem hmem)] at ha
  have hlast := ha y (List.mem_append_left _ hmem) (norm h)
    (List.mem_append_right _ (List.mem_singleton_self _))
  rw [hnorm] at hlast
  exact hne hlast

/-- The party `i` gets its next value, and where that is a change all parties that show
something are told. -/
inductive Answers (height : α → β) (norm : β → α) (b : ι → Party α) (i : ι)
    (b' : ι → Party α) : Prop where
  | kept (x : α) (l : List α) (flying : (b i).flying = x :: l) (same : (b i).cur = some x)
      (eq : b' = Function.update b i ⟨(b i).cur, l⟩)
  | spread (listed : ι → Prop) (shown : ∀ j, (b j).cur ≠ none → listed j)
      (told : Spreads height norm b i listed b')

/-- Getting a value that makes more than one change makes another one. -/
theorem Answers.tense_of_rest (hnorm : ∀ h, height (norm h) = h) (h : ¬ Flat height (b i).rest)
    (ha : Answers height norm b i b') : Tense height b' := by
  refine Or.inl ⟨i, ?_⟩
  cases ha with
  | kept x l hflying hsame heq =>
    rw [Party.rest_eq hflying, if_pos hsame] at h
    rw [heq, Function.update_self]
    exact h
  | spread listed hshown hspread =>
    obtain ⟨x, l, hflying, hchanged, hb⟩ := hspread.self'
    rw [Party.rest_eq hflying, if_neg hchanged, flat_cons_iff] at h
    push Not at h
    obtain ⟨y, hy, hne⟩ := h
    rw [hb]
    exact not_flat_rest_told hnorm hy hne

/-- A change of one party makes another one follow the change of a second party. -/
theorem Answers.tense_of_two (hnorm : ∀ h, height (norm h) = h) {x : α}
    (hcur : (b i).cur = some x) (hword : ¬ Flat height (b i).word) (hj : j ≠ i)
    (hset : ¬ (b j).Settled) (ha : Answers height norm b j b') : Tense height b' := by
  cases ha with
  | kept y l hflying hsame heq =>
    refine Or.inr ⟨i, j, hj, ?_, ?_⟩
    · rw [heq, Function.update_of_ne hj.symm]
      exact hword
    · rw [heq, Function.update_self]
      intro hset'
      refine hset ?_
      intro z hz
      rw [hflying] at hz
      rcases List.mem_cons.mp hz with rfl | hz
      · exact hsame
      · exact hset' z hz
  | spread listed hshown hspread =>
    refine Or.inl ⟨i, ?_⟩
    obtain ⟨y, l, -, -, -, told, -⟩ := hspread
    have hlisted : listed i := hshown i (by rw [hcur]; exact Option.some_ne_none x)
    rw [Party.word, hcur, Option.toList_some, List.singleton_append, flat_cons_iff] at hword
    push Not at hword
    obtain ⟨z, hz, hne⟩ := hword
    rw [told i hlisted, Function.update_of_ne hj.symm, Party.told, hcur]
    exact not_flat_rest_told hnorm hz hne

/-- Some party can get its next value so that it stays tense. -/
theorem Tense.answers (hnorm : ∀ h, height (norm h) = h) (h : Tense height b) :
    ∃ i, (b i).flying ≠ [] ∧ ∀ b', Answers height norm b i b' → Tense height b' := by
  by_cases hrest : ∃ i, ¬ Flat height (b i).rest
  · obtain ⟨i, hi⟩ := hrest
    refine ⟨i, ?_, fun b' => Answers.tense_of_rest hnorm hi⟩
    intro hnil
    refine hi ?_
    rw [Party.rest, hnil]
    exact fun x hx => absurd hx List.not_mem_nil
  · obtain ⟨i, j, hj, hword, hset⟩ := h.resolve_left hrest
    cases hcur : (b i).cur with
    | none =>
      -- nothing is shown, so that all that is on its way is a change
      refine absurd ⟨i, ?_⟩ hrest
      intro hflat
      refine hword (hflat.mono ?_)
      intro x hx
      rw [Party.word, hcur] at hx
      exact Party.mem_rest hx (by simp [hcur])
    | some x =>
      refine ⟨j, ?_, fun b' => Answers.tense_of_two hnorm hcur hword hj hset⟩
      intro hnil
      refine hset ?_
      intro y hy
      rw [hnil] at hy
      cases hy

/-- Tense echoes can go on for ever, where a party that a value is on its way to can get it,
sooner or later. -/
theorem diverges_of_tense {S : Type*} {step : S → S → Prop} {I : S → Prop}
    {view : S → ι → Party α} {s : S} (hnorm : ∀ h, height (norm h) = h)
    (hsys : ∀ s i, I s → (view s i).flying ≠ [] →
      ∃ t, step s t ∧ I t ∧ (view t = view s ∨ Answers height norm (view s) i (view t)))
    (hI : I s) (h : Tense height (view s)) : Diverges step s := by
  refine Diverges.of_progress (I := fun s => I s ∧ Tense height (view s)) ⟨hI, h⟩ ?_
  rintro s ⟨hI, htense⟩
  obtain ⟨i, hi, hanswers⟩ := htense.answers hnorm
  obtain ⟨t, hstep, hIt, hview | hview⟩ := hsys s i hI hi
  · exact ⟨t, hstep, hIt, hview ▸ htense⟩
  · exact ⟨t, hstep, hIt, hanswers _ hview⟩

end

end Echo
