import Mathlib.Order.Basic
import Mathlib.Data.List.Basic

/-!
# Runs of labelled transition systems

A system is a step relation `S → E → S → Prop`; its labels carry everything the
environment decides. A `Run` remembers the labels of its steps, so that what was
sent and received along the way can be read off the label list.

* `Run.invariant` — what every step preserves holds wherever a run ends.
* `Run.traced` — the same for properties that mention the labels seen so far.
* `Guarded` — the steps that meet a condition on the state before and the label.
* `exec` — runs of a step *function*, which evaluate; `Run.of_exec` and
  `Run.of_execGuarded` turn an evaluation into a run.
* `Diverges` — an execution without end; `Diverges.of_progress` builds one, and
  `not_diverges_of_acc` excludes it.
-/

namespace Transition

universe u v

variable {S : Type u} {E : Type v}

/-- A run of `step` from `s`, with the labels of its steps in order. -/
inductive Run (step : S → E → S → Prop) (s : S) : List E → S → Prop where
  /-- no step taken yet -/
  | nil : Run step s [] s
  /-- one more step at the end -/
  | snoc {es : List E} {e : E} {t u : S} : Run step s es t → step t e u → Run step s (es ++ [e]) u

/-- The steps of `step` that meet the condition `ok`. -/
def Guarded (ok : S → E → Prop) (step : S → E → S → Prop) : S → E → S → Prop :=
  fun s e t => ok s e ∧ step s e t

variable {step step' : S → E → S → Prop} {s t u : S} {es es' : List E} {e : E}

namespace Run

/-- A single step is a run. -/
theorem single (h : step s e t) : Run step s [e] t := nil.snoc h

/-- Runs compose. -/
theorem append (h : Run step s es t) (h' : Run step t es' u) : Run step s (es ++ es') u := by
  induction h' with
  | nil => simpa using h
  | snoc _ hstep ih =>
    rw [← List.append_assoc]
    exact ih.snoc hstep

/-- A property of states that holds at the start and that every step preserves
holds at the end of every run. -/
theorem invariant {I : S → Prop} (h : Run step s es t) (h₀ : I s)
    (hstep : ∀ s e t, I s → step s e t → I t) : I t := by
  induction h with
  | nil => exact h₀
  | snoc _ he ih => exact hstep _ _ _ ih he

/-- The traced form of `invariant`: the property may mention the labels so far. -/
theorem traced {J : List E → S → Prop} (h : Run step s es t) (h₀ : J [] s)
    (hstep : ∀ es s e t, J es s → step s e t → J (es ++ [e]) t) : J es t := by
  induction h with
  | nil => exact h₀
  | snoc _ he ih => exact hstep _ _ _ _ ih he

/-- A run of one system is a run of any system with more steps. -/
theorem mono (h : Run step s es t) (hle : ∀ s e t, step s e t → step' s e t) :
    Run step' s es t := by
  induction h with
  | nil => exact nil
  | snoc _ he ih => exact ih.snoc (hle _ _ _ he)

/-- Every step of a guarded run is a step of the system. -/
theorem of_guarded {ok : S → E → Prop} (h : Run (Guarded ok step) s es t) : Run step s es t :=
  h.mono fun _ _ _ he => he.2

end Run

/-! ## Step functions -/

/-- The relation of a partial step function. -/
def StepOf (f : S → E → Option S) : S → E → S → Prop := fun s e t => f s e = some t

/-- Take the steps of a list of labels one after the other. -/
def exec (f : S → E → Option S) : S → List E → Option S
  | s, [] => some s
  | s, e :: es => (f s e).bind fun t => exec f t es

/-- `exec`, stopping at a step that does not meet the condition. -/
def execGuarded (ok : S → E → Prop) [∀ s e, Decidable (ok s e)] (f : S → E → Option S) :
    S → List E → Option S
  | s, [] => some s
  | s, e :: es => if ok s e then (f s e).bind fun t => execGuarded ok f t es else none

variable {f : S → E → Option S}

/-- An evaluation of the step function is a run. -/
theorem Run.of_exec (h : exec f s es = some t) : Run (StepOf f) s es t := by
  induction es generalizing s with
  | nil =>
    obtain rfl := Option.some.inj h
    exact Run.nil
  | cons e es ih =>
    obtain ⟨m, hm, hes⟩ := Option.bind_eq_some_iff.mp h
    exact (Run.single hm).append (ih hes)

/-- An evaluation that meets the condition at every step is a guarded run. -/
theorem Run.of_execGuarded {ok : S → E → Prop} [∀ s e, Decidable (ok s e)]
    (h : execGuarded ok f s es = some t) : Run (Guarded ok (StepOf f)) s es t := by
  induction es generalizing s with
  | nil =>
    obtain rfl := Option.some.inj h
    exact Run.nil
  | cons e es ih =>
    rw [execGuarded] at h
    by_cases hok : ok s e
    · rw [if_pos hok] at h
      obtain ⟨m, hm, hes⟩ := Option.bind_eq_some_iff.mp h
      exact (Run.single ⟨hok, hm⟩).append (ih hes)
    · rw [if_neg hok] at h
      cases h

/-- An evaluation that ends in a state with the property `P`. -/
theorem Run.exists_of_exec {P : S → Prop} [DecidablePred P]
    (h : (exec f s es).any fun t => decide (P t)) : ∃ t, Run (StepOf f) s es t ∧ P t := by
  obtain ⟨t, ht, hP⟩ := (Option.any_eq_true _ _).mp h
  exact ⟨t, Run.of_exec ht, of_decide_eq_true hP⟩

/-- An evaluation that meets the condition at every step and ends with the property `P`. -/
theorem Run.exists_of_execGuarded {ok : S → E → Prop} [∀ s e, Decidable (ok s e)] {P : S → Prop}
    [DecidablePred P] (h : (execGuarded ok f s es).any fun t => decide (P t)) :
    ∃ t, Run (Guarded ok (StepOf f)) s es t ∧ P t := by
  obtain ⟨t, ht, hP⟩ := (Option.any_eq_true _ _).mp h
  exact ⟨t, Run.of_execGuarded ht, of_decide_eq_true hP⟩

/-! ## Executions without end -/

/-- There is an infinite sequence of steps from `s`. -/
def Diverges (step : S → S → Prop) (s : S) : Prop :=
  ∃ f : Nat → S, f 0 = s ∧ ∀ n, step (f n) (f (n + 1))

/-- A property that holds at the start and that some step always preserves is one that the
system can keep for ever. -/
theorem Diverges.of_progress {step : S → S → Prop} {I : S → Prop} (h₀ : I s)
    (hstep : ∀ s, I s → ∃ t, step s t ∧ I t) : Diverges step s := by
  choose next hnext hI using fun s : { s // I s } => hstep s.1 s.2
  let f : Nat → { s // I s } := fun n => Nat.rec ⟨s, h₀⟩ (fun _ t => ⟨next t, hI t⟩) n
  exact ⟨fun n => (f n).1, rfl, fun n => hnext (f n)⟩

/-- Where the steps are well founded no execution is infinite. -/
theorem not_diverges_of_acc {step : S → S → Prop} (h : Acc (fun t s => step s t) s) :
    ¬ Diverges step s := by
  induction h with
  | intro s _ ih =>
    rintro ⟨f, rfl, hf⟩
    exact ih (f 1) (hf 0) ⟨fun n => f (n + 1), rfl, fun n => hf (n + 1)⟩

end Transition
