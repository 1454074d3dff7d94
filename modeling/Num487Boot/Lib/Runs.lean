import Mathlib.Logic.Basic

/-!
# Runs of a Deterministic System

A system with states `σ` that takes one input `ι` a step. A run is the fold of its step
function over a list of inputs, so every reached state is the end of a run.

* `run_invariant`: what every step preserves, a run preserves.
* `Guarded next C`: every step of a run meets a condition on the state before it and its
  input.
* `Guarded.invariant`: what a guarded step preserves, a guarded run preserves.
-/

namespace Runs

variable {σ τ ι ο : Type}

/-- The state after the inputs `is`. -/
def run (next : σ → ι → σ) (s : σ) (is : List ι) : σ := is.foldl next s

section Run

variable (next : σ → ι → σ)

/-- No step is taken. -/
@[simp] theorem run_nil (s : σ) : run next s [] = s := rfl

/-- The first step, and then the others. -/
@[simp] theorem run_cons (s : σ) (i : ι) (is : List ι) :
    run next s (i :: is) = run next (next s i) is := rfl

/-- Two runs one after the other. -/
theorem run_append (s : σ) (is js : List ι) :
    run next s (is ++ js) = run next (run next s is) js :=
  List.foldl_append

/-- What every step preserves, a run preserves. -/
theorem run_invariant {next : σ → ι → σ} (Inv : σ → Prop)
    (hstep : ∀ s i, Inv s → Inv (next s i)) {s : σ} (is : List ι) (hs : Inv s) :
    Inv (run next s is) := by
  induction is generalizing s with
  | nil => exact hs
  | cons i is ih => exact ih (hstep s i hs)

end Run

/-- Every step of the run meets the condition `C`. -/
def Guarded (next : σ → ι → σ) (C : σ → ι → Prop) : σ → List ι → Prop
  | _, [] => True
  | s, i :: is => C s i ∧ Guarded next C (next s i) is

/-- A guard of decidable conditions can be evaluated along the run. -/
instance Guarded.decide {next : σ → ι → σ} {C : σ → ι → Prop} [∀ s i, Decidable (C s i)] :
    ∀ s is, Decidable (Guarded next C s is)
  | _, [] => isTrue trivial
  | s, i :: is =>
      have : Decidable (Guarded next C (next s i) is) := Guarded.decide (next s i) is
      inferInstanceAs (Decidable (C s i ∧ Guarded next C (next s i) is))

/-- A run without steps meets every condition. -/
theorem Guarded.nil {next : σ → ι → σ} {C : σ → ι → Prop} {s : σ} : Guarded next C s [] := trivial

/-- The first step meets the condition, and the others do after it. -/
theorem Guarded.cons {next : σ → ι → σ} {C : σ → ι → Prop} {s : σ} {i : ι} {is : List ι}
    (hi : C s i) (his : Guarded next C (next s i) is) : Guarded next C s (i :: is) :=
  ⟨hi, his⟩

/-- The condition at one step of the run. -/
theorem Guarded.at_step {next : σ → ι → σ} {C : σ → ι → Prop} {s : σ} {is js ks : List ι} {i : ι}
    (h : Guarded next C s is) (his : is = js ++ i :: ks) : C (run next s js) i := by
  subst his
  induction js generalizing s with
  | nil => exact h.1
  | cons j js ih => exact ih h.2

/-- A condition on the inputs alone can be added to a step condition. -/
theorem Guarded.and_forall {next : σ → ι → σ} {C : σ → ι → Prop} {V : ι → Prop} {s : σ}
    {is : List ι} (h : Guarded next C s is) (hV : ∀ i ∈ is, V i) :
    Guarded next (fun s i => C s i ∧ V i) s is := by
  induction is generalizing s with
  | nil => trivial
  | cons i is ih =>
      rw [List.forall_mem_cons] at hV
      exact ⟨⟨h.1, hV.1⟩, ih h.2 hV.2⟩

/-- **Invariance.** What a step under the condition preserves, a run whose steps all meet
the condition preserves. -/
theorem Guarded.invariant {next : σ → ι → σ} {C : σ → ι → Prop} (Inv : σ → Prop)
    (hstep : ∀ s i, C s i → Inv s → Inv (next s i)) {s : σ} {is : List ι}
    (h : Guarded next C s is) (hs : Inv s) : Inv (run next s is) := by
  induction is generalizing s with
  | nil => exact hs
  | cons i is ih =>
      obtain ⟨hi, his⟩ := h
      exact ih his (hstep s i hi hs)

end Runs
