import Num487Boot.Lib.Exec
import Num487Boot.Lib.Runs

/-!
# Calls that Simulate an Abstract System

An abstract system answers each input and moves on. A call on the concrete state simulates
it when, from related states, it returns the abstract answer in a state related to the
abstract successor. Then so does a whole list of calls (`Simulates.run`): the same answers
in the same order, every call returning, and related states at the end.
-/

namespace Runs

open Exec

variable {ε σ τ ι ο : Type} {next : τ → ι → τ} {answer : τ → ι → ο}

/-- The answers along a run of the abstract system. -/
def answers (next : τ → ι → τ) (answer : τ → ι → ο) : τ → List ι → List ο
  | _, [] => []
  | t, i :: is => answer t i :: answers next answer (next t i) is

/-- From related states and on an input the condition allows, the call returns the abstract
answer and keeps the states related. -/
def Simulates (call : ι → EStateM ε σ ο) (next : τ → ι → τ) (answer : τ → ι → ο)
    (C : τ → ι → Prop) (R : σ → τ → Prop) : Prop :=
  ∀ s t i, R s t → C t i → ∃ s', call i s = .ok (answer t i) s' ∧ R s' (next t i)

/-- **Simulation.** What each call simulates, a list of calls simulates. -/
theorem Simulates.run {call : ι → EStateM ε σ ο} {C : τ → ι → Prop} {R : σ → τ → Prop}
    (h : Simulates call next answer C R) {s : σ} {t : τ} {is : List ι} (hst : R s t)
    (his : Guarded next C t is) :
    ∃ s', is.mapM call s = .ok (answers next answer t is) s' ∧ R s' (run next t is) := by
  induction is generalizing s t with
  | nil => exact ⟨s, rfl, hst⟩
  | cons i is ih =>
      obtain ⟨s₁, hcall, hst₁⟩ := h s t i hst his.1
      obtain ⟨s₂, hrun, hst₂⟩ := ih hst₁ his.2
      refine ⟨s₂, ?_, hst₂⟩
      rw [List.mapM_cons, bind_of_ok hcall, bind_of_ok hrun]
      rfl

end Runs
