import Num487Boot.Lib.Exec

/-!
# Programs with a Known Answer

`Yields I x a`: from every state with `I` the program `x` returns `a`, and `I` holds again. A
program that is written for any monad can be run on a state and, in `Id`, without one; the
answer of the one is then stated as the value of the other, step by step.
-/

namespace Exec

variable {ε σ α β : Type} {I : σ → Prop}

/-- From every state with `I` the program returns `a`, and `I` holds again. -/
def Yields (I : σ → Prop) (x : EStateM ε σ α) (a : α) : Prop :=
  ∀ s, I s → ∃ t, x s = .ok a t ∧ I t

/-- A return. -/
theorem Yields.pure (a : α) : Yields I (pure a : EStateM ε σ α) a :=
  fun s hs => ⟨s, rfl, hs⟩

/-- A sequence, with the answer of its head known. -/
theorem Yields.bind {x : EStateM ε σ α} {f : α → EStateM ε σ β} {a : α} {b : β}
    (hx : Yields I x a) (hf : Yields I (f a) b) : Yields I (x >>= f) b := by
  intro s hs
  obtain ⟨t, hxs, ht⟩ := hx s hs
  obtain ⟨u, hft, hu⟩ := hf t ht
  exact ⟨u, by rw [bind_of_ok hxs, hft], hu⟩

/-- In `Id` the tail of a sequence is given the value of its head. -/
theorem Yields.bind_id {x : EStateM ε σ α} {f : α → EStateM ε σ β} {x' : Id α} {f' : α → Id β}
    (hx : Yields I x x') (hf : Yields I (f x') (f' x')) :
    Yields I (x >>= f) (x' >>= f' : Id β) :=
  hx.bind hf

/-- Two programs that branch on one condition. -/
theorem Yields.ite {c : Prop} [Decidable c] {x y : EStateM ε σ α} {a b : α}
    (hx : c → Yields I x a) (hy : ¬ c → Yields I y b) :
    Yields I (if c then x else y) (if c then a else b) := by
  by_cases h : c
  · rw [if_pos h, if_pos h]
    exact hx h
  · rw [if_neg h, if_neg h]
    exact hy h

end Exec
