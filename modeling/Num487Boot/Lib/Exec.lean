import Mathlib.Logic.Basic
import Mathlib.Order.Defs.Unbundled

/-!
# Programs over a State that May Halt

A program is an `EStateM ε σ α`: it runs on a state, and either returns a value or halts
with a reason `ε`, keeping the state it reached. This module fixes the reasoning rules
the rest of the development uses, over any state and any set of halting reasons.

* `bind_of_ok`, `bind_of_error`, `bind_eq_ok`: symbolic execution, one bind at a time.
* `Moves R x`: every run of `x`, returning or halting, moves the state along the relation
  `R`. With `R` reflexive and transitive this is the footprint of a program, and it is
  closed under sequencing (`Moves.bind`).
* `zoom get put x`: `x` on a part of the state.
* `Triple P x Q E`: from a state with `P`, a return satisfies `Q` and a halt satisfies `E`.
* `Coupled R x S E`: the two-run rule set. Started in two `R`-related states, `x` returns the
  same value in `S`-related states, or halts for the same reason in `E`-related states.
-/

namespace Exec

variable {ε σ α β : Type}

/-- The state a run ends in, whether it returned or halted. -/
def after : EStateM.Result ε σ α → σ
  | .ok _ s => s
  | .error _ s => s

/-- The value a run returned, if it returned. -/
def value? : EStateM.Result ε σ α → Option α
  | .ok a _ => some a
  | .error _ _ => none

/-- A run with a value has ended in `after`. -/
theorem eq_ok_after {r : EStateM.Result ε σ α} {a : α} (h : value? r = some a) :
    r = .ok a (after r) := by
  cases r with
  | ok b s =>
      cases h
      rfl
  | error e s => cases h

/-! ### Symbolic execution -/

/-- A run of `pure` leaves the state. -/
@[simp] theorem pure_apply (a : α) (s : σ) : (pure a : EStateM ε σ α) s = .ok a s := rfl

/-- A run of `get` returns the state. -/
@[simp] theorem get_apply (s : σ) : (get : EStateM ε σ σ) s = .ok s s := rfl

/-- A run of `modify` leaves the changed state. -/
@[simp] theorem modify_apply (f : σ → σ) (s : σ) :
    (modify f : EStateM ε σ PUnit) s = .ok ⟨⟩ (f s) := rfl

/-- A run of `throw` ends at once. -/
@[simp] theorem throw_apply (e : ε) (s : σ) :
    (throw e : EStateM ε σ α) s = .error e s := rfl

/-- A sequence runs its tail exactly when its head returns. -/
theorem bind_apply (x : EStateM ε σ α) (f : α → EStateM ε σ β) (s : σ) :
    (x >>= f) s = match x s with
      | .ok a t => f a t
      | .error e t => .error e t := rfl

/-- A sequence goes on from where its head has returned. -/
theorem bind_of_ok {x : EStateM ε σ α} {f : α → EStateM ε σ β} {s t : σ} {a : α}
    (h : x s = .ok a t) : (x >>= f) s = f a t := by
  rw [bind_apply, h]

/-- A sequence ends where its head has ended. -/
theorem bind_of_error {x : EStateM ε σ α} {f : α → EStateM ε σ β} {s t : σ} {e : ε}
    (h : x s = .error e t) : (x >>= f) s = .error e t := by
  rw [bind_apply, h]

/-- A sequence that returns went through a return of its head. -/
theorem bind_eq_ok {x : EStateM ε σ α} {f : α → EStateM ε σ β} {s u : σ} {b : β} :
    (x >>= f) s = .ok b u ↔ ∃ a t, x s = .ok a t ∧ f a t = .ok b u := by
  constructor
  · intro h
    cases hx : x s with
    | ok a t => exact ⟨a, t, rfl, by rwa [bind_of_ok hx] at h⟩
    | error e t => rw [bind_of_error hx] at h; simp at h
  · rintro ⟨a, t, hx, hf⟩
    rw [bind_of_ok hx, hf]

/-! ### Footprints -/

/-- Every run of `x` moves the state along `R`. -/
def Moves (R : σ → σ → Prop) (x : EStateM ε σ α) : Prop :=
  ∀ s, R s (after (x s))

section Moves

variable {R S : σ → σ → Prop}

/-- A reflexive relation allows to return. -/
theorem Moves.pure [Std.Refl R] (a : α) : Moves R (pure a : EStateM ε σ α) :=
  fun s => Std.Refl.refl s

/-- Looking at the state is allowed. -/
theorem Moves.get [Std.Refl R] : Moves R (get : EStateM ε σ σ) :=
  fun s => Std.Refl.refl s

/-- Ending early is allowed. -/
theorem Moves.throw [Std.Refl R] (e : ε) : Moves R (throw e : EStateM ε σ α) :=
  fun s => Std.Refl.refl s

/-- A change of the state within the relation. -/
theorem Moves.modify {f : σ → σ} (h : ∀ s, R s (f s)) :
    Moves R (modify f : EStateM ε σ PUnit) :=
  fun s => h s

/-- A transitive relation allows sequences. -/
theorem Moves.bind [IsTrans σ R] {x : EStateM ε σ α} {f : α → EStateM ε σ β}
    (hx : Moves R x) (hf : ∀ a, Moves R (f a)) : Moves R (x >>= f) := by
  intro s
  have h := hx s
  rw [bind_apply]
  cases hxs : x s with
  | ok a t =>
      rw [hxs] at h
      exact IsTrans.trans _ _ _ h (hf a t)
  | error e t =>
      rw [hxs] at h
      exact h

/-- Either branch moves within the relation. -/
theorem Moves.ite {c : Prop} [Decidable c] {x y : EStateM ε σ α}
    (hx : c → Moves R x) (hy : ¬ c → Moves R y) : Moves R (if c then x else y) := by
  by_cases h : c
  · rw [if_pos h]; exact hx h
  · rw [if_neg h]; exact hy h

/-- A larger relation allows the same programs. -/
theorem Moves.mono {x : EStateM ε σ α} (h : Moves R x) (hRS : ∀ s t, R s t → S s t) :
    Moves S x :=
  fun s => hRS _ _ (h s)

/-- The footprint of a returning run. -/
theorem Moves.of_ok {x : EStateM ε σ α} (h : Moves R x) {s t : σ} {a : α}
    (hx : x s = .ok a t) : R s t := by
  have := h s
  rwa [hx] at this

end Moves

/-! ### Triples -/

/-- A result that satisfies `Q` if it is a return and `E` if it is a halt. -/
def Ends (Q : α → σ → Prop) (E : ε → σ → Prop) : EStateM.Result ε σ α → Prop
  | .ok a t => Q a t
  | .error e t => E e t

/-- The ends of a run, seen under weaker conditions. -/
theorem Ends.imp {Q Q' : α → σ → Prop} {E E' : ε → σ → Prop} {r : EStateM.Result ε σ α}
    (h : Ends Q E r) (hQ : ∀ a t, Q a t → Q' a t) (hE : ∀ e t, E e t → E' e t) : Ends Q' E' r := by
  cases r with
  | ok a t => exact hQ a t h
  | error e t => exact hE e t h

/-- What a run moves to ends well when every state it can move to does. -/
theorem Moves.ends {R : σ → σ → Prop} {x : EStateM ε σ α} {Q : α → σ → Prop} {E : ε → σ → Prop}
    {s : σ} (h : Moves R x) (hQ : ∀ a t, R s t → Q a t) (hE : ∀ e t, R s t → E e t) :
    Ends Q E (x s) := by
  have hmove := h s
  cases hx : x s with
  | ok a t =>
      rw [hx] at hmove
      exact hQ a t hmove
  | error e t =>
      rw [hx] at hmove
      exact hE e t hmove

/-- From a state with `P`, a return of `x` satisfies `Q` and a halt satisfies `E`. -/
def Triple (P : σ → Prop) (x : EStateM ε σ α) (Q : α → σ → Prop) (E : ε → σ → Prop) :
    Prop :=
  ∀ s, P s → Ends Q E (x s)

section Triple

variable {P P' : σ → Prop} {Q Q' : α → σ → Prop} {E : ε → σ → Prop}

/-- A sequence ends well when its head does and the tail does from every return of it. -/
theorem Ends.bind {x : EStateM ε σ α} {f : α → EStateM ε σ β} {T : β → σ → Prop} {s : σ}
    (hx : Ends Q E (x s)) (hf : ∀ a t, Q a t → Ends T E (f a t)) : Ends T E ((x >>= f) s) := by
  rw [bind_apply]
  cases hxs : x s with
  | ok a t =>
      rw [hxs] at hx
      exact hf a t hx
  | error e t =>
      rw [hxs] at hx
      exact hx

/-- A result that is no halt is a return. -/
theorem Ends.returns {Q : α → σ → Prop} {r : EStateM.Result ε σ α}
    (h : Ends Q (fun _ _ => False) r) : ∃ a t, r = .ok a t ∧ Q a t := by
  cases r with
  | ok a t => exact ⟨a, t, rfl, h⟩
  | error e t => exact h.elim

/-- Run a program on a part of the state. -/
def zoom {τ : Type} (get : τ → σ) (put : σ → τ → τ) (x : EStateM ε σ α) : EStateM ε τ α := fun t =>
  match x (get t) with
  | .ok a s => .ok a (put s t)
  | .error e s => .error e (put s t)

/-- A program ends on a part of the state as it does there. -/
theorem ends_zoom {τ : Type} {get : τ → σ} {put : σ → τ → τ} {x : EStateM ε σ α} {t : τ}
    {Q : α → τ → Prop} {E : ε → τ → Prop}
    (h : Ends (fun a s => Q a (put s t)) (fun e s => E e (put s t)) (x (get t))) :
    Ends Q E (zoom get put x t) := by
  rw [zoom]
  cases hx : x (get t) with
  | ok a s =>
      rw [hx] at h
      exact h
  | error e s =>
      rw [hx] at h
      exact h

/-- A program that cannot halt returns. -/
theorem Triple.returns {x : EStateM ε σ α} (h : Triple P x Q fun _ _ => False) {s : σ}
    (hs : P s) : ∃ a t, x s = .ok a t ∧ Q a t := by
  have hend := h s hs
  cases hx : x s with
  | ok a t =>
      rw [hx] at hend
      exact ⟨a, t, rfl, hend⟩
  | error e t =>
      rw [hx] at hend
      exact hend.elim

/-- Nothing is known of a run. -/
theorem Triple.any (x : EStateM ε σ α) : Triple P x (fun _ _ => True) fun _ _ => True := by
  intro s _
  cases x s <;> trivial

/-- A return establishes what the precondition says of its value. -/
theorem Triple.pure {a : α} (h : ∀ s, P s → Q a s) :
    Triple P (pure a : EStateM ε σ α) Q E :=
  fun s hs => h s hs

/-- The state that `get` returns is the one it is called in. -/
theorem Triple.get {P : σ → Prop} {E : ε → σ → Prop} :
    Triple P (get : EStateM ε σ σ) (fun a s => P s ∧ a = s) E :=
  fun _ hs => ⟨hs, rfl⟩

/-- An assignment, by what holds after it. -/
theorem Triple.modify {f : σ → σ} {Q : PUnit → σ → Prop} (h : ∀ s, P s → Q ⟨⟩ (f s)) :
    Triple P (modify f : EStateM ε σ PUnit) Q E :=
  fun s hs => h s hs

/-- The rule of sequence. -/
theorem Triple.bind {x : EStateM ε σ α} {f : α → EStateM ε σ β} {T : β → σ → Prop}
    (hx : Triple P x Q E) (hf : ∀ a, Triple (Q a) (f a) T E) :
    Triple P (x >>= f) T E :=
  fun s hs => (hx s hs).bind fun a t ht => hf a t ht

/-- The rule of the conditional. -/
theorem Triple.ite {c : Prop} [Decidable c] {x y : EStateM ε σ α}
    (hx : c → Triple P x Q E) (hy : ¬ c → Triple P y Q E) :
    Triple P (if c then x else y) Q E := by
  by_cases h : c
  · rw [if_pos h]; exact hx h
  · rw [if_neg h]; exact hy h

/-- A fact the precondition states about no state. -/
theorem Triple.lift {φ : Prop} {x : EStateM ε σ α} (h : φ → Triple P x Q E) :
    Triple (fun s => φ ∧ P s) x Q E :=
  fun s hs => h hs.1 s hs.2

/-- A value the precondition only claims to exist. -/
theorem Triple.exists {γ : Type} {P : γ → σ → Prop} {x : EStateM ε σ α}
    (h : ∀ c, Triple (P c) x Q E) : Triple (fun s => ∃ c, P c s) x Q E := by
  rintro s ⟨c, hs⟩
  exact h c s hs

/-- The rule of consequence. -/
theorem Triple.conseq {x : EStateM ε σ α} (h : Triple P x Q E) (hP : ∀ s, P' s → P s)
    (hQ : ∀ a s, Q a s → Q' a s) : Triple P' x Q' E := by
  intro s hs
  have := h s (hP s hs)
  cases hxs : x s with
  | ok a t => rw [hxs] at this; exact hQ a t this
  | error e t => rw [hxs] at this; exact this

end Triple

/-! ### Two runs -/

/-- Two results agree: the same value in `S`-related states, or the same reason to halt in
`E`-related states. -/
def Agree (S : α → σ → σ → Prop) (E : σ → σ → Prop) :
    EStateM.Result ε σ α → EStateM.Result ε σ α → Prop
  | .ok a s, .ok b t => a = b ∧ S a s t
  | .error e s, .error d t => e = d ∧ E s t
  | _, _ => False

/-- Two runs of `x` from `R`-related states agree, with `S` on return and `E` on a halt. -/
def Coupled (R : σ → σ → Prop) (x : EStateM ε σ α) (S : α → σ → σ → Prop)
    (E : σ → σ → Prop) : Prop :=
  ∀ s t, R s t → Agree S E (x s) (x t)

section Coupled

variable {R R' E : σ → σ → Prop} {S S' : α → σ → σ → Prop}

/-- Agreement under a weaker relation. -/
theorem Agree.mono {r₁ r₂ : EStateM.Result ε σ α} (h : Agree S E r₁ r₂)
    (hS : ∀ a s t, S a s t → S' a s t) : Agree S' E r₁ r₂ := by
  cases r₁ with
  | ok a s =>
      cases r₂ with
      | ok b t => exact ⟨h.1, hS _ _ _ h.2⟩
      | error d t => exact h.elim
  | error e s =>
      cases r₂ with
      | ok b t => exact h.elim
      | error d t => exact h

/-- Two sequences agree when their heads do and their tails do from every return of them. -/
theorem Agree.bind {x y : EStateM ε σ α} {f g : α → EStateM ε σ β} {T : β → σ → σ → Prop}
    {s t : σ} (h : Agree S E (x s) (y t))
    (hf : ∀ a s' t', S a s' t' → Agree T E (f a s') (g a t')) :
    Agree T E ((x >>= f) s) ((y >>= g) t) := by
  rw [bind_apply, bind_apply]
  cases hs : x s with
  | ok a s' =>
      cases ht : y t with
      | ok b t' =>
          rw [hs, ht] at h
          obtain ⟨rfl, h⟩ := h
          exact hf a s' t' h
      | error d t' => rw [hs, ht] at h; exact h.elim
  | error e s' =>
      cases ht : y t with
      | ok b t' => rw [hs, ht] at h; exact h.elim
      | error d t' => rw [hs, ht] at h; exact h

/-- Both runs return one value. -/
theorem Coupled.pure {a : α} (h : ∀ s t, R s t → S a s t) :
    Coupled R (pure a : EStateM ε σ α) S E :=
  fun s t hst => ⟨rfl, h s t hst⟩

/-- Both states are changed alike. -/
theorem Coupled.modify {f : σ → σ} {S : PUnit → σ → σ → Prop}
    (h : ∀ s t, R s t → S ⟨⟩ (f s) (f t)) :
    Coupled R (modify f : EStateM ε σ PUnit) S E :=
  fun s t hst => ⟨rfl, h s t hst⟩

/-- The relational rule of sequence. -/
theorem Coupled.bind {x : EStateM ε σ α} {f : α → EStateM ε σ β} {T : β → σ → σ → Prop}
    (hx : Coupled R x S E) (hf : ∀ a, Coupled (S a) (f a) T E) :
    Coupled R (x >>= f) T E :=
  fun s t hst => (hx s t hst).bind fun a s' t' h => hf a s' t' h

/-- A condition that does not depend on the state sends both runs the same way. -/
theorem Coupled.ite {c : Prop} [Decidable c] {x y : EStateM ε σ α}
    (hx : c → Coupled R x S E) (hy : ¬ c → Coupled R y S E) :
    Coupled R (if c then x else y) S E := by
  by_cases h : c
  · rw [if_pos h]; exact hx h
  · rw [if_neg h]; exact hy h

/-- The relational rule of consequence. -/
theorem Coupled.conseq {x : EStateM ε σ α} (h : Coupled R x S E)
    (hR : ∀ s t, R' s t → R s t) (hS : ∀ a s t, S a s t → S' a s t) : Coupled R' x S' E :=
  fun s t hst => (h s t (hR s t hst)).mono hS

end Coupled

end Exec
