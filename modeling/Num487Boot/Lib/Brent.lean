import Mathlib.Data.Fintype.Pigeonhole

/-!
# Brent's Cycle Detection

A walk that may run in a circle is followed by a tortoise. The tortoise stands still while the
walk goes on for a number of steps, then it is put where the walk is and the number is doubled.
An alarm is raised when the walk meets the tortoise.

* `exists_stands`: the tortoise is always put where the walk has been, and moved in time.
* `Unalarmed.bound`: a walk that is periodic from some step on does not go on for long without an
  alarm.
* `exists_period`: a walk that is led through finitely many stations is periodic from some step
  on.
-/

namespace Brent

variable {α : Type} {x : ℕ → α} {t₀ : α} {same : α → α → Prop}

/-- Where the tortoise stands, for how many steps, and when it is moved. -/
structure Tortoise (α : Type) where
  pos : α
  steps : ℕ
  period : ℕ

/-- One step of the list. The tortoise stays where it is while its period lasts, and then moves to
where the walk is and doubles the period. -/
def Tortoise.next (t : Tortoise α) (a : α) : Tortoise α :=
  if t.steps = t.period then ⟨a, 1, 2 * t.period⟩ else { t with steps := t.steps + 1 }

/-- The tortoise when the walk is at its step `n`. -/
def tortoise (t₀ : α) (x : ℕ → α) : ℕ → Tortoise α
  | 0 => ⟨t₀, 1, 1⟩
  | n + 1 => (tortoise t₀ x n).next (x n)

/-- No alarm before step `n`. -/
def Unalarmed (same : α → α → Prop) (t₀ : α) (x : ℕ → α) (n : ℕ) : Prop :=
  ∀ k < n, ¬ same (x k) (tortoise t₀ x k).pos

/-- The tortoise stands where the walk was at step `m`, and the walk has not been there since. -/
structure Stands (same : α → α → Prop) (t₀ : α) (x : ℕ → α) (m n : ℕ) : Prop where
  pos_eq : (tortoise t₀ x n).pos = x m
  steps_eq : (tortoise t₀ x n).steps = n - m
  period_eq : (tortoise t₀ x n).period = m + 2
  lt : m < n
  le : n ≤ 2 * m + 2
  apart : ∀ k, m < k → k < n → ¬ same (x k) (x m)

/-- The steps after which an alarm is sure for a walk with a given period from a step on. -/
def limit (start period : ℕ) : ℕ := 2 * max (start + 2) period

/-- A tortoise that is not met for a whole period was put too early, or for too few steps. -/
theorem early_of_apart {start period m e : ℕ} (hsame : ∀ a, same a a) (hpos : 0 < period)
    (hper : ∀ j, x (start + period + j) = x (start + j))
    (hapart : ∀ k, m < k → k ≤ e → ¬ same (x k) (x m)) (he : m + period ≤ e) :
    m < start ∨ m + 2 < period := by
  by_contra hlate
  have hstart : start ≤ m := by omega
  have hmeet := hper (m - start)
  have hlater : start + period + (m - start) = m + period := by omega
  have hthen : start + (m - start) = m := by omega
  rw [hlater, hthen] at hmeet
  exact hapart (m + period) (by omega) he (hmeet ▸ hsame _)

/-- In a list with a period the tortoise comes to stand on the cycle, before a bound in the start
and the period, with a lap of its own that is long enough. -/
theorem exists_stands {start period n : ℕ} (h : Unalarmed same t₀ x (n + 1))
    (hsame : ∀ a, same a a) (hpos : 0 < period)
    (hper : ∀ j, x (start + period + j) = x (start + j)) :
    ∃ m, Stands same t₀ x m (n + 1) ∧ m + 2 < limit start period := by
  have hlimit : start + 2 ≤ max (start + 2) period := Nat.le_max_left _ _
  have hlimit' : period ≤ max (start + 2) period := Nat.le_max_right _ _
  rw [limit]
  induction n with
  | zero => exact ⟨0, ⟨rfl, rfl, rfl, by omega, by omega, fun k _ _ => by omega⟩, by omega⟩
  | succ n ih =>
      obtain ⟨m, hm, hlt⟩ := ih fun k hk => h k (by omega)
      have hlast := h (n + 1) (by omega)
      rw [hm.pos_eq] at hlast
      have hle := hm.le
      have hmn := hm.lt
      have hapart : ∀ k, m < k → k ≤ n + 1 → ¬ same (x k) (x m) := by
        intro k hk hkn
        rcases Nat.lt_or_eq_of_le hkn with hlt | rfl
        · exact hm.apart k hk hlt
        · exact hlast
      by_cases hturn : n + 1 = 2 * m + 2
      · -- the tortoise is moved: it has waited for a whole period
        have hsteps : (tortoise t₀ x (n + 1)).steps = (tortoise t₀ x (n + 1)).period := by
          rw [hm.steps_eq, hm.period_eq]
          omega
        have hnext : tortoise t₀ x (n + 1 + 1)
            = ⟨x (n + 1), 1, 2 * (tortoise t₀ x (n + 1)).period⟩ := if_pos hsteps
        refine ⟨n + 1, ⟨?_, ?_, ?_, by omega, by omega, fun k _ _ => by omega⟩, ?_⟩
        · rw [hnext]
        · rw [hnext]
          show 1 = n + 1 + 1 - (n + 1)
          omega
        · rw [hnext, hm.period_eq]
          show 2 * (m + 2) = n + 1 + 2
          omega
        · by_contra hfar
          have hearly := early_of_apart hsame hpos hper hapart (by omega)
          omega
      · have hsteps : (tortoise t₀ x (n + 1)).steps ≠ (tortoise t₀ x (n + 1)).period := by
          rw [hm.steps_eq, hm.period_eq]
          omega
        have hnext : tortoise t₀ x (n + 1 + 1) = { tortoise t₀ x (n + 1) with
            steps := (tortoise t₀ x (n + 1)).steps + 1 } := if_neg hsteps
        refine ⟨m, ⟨?_, ?_, ?_, by omega, by omega, ?_⟩, hlt⟩
        · rw [hnext]
          exact hm.pos_eq
        · rw [hnext]
          show (tortoise t₀ x (n + 1)).steps + 1 = _
          rw [hm.steps_eq]
          omega
        · rw [hnext]
          exact hm.period_eq
        · exact fun k hk hkn => hapart k hk (Nat.le_of_lt_succ hkn)

/-- **A periodic walk is found out.** -/
theorem Unalarmed.bound {start period n : ℕ} (h : Unalarmed same t₀ x n) (hsame : ∀ a, same a a)
    (hpos : 0 < period) (hper : ∀ j, x (start + period + j) = x (start + j)) :
    n ≤ limit start period + period := by
  rcases n with - | n
  · exact Nat.zero_le _
  · obtain ⟨m, hm, hlt⟩ := exists_stands h hsame hpos hper
    have hle := hm.le
    by_cases hfar : m + period < n + 1
    · have hearly := early_of_apart hsame hpos hper
        (fun k hk hkn => hm.apart k hk (Nat.lt_succ_of_le hkn)) (Nat.le_of_lt_succ hfar)
      have hlimit : start + 2 ≤ max (start + 2) period := Nat.le_max_left _ _
      have hlimit' : period ≤ max (start + 2) period := Nat.le_max_right _ _
      rw [limit]
      omega
    · omega

/-- A walk that chooses its next step by one of `n` stations. -/
theorem exists_period {β : Type} [Fintype β] (station : α → β) (next : β → α)
    (hx : ∀ n, x (n + 1) = next (station (x n))) :
    ∃ start period, 0 < period ∧ start + period ≤ Fintype.card β + 1 ∧
      ∀ j, x (start + period + j) = x (start + j) := by
  obtain ⟨i, j, hne, heq⟩ := Fintype.exists_ne_map_eq_of_card_lt
    (fun i : Fin (Fintype.card β + 1) => station (x i)) (by rw [Fintype.card_fin]; omega)
  wlog hij : i < j generalizing i j
  · exact this j i (Ne.symm hne) heq.symm (lt_of_le_of_ne (not_lt.mp hij) (Ne.symm hne))
  have hlt : i.val < j.val := hij
  have hj := j.isLt
  have hmeet : x (j.val + 1) = x (i.val + 1) := by
    rw [hx, hx]
    exact congrArg next heq.symm
  refine ⟨i.val + 1, j.val - i.val, by omega, by omega, fun k => ?_⟩
  have hback : i.val + 1 + (j.val - i.val) = j.val + 1 := by omega
  rw [hback]
  induction k with
  | zero => exact hmeet
  | succ k ih =>
      rw [← Nat.add_assoc, ← Nat.add_assoc, hx, hx, ih]

end Brent
