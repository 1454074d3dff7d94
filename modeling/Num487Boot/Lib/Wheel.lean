import Mathlib.Data.Nat.ModEq

/-!
# Places in a Circle

`n` places, numbered and passed in a circle. `Behind n p m b` says that `b` is one of the last
`m` places before `p`, for a position `p` that counts the places passed.

* `behind_succ`: passing a place puts it behind.
* `not_behind_ahead`: fewer than `n` places on, nothing comes up again.
* `behind_all`: a whole turn passes every place.
-/

namespace Wheel

variable {n p q m b k : ℕ}

/-- `b` is one of the `m` places behind `p` on a wheel of `n` places. -/
def Behind (n p m b : ℕ) : Prop := b < n ∧ ∃ d, 0 < d ∧ d ≤ m ∧ b + d ≡ p [MOD n]

/-- Places are counted around the wheel. -/
theorem behind_congr (h : p ≡ q [MOD n]) : Behind n p m b ↔ Behind n q m b := by
  constructor
  · rintro ⟨hb, d, hpos, hle, hd⟩
    exact ⟨hb, d, hpos, hle, hd.trans h⟩
  · rintro ⟨hb, d, hpos, hle, hd⟩
    exact ⟨hb, d, hpos, hle, hd.trans h.symm⟩

/-- No place is behind within no distance. -/
theorem not_behind_zero : ¬ Behind n p 0 b := by
  rintro ⟨-, d, hpos, hle, -⟩
  omega

/-- Passing a place puts it behind. -/
theorem behind_succ (hn : 0 < n) : Behind n (p + 1) (m + 1) b ↔ Behind n p m b ∨ b = p % n := by
  constructor
  · rintro ⟨hb, d, hpos, hle, hd⟩
    obtain ⟨d, rfl⟩ : ∃ e, d = e + 1 := ⟨d - 1, by omega⟩
    have hd' : b + d ≡ p [MOD n] := Nat.ModEq.add_right_cancel' 1 hd
    rcases Nat.eq_zero_or_pos d with rfl | hd0
    · exact .inr (Nat.mod_eq_of_modEq hd'.symm hb).symm
    · exact .inl ⟨hb, d, hd0, by omega, hd'⟩
  · rintro (⟨hb, d, hpos, hle, hd⟩ | rfl)
    · exact ⟨hb, d + 1, Nat.succ_pos d, by omega, hd.add_right 1⟩
    · exact ⟨Nat.mod_lt p hn, 1, Nat.one_pos, by omega, (Nat.mod_modEq p n).add_right 1⟩

/-- Fewer than `n` places on, nothing comes up again. -/
theorem not_behind_ahead (h : k + m < n) : ¬ Behind n p m ((p + k) % n) := by
  rintro ⟨-, d, hpos, hle, hd⟩
  have hturn : p + (k + d) ≡ p [MOD n] := by
    rw [← Nat.add_assoc]
    exact ((Nat.mod_modEq _ n).symm.add_right d).trans hd
  have hdvd := Nat.add_modEq_left_iff.mp hturn
  have := Nat.le_of_dvd (by omega) hdvd
  omega

/-- A whole turn passes every place. -/
theorem behind_all (hb : b < n) : Behind n p n b := by
  have hp : p % n < n := Nat.mod_lt p (by omega)
  have hmod : p % n ≡ p [MOD n] := Nat.mod_modEq p n
  by_cases h : b < p % n
  · refine ⟨hb, p % n - b, by omega, by omega, ?_⟩
    rwa [Nat.add_sub_cancel' (by omega)]
  · refine ⟨hb, p % n + n - b, by omega, by omega, ?_⟩
    rw [Nat.add_sub_cancel' (by omega)]
    exact Nat.ModEq.trans (by rw [Nat.ModEq, Nat.add_mod_right]) hmod

end Wheel
