import Mathlib.Algebra.Order.Ring.Nat
import Mathlib.Order.Defs.Unbundled

/-!
# Counting Bits

Set bits and trailing zeros of numbers of `w` bits, by recursion on the width.

* `ones_add_trailing`: counting up by one clears the trailing ones and sets the zero above
  them.
* `le_trailing_iff`: the trailing zeros of a number are the powers of two that divide it.
* `trailing_sub_two_pow`: taking a power of two below the lowest set bit off a number leaves
  exactly its own zeros.
-/

namespace Bits

/-- How many of the low `w` bits are set. -/
def ones : ℕ → ℕ → ℕ
  | 0, _ => 0
  | w + 1, n => n % 2 + ones w (n / 2)

/-- How many of the low `w` bits lie below the lowest set one. -/
def trailing : ℕ → ℕ → ℕ
  | 0, _ => 0
  | w + 1, n => if n % 2 = 1 then 0 else trailing w (n / 2) + 1

variable {w n k : ℕ}

/-- Zero has no bits set. -/
@[simp] theorem ones_zero (w : ℕ) : ones w 0 = 0 := by
  induction w with
  | zero => rfl
  | succ w ih => simp [ones, ih]

/-- There are no more set bits than bits. -/
theorem ones_le (h : n < 2 ^ k) (w : ℕ) : ones w n ≤ k := by
  induction w generalizing n k with
  | zero => exact Nat.zero_le k
  | succ w ih =>
      cases k with
      | zero =>
          obtain rfl : n = 0 := by omega
          exact Nat.le_of_eq (ones_zero (w + 1))
      | succ k =>
          have hhalf : n / 2 < 2 ^ k := by omega
          have := ih hhalf
          rw [ones]
          omega

/-- The lowest bit that is set is one of the `w` bits. -/
theorem trailing_lt (hpos : 0 < n) (h : n < 2 ^ w) : trailing w n < w := by
  induction w generalizing n with
  | zero => omega
  | succ w ih =>
      rw [trailing]
      split
      · exact Nat.succ_pos w
      · have := ih (n := n / 2) (by omega) (by omega)
        omega

/-- **Counting up.** The trailing zeros of a number were the trailing ones of the number
before it. -/
theorem ones_add_trailing (hpos : 0 < n) (h : n < 2 ^ w) :
    ones w n + trailing w n = ones w (n - 1) + 1 := by
  induction w generalizing n with
  | zero => omega
  | succ w ih =>
      simp only [ones, trailing]
      rcases Nat.mod_two_eq_zero_or_one n with heven | hodd
      · have hhalf := ih (n := n / 2) (by omega) (by omega)
        have hbit : (n - 1) % 2 = 1 := by omega
        have hrest : (n - 1) / 2 = n / 2 - 1 := by omega
        rw [heven, if_neg Nat.zero_ne_one, hbit, hrest]
        omega
      · have hbit : (n - 1) % 2 = 0 := by omega
        have hrest : (n - 1) / 2 = n / 2 := by omega
        rw [hodd, if_pos rfl, hbit, hrest]
        omega

/-- **Trailing zeros are the powers of two below a number.** -/
theorem le_trailing_iff (hpos : 0 < n) (h : n < 2 ^ w) : k ≤ trailing w n ↔ 2 ^ k ∣ n := by
  induction w generalizing n k with
  | zero => omega
  | succ w ih =>
      cases k with
      | zero => simp
      | succ k =>
          rw [trailing]
          rcases Nat.mod_two_eq_zero_or_one n with heven | hodd
          · have hhalf := ih (n := n / 2) (k := k) (by omega) (by omega)
            obtain ⟨m, rfl⟩ : 2 ∣ n := Nat.dvd_of_mod_eq_zero heven
            rw [Nat.mul_div_cancel_left m (by decide)] at hhalf
            rw [heven, if_neg Nat.zero_ne_one, Nat.mul_div_cancel_left m (by decide),
              Nat.add_le_add_iff_right, hhalf, Nat.pow_succ', Nat.mul_dvd_mul_iff_left (by decide)]
          · have hodd' : ¬ 2 ∣ n := by omega
            rw [hodd, if_pos rfl]
            constructor
            · intro hk
              omega
            · intro hdvd
              exact absurd (Nat.dvd_trans (Nat.dvd_mul_left 2 (2 ^ k)) hdvd) hodd'

/-- The power of two with that bit divides the number. -/
theorem two_pow_trailing_dvd (hpos : 0 < n) (h : n < 2 ^ w) : 2 ^ trailing w n ∣ n :=
  (le_trailing_iff hpos h).mp (Nat.le_refl _)

/-- The largest power of two that divides a number is no larger than it. -/
theorem two_pow_trailing_le (hpos : 0 < n) (h : n < 2 ^ w) : 2 ^ trailing w n ≤ n :=
  Nat.le_of_dvd hpos (two_pow_trailing_dvd hpos h)

/-- A power of two below the lowest set bit, taken off, becomes the lowest set bit. -/
theorem trailing_sub_two_pow (hpos : 0 < n) (h : n < 2 ^ w) (hk : k < trailing w n) :
    trailing w (n - 2 ^ k) = k := by
  have hdvd : 2 ^ (k + 1) ∣ n := (le_trailing_iff hpos h).mp hk
  obtain ⟨m, rfl⟩ := hdvd
  have hm : 0 < m := Nat.pos_of_mul_pos_left hpos
  have hrest : 2 ^ (k + 1) * m - 2 ^ k = 2 ^ k * (2 * m - 1) := by
    rw [Nat.pow_succ, Nat.mul_assoc, Nat.mul_sub, Nat.mul_one]
  have hpow : 0 < 2 ^ k := Nat.two_pow_pos k
  have hpos' : 0 < 2 ^ k * (2 * m - 1) := Nat.mul_pos hpow (by omega)
  have hlt' : 2 ^ k * (2 * m - 1) < 2 ^ w := by omega
  rw [hrest]
  refine Nat.le_antisymm ?_ ((le_trailing_iff hpos' hlt').mpr (Nat.dvd_mul_right _ _))
  -- one more zero would make an odd number even
  refine Nat.le_of_not_lt fun hlt => ?_
  have hodd := (le_trailing_iff (k := k + 1) hpos' hlt').mp hlt
  rw [Nat.pow_succ, Nat.mul_dvd_mul_iff_left hpow] at hodd
  omega

/-- The lowest set bit, taken off, leaves a higher one. -/
theorem lt_trailing_sub (h : n < 2 ^ w) (hk : 2 ^ trailing w n < n) :
    trailing w n < trailing w (n - 2 ^ trailing w n) := by
  have hpos : 0 < n := Nat.lt_of_le_of_lt (Nat.zero_le _) hk
  obtain ⟨m, hm⟩ := two_pow_trailing_dvd hpos h
  -- what the lowest set bit is multiplied by is odd
  have hodd : m % 2 = 1 := by
    refine Nat.mod_two_ne_zero.mp fun heven => ?_
    obtain ⟨q, rfl⟩ := Nat.dvd_of_mod_eq_zero heven
    have hdvd : 2 ^ (trailing w n + 1) ∣ n := by
      rw [Nat.pow_succ]
      exact ⟨q, by rw [Nat.mul_assoc]; exact hm⟩
    exact Nat.lt_irrefl _ ((le_trailing_iff hpos h).mpr hdvd)
  have hrest : 0 < n - 2 ^ trailing w n := Nat.sub_pos_of_lt hk
  have hlt : n - 2 ^ trailing w n < 2 ^ w := Nat.lt_of_le_of_lt (Nat.sub_le _ _) h
  refine (le_trailing_iff hrest hlt).mpr ⟨m / 2, ?_⟩
  have hhalf : 2 ^ trailing w n * m = 2 ^ trailing w n * (2 * (m / 2)) + 2 ^ trailing w n := by
    rw [← Nat.mul_succ]
    congr 1
    omega
  rw [Nat.pow_succ, Nat.mul_assoc]
  omega

end Bits
