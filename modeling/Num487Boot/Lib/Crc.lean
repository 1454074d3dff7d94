import Mathlib.Data.Nat.Notation
import Mathlib.Logic.Function.Basic

/-!
# Reflected Cyclic Redundancy Checks

A check register of `w` bits, for any width and any polynomial. A step shifts the register
down and adds the polynomial for a bit that falls out (`shift`); a byte is added to the low
end of the register and leaves it in eight steps (`feed`).

* `shifts_xor`: steps are linear.
* `shifts_injective`: a polynomial whose top bit is set loses nothing.
* `shifts_eq_split`: steps may be looked up in a table of the low bits.
* `feed_eq_shifts`: a message that fits into the register may be added all at once. So two
  messages that differ within the width of the register never end alike (`feed_ne_of_burst`).
-/

namespace Crc

variable {w : ℕ} {poly : BitVec w}

/-- One step: the register moves down by a bit. -/
def shift (poly c : BitVec w) : BitVec w :=
  if c.getLsbD 0 then c >>> 1 ^^^ poly else c >>> 1

/-- The register after `n` shifts. -/
def shifts (poly : BitVec w) : ℕ → BitVec w → BitVec w
  | 0, c => c
  | n + 1, c => shifts poly n (shift poly c)

/-- The register after a message. -/
def feed (poly c : BitVec w) (data : List UInt8) : BitVec w :=
  data.foldl (fun c b => shifts poly 8 (c ^^^ b.toBitVec.setWidth w)) c

/-! ### Steps -/

/-- A register of zeros stays zero. -/
@[simp] theorem shift_zero : shift poly 0#w = 0#w := by
  simp [shift]

/-- However often it is shifted. -/
@[simp] theorem shifts_zero (n : ℕ) : shifts poly n 0#w = 0#w := by
  induction n with
  | zero => rfl
  | succ n ih => rw [shifts, shift_zero, ih]

/-- Shifts one after the other. -/
theorem shifts_add (m n : ℕ) (c : BitVec w) :
    shifts poly (m + n) c = shifts poly n (shifts poly m c) := by
  induction m generalizing c with
  | zero => rw [Nat.zero_add, shifts]
  | succ m ih => rw [Nat.add_right_comm, shifts, shifts, ih]

/-- Shifting is linear. -/
theorem shift_xor (c d : BitVec w) : shift poly (c ^^^ d) = shift poly c ^^^ shift poly d := by
  have hcancel : c >>> 1 ^^^ poly ^^^ (d >>> 1 ^^^ poly) = c >>> 1 ^^^ d >>> 1 := by
    rw [BitVec.xor_assoc, BitVec.xor_comm (d >>> 1), ← BitVec.xor_assoc poly, BitVec.xor_self,
      BitVec.zero_xor]
  simp only [shift, BitVec.getLsbD_xor, BitVec.ushiftRight_xor_distrib]
  cases hc : c.getLsbD 0 <;> cases hd : d.getLsbD 0
  · simp
  · simp [BitVec.xor_assoc]
  · simp [BitVec.xor_assoc, BitVec.xor_comm poly]
  · simpa using hcancel.symm

/-- **Steps are linear.** -/
theorem shifts_xor (n : ℕ) (c d : BitVec w) :
    shifts poly n (c ^^^ d) = shifts poly n c ^^^ shifts poly n d := by
  induction n generalizing c d with
  | zero => rfl
  | succ n ih => rw [shifts, shift_xor, ih, shifts, shifts]

/-- A register whose low bits are clear only moves down. -/
theorem shifts_of_low_clear {n : ℕ} {c : BitVec w} (h : ∀ i < n, c.getLsbD i = false) :
    shifts poly n c = c >>> n := by
  induction n generalizing c with
  | zero => simp [shifts]
  | succ n ih =>
      have hlow : ∀ i < n, (c >>> 1).getLsbD i = false := fun i hi => by
        rw [BitVec.getLsbD_ushiftRight, Nat.add_comm]
        exact h (i + 1) (by omega)
      rw [shifts, shift, h 0 (Nat.succ_pos n), if_neg Bool.false_ne_true, ih hlow,
        ← BitVec.shiftRight_add, Nat.add_comm]

/-- The steps of a register, from those of its low bits. -/
theorem shifts_eq_split (n : ℕ) {c low : BitVec w} (hlow : ∀ i < n, low.getLsbD i = c.getLsbD i)
    (hhigh : low >>> n = 0#w) : shifts poly n c = c >>> n ^^^ shifts poly n low := by
  have hclear : ∀ i < n, (c ^^^ low).getLsbD i = false := fun i hi => by
    rw [BitVec.getLsbD_xor, hlow i hi, Bool.xor_self]
  have hsplit : c ^^^ low ^^^ low = c := by
    rw [BitVec.xor_assoc, BitVec.xor_self, BitVec.xor_zero]
  calc shifts poly n c = shifts poly n (c ^^^ low ^^^ low) := by rw [hsplit]
    _ = (c ^^^ low) >>> n ^^^ shifts poly n low := by rw [shifts_xor, shifts_of_low_clear hclear]
    _ = c >>> n ^^^ shifts poly n low := by
      rw [BitVec.ushiftRight_xor_distrib, hhigh, BitVec.xor_zero]

/-- A step only takes zero to zero if the polynomial reaches the top bit. -/
theorem eq_zero_of_shift_eq_zero (hpoly : poly.getLsbD (w - 1) = true) {c : BitVec w}
    (h : shift poly c = 0#w) : c = 0#w := by
  have hw : 0 < w := by
    rcases Nat.eq_zero_or_pos w with rfl | hw
    · simp at hpoly
    · exact hw
  cases hbit : c.getLsbD 0 with
  | true =>
      -- the top bit of the shifted register is free for that of the polynomial
      have htop := congrArg (fun x => x.getLsbD (w - 1)) h
      have hfree : (c >>> 1).getLsbD (w - 1) = false := by
        rw [BitVec.getLsbD_ushiftRight]
        exact BitVec.getLsbD_of_ge c _ (by omega)
      simp only [shift, hbit, if_pos, BitVec.getLsbD_xor, hfree, hpoly] at htop
      simp at htop
  | false =>
      rw [shift, hbit, if_neg Bool.false_ne_true] at h
      refine BitVec.eq_of_getLsbD_eq fun i _ => ?_
      cases i with
      | zero => rw [hbit, BitVec.getLsbD_zero]
      | succ i =>
          have hi := congrArg (fun x => x.getLsbD i) h
          simpa [BitVec.getLsbD_ushiftRight, Nat.add_comm 1] using hi

/-- **No step loses anything** if the polynomial reaches the top bit. -/
theorem shifts_injective (hpoly : poly.getLsbD (w - 1) = true) (n : ℕ) :
    Function.Injective (shifts poly n) := by
  induction n with
  | zero => exact fun _ _ h => h
  | succ n ih =>
      intro c d h
      have hstep : shift poly (c ^^^ d) = 0#w := by
        rw [shift_xor, ih h, BitVec.xor_self]
      have hzero := eq_zero_of_shift_eq_zero hpoly hstep
      rwa [BitVec.xor_eq_zero_iff] at hzero

/-! ### Messages -/

/-- Nothing is fed. -/
@[simp] theorem feed_nil (c : BitVec w) : feed poly c [] = c := rfl

/-- A byte is fed into the low end of the register and shifted through it. -/
@[simp] theorem feed_cons (c : BitVec w) (b : UInt8) (data : List UInt8) :
    feed poly c (b :: data) = feed poly (shifts poly 8 (c ^^^ b.toBitVec.setWidth w)) data := rfl

/-- Two messages are fed one after the other. -/
theorem feed_append (c : BitVec w) (xs ys : List UInt8) :
    feed poly c (xs ++ ys) = feed poly (feed poly c xs) ys :=
  List.foldl_append

/-- What comes after in a message loses nothing of the register. -/
theorem feed_injective (hpoly : poly.getLsbD (w - 1) = true) (data : List UInt8) :
    Function.Injective fun c => feed poly c data := by
  induction data with
  | nil => exact fun _ _ h => h
  | cons b data ih =>
      intro c d h
      have hxor := shifts_injective hpoly 8 (ih h)
      exact BitVec.xor_left_inj (b.toBitVec.setWidth w) |>.mp hxor

/-- The word a message spells, its first byte lowest. -/
def leWord (w : ℕ) : List UInt8 → BitVec w
  | [] => 0#w
  | b :: data => b.toBitVec.setWidth w ^^^ leWord w data <<< 8

/-- The bits of a little-endian word: the low ones are those of its first byte. -/
theorem getLsbD_leWord_cons (b : UInt8) (data : List UInt8) (i : ℕ) :
    (leWord w (b :: data)).getLsbD i
      = if i < 8 then decide (i < w) && b.toBitVec.getLsbD i
        else decide (i < w) && (leWord w data).getLsbD (i - 8) := by
  rw [leWord, BitVec.getLsbD_xor, BitVec.getLsbD_setWidth, BitVec.getLsbD_shiftLeft]
  by_cases hi : i < 8
  · simp [hi]
  · have hb : b.toBitVec.getLsbD i = false := BitVec.getLsbD_of_ge _ _ (by omega)
    simp [hi, hb]

/-- A message takes no more than its own bits of the register. -/
theorem leWord_high_clear (data : List UInt8) {i : ℕ} (hi : 8 * data.length ≤ i) :
    (leWord w data).getLsbD i = false := by
  induction data generalizing i with
  | nil => simp [leWord]
  | cons b data ih =>
      rw [List.length_cons] at hi
      rw [getLsbD_leWord_cons, if_neg (by omega), ih (by omega), Bool.and_false]

/-- Messages of one length that fit into the register are told apart by the word they spell. -/
theorem leWord_injective {xs ys : List UInt8} (hlen : xs.length = ys.length)
    (hfits : 8 * xs.length ≤ w) (h : leWord w xs = leWord w ys) : xs = ys := by
  induction xs generalizing ys with
  | nil => exact (List.length_eq_zero_iff.mp hlen.symm).symm
  | cons x xs ih =>
      obtain ⟨y, ys, rfl⟩ := List.exists_cons_of_length_eq_add_one hlen.symm
      rw [List.length_cons] at hfits
      rw [List.length_cons, List.length_cons, Nat.add_right_cancel_iff] at hlen
      have hbits := fun i => congrArg (fun c => c.getLsbD i) h
      simp only [getLsbD_leWord_cons] at hbits
      have hhead : x = y := by
        refine UInt8.toBitVec_inj.mp (BitVec.eq_of_getLsbD_eq fun i hi => ?_)
        have hiw : i < w := by omega
        simpa [hi, hiw] using hbits i
      have htail : leWord w xs = leWord w ys := by
        refine BitVec.eq_of_getLsbD_eq fun i _ => ?_
        by_cases hi : i < 8 * xs.length
        · have hiw : i + 8 < w := by omega
          have hge : ¬ i + 8 < 8 := by omega
          simpa [hge, hiw] using hbits (i + 8)
        · rw [leWord_high_clear xs (by omega), leWord_high_clear ys (by omega)]
      rw [hhead, ih hlen (by omega) htail]

/-- **A message that fits into the register** may be added to it all at once. -/
theorem feed_eq_shifts (c : BitVec w) {data : List UInt8} (hfits : 8 * data.length ≤ w) :
    feed poly c data = shifts poly (8 * data.length) (c ^^^ leWord w data) := by
  induction data generalizing c with
  | nil => simp [leWord, shifts]
  | cons b data ih =>
      rw [List.length_cons] at hfits
      have hlow : ∀ i < 8, (leWord w data <<< 8).getLsbD i = false := fun i hi => by
        simp [BitVec.getLsbD_shiftLeft, hi]
      have hback : leWord w data <<< 8 >>> 8 = leWord w data := by
        refine BitVec.eq_of_getLsbD_eq fun i hi => ?_
        rw [BitVec.getLsbD_ushiftRight, BitVec.getLsbD_shiftLeft, Nat.add_sub_cancel_left]
        by_cases hi8 : 8 + i < w
        · have hge : ¬ 8 + i < 8 := by omega
          simp only [hi8, hge, decide_true, decide_false, Bool.true_and, Bool.not_false]
        · rw [leWord_high_clear data (by omega), Bool.and_false]
      have hhead : shifts poly 8 (c ^^^ leWord w (b :: data))
          = shifts poly 8 (c ^^^ b.toBitVec.setWidth w) ^^^ leWord w data := by
        rw [leWord, ← BitVec.xor_assoc, shifts_xor, shifts_of_low_clear hlow, hback]
      rw [feed_cons, ih _ (by omega), ← hhead, ← shifts_add, List.length_cons, Nat.mul_add_one,
        Nat.add_comm]

/-- **Bursts are detected.** Messages that differ only within the width of the register end
differently, whatever comes before and after. -/
theorem feed_ne_of_burst (hpoly : poly.getLsbD (w - 1) = true) (c : BitVec w)
    (before after : List UInt8) {xs ys : List UInt8} (hlen : xs.length = ys.length)
    (hfits : 8 * xs.length ≤ w) (hne : xs ≠ ys) :
    feed poly c (before ++ xs ++ after) ≠ feed poly c (before ++ ys ++ after) := by
  intro h
  rw [feed_append, feed_append, feed_append, feed_append] at h
  have hburst : feed poly (feed poly c before) xs = feed poly (feed poly c before) ys :=
    feed_injective hpoly after h
  have hfits' : 8 * ys.length ≤ w := by omega
  rw [feed_eq_shifts (feed poly c before) hfits, feed_eq_shifts (feed poly c before) hfits',
    ← hlen] at hburst
  have hword := shifts_injective hpoly _ hburst
  exact hne (leWord_injective hlen hfits ((BitVec.xor_right_inj _).mp hword))

end Crc
