import Mathlib.Algebra.Order.Ring.Nat

/-!
# Numbers as Bytes

Numbers of a fixed number of bytes, least significant byte first. `decode_encode` and
`encode_decode` are the two round trips.
-/

namespace LittleEndian

/-- The lowest `n` bytes of a number. -/
def encode : ℕ → ℕ → List UInt8
  | 0, _ => []
  | n + 1, v => .ofNat (v % 256) :: encode n (v / 256)

/-- The number the bytes spell. -/
def decode : List UInt8 → ℕ
  | [] => 0
  | b :: bytes => b.toNat + 256 * decode bytes

/-- An encoding has the length that was asked for. -/
@[simp] theorem length_encode (n v : ℕ) : (encode n v).length = n := by
  induction n generalizing v with
  | zero => rfl
  | succ n ih => rw [encode, List.length_cons, ih]

/-- That many bytes stand for a number below that power of 256. -/
theorem decode_lt (bytes : List UInt8) : decode bytes < 256 ^ bytes.length := by
  induction bytes with
  | nil => exact Nat.one_pos
  | cons b bytes ih =>
      have hb := b.toNat_lt
      rw [decode, List.length_cons, Nat.pow_succ]
      omega

/-- A number that fits is read back. -/
theorem decode_encode {n v : ℕ} (h : v < 256 ^ n) : decode (encode n v) = v := by
  induction n generalizing v with
  | zero =>
      rw [Nat.pow_zero] at h
      exact (Nat.lt_one_iff.mp h).symm
  | succ n ih =>
      rw [Nat.pow_succ] at h
      have hbyte : (UInt8.ofNat (v % 256)).toNat = v % 256 :=
        UInt8.toNat_ofNat_of_lt' (Nat.mod_lt v (by decide))
      rw [encode, decode, hbyte, ih (by omega), Nat.mod_add_div]

/-- Bytes are written back. -/
theorem encode_decode (bytes : List UInt8) : encode bytes.length (decode bytes) = bytes := by
  induction bytes with
  | nil => rfl
  | cons b bytes ih =>
      have hb := b.toNat_lt
      have hlow : (b.toNat + 256 * decode bytes) % 256 = b.toNat := by omega
      have hhigh : (b.toNat + 256 * decode bytes) / 256 = decode bytes := by omega
      rw [decode, List.length_cons, encode, hlow, hhigh, ih, UInt8.ofNat_toNat]

end LittleEndian
