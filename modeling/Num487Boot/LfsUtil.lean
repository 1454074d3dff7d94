import Mathlib.Algebra.Order.Ring.Int
import Num487Boot.Lib.Bits
import Num487Boot.Lib.Crc

/-!
# The Utilities of LittleFS

`lfs_util.h` and `lfs_util.c` as they are compiled for the target: the alignment functions
on 32-bit sizes, the three bit-counting intrinsics, and the CRC that guards the metadata
logs.

## Main results

* `lfsCrc_eq_feed`: the two table look-ups for each byte compute the reflected CRC-32
  register of the polynomial `0x04c11db7`, bit by bit.
* `lfsCrc_ne_of_burst`: no corruption within four consecutive bytes keeps the CRC.
-/

namespace Num487Boot

/-! ### Sizes -/

/-- A sum or difference in `uint32_t`. -/
def u32 (n : ℤ) : ℕ := (n % 2 ^ 32).toNat

/-- A number that fits is kept. -/
theorem u32_of_lt {n : ℕ} (h : n < 2 ^ 32) : u32 n = n := by
  rw [u32]
  omega

/-- A difference that does not go below zero is the one of the numbers. -/
theorem u32_sub {m n : ℕ} (hle : n ≤ m) (h : m < 2 ^ 32) : u32 (m - n) = m - n := by
  rw [u32]
  omega

/-- `lfs_aligndown` -/
def lfsAligndown (a alignment : ℕ) : ℕ := a - a % alignment

/-- `lfs_alignup` -/
def lfsAlignup (a alignment : ℕ) : ℕ := lfsAligndown (u32 (a + alignment - 1)) alignment

/-- The largest multiple not above. -/
theorem lfsAligndown_eq (a alignment : ℕ) :
    lfsAligndown a alignment = a / alignment * alignment := by
  have := Nat.div_add_mod' a alignment
  rw [lfsAligndown]
  omega

/-- Aligning down gives a multiple. -/
theorem dvd_lfsAligndown (a alignment : ℕ) : alignment ∣ lfsAligndown a alignment := by
  rw [lfsAligndown_eq]
  exact Nat.dvd_mul_left alignment _

/-- Aligning down does not go up. -/
theorem lfsAligndown_le (a alignment : ℕ) : lfsAligndown a alignment ≤ a := Nat.sub_le a _

/-- Aligning down goes down by less than one alignment. -/
theorem lt_lfsAligndown_add {alignment : ℕ} (h : 0 < alignment) (a : ℕ) :
    a < lfsAligndown a alignment + alignment := by
  have := Nat.mod_lt a h
  rw [lfsAligndown]
  omega

/-- The multiples below a number are below its alignment. -/
theorem le_lfsAligndown {a b alignment : ℕ} (hdvd : alignment ∣ b) (hle : b ≤ a) :
    b ≤ lfsAligndown a alignment := by
  obtain ⟨k, rfl⟩ := hdvd
  rcases Nat.eq_zero_or_pos alignment with rfl | hpos
  · rw [Nat.zero_mul]
    exact Nat.zero_le _
  · rw [lfsAligndown_eq, Nat.mul_comm]
    exact Nat.mul_le_mul_right _ ((Nat.le_div_iff_mul_le hpos).mpr (by rwa [Nat.mul_comm]))

/-- A multiple stays. -/
theorem lfsAligndown_of_dvd {a alignment : ℕ} (h : alignment ∣ a) :
    lfsAligndown a alignment = a := by
  rw [lfsAligndown, Nat.mod_eq_zero_of_dvd h, Nat.sub_zero]

section Alignup

variable {a alignment : ℕ}

/-- Without overflow, aligning up is aligning down from one alignment further, less one. -/
theorem lfsAlignup_eq (hpos : 0 < alignment) (h : a + alignment ≤ 2 ^ 32) :
    lfsAlignup a alignment = lfsAligndown (a + alignment - 1) alignment := by
  have hsum : ((a : ℤ) + alignment - 1) = ((a + alignment - 1 : ℕ) : ℤ) := by omega
  rw [lfsAlignup, hsum, u32_of_lt (by omega)]

/-- Aligning up gives a multiple. -/
theorem dvd_lfsAlignup (a alignment : ℕ) : alignment ∣ lfsAlignup a alignment :=
  dvd_lfsAligndown _ _

/-- Aligning up does not go down. -/
theorem le_lfsAlignup (hpos : 0 < alignment) (h : a + alignment ≤ 2 ^ 32) :
    a ≤ lfsAlignup a alignment := by
  have := lt_lfsAligndown_add hpos (a + alignment - 1)
  rw [lfsAlignup_eq hpos h]
  omega

/-- A multiple at or above a number is at or above its alignment. -/
theorem lfsAlignup_le {b : ℕ} (hpos : 0 < alignment) (h : a + alignment ≤ 2 ^ 32)
    (hdvd : alignment ∣ b) (hle : a ≤ b) : lfsAlignup a alignment ≤ b := by
  obtain ⟨k, rfl⟩ := hdvd
  rw [lfsAlignup_eq hpos h, lfsAligndown_eq, Nat.mul_comm alignment k]
  refine Nat.mul_le_mul_right _ (Nat.lt_succ_iff.mp ((Nat.div_lt_iff_lt_mul hpos).mpr ?_))
  rw [Nat.succ_mul, Nat.mul_comm k]
  omega

/-- A multiple stays. -/
theorem lfsAlignup_of_dvd (hpos : 0 < alignment) (h : a + alignment ≤ 2 ^ 32)
    (hdvd : alignment ∣ a) : lfsAlignup a alignment = a :=
  Nat.le_antisymm (lfsAlignup_le hpos h hdvd (Nat.le_refl a)) (le_lfsAlignup hpos h)

end Alignup

/-! ### Bits -/

/-- `32 - __builtin_clz(a - 1)`, the `CLZ` of zero being 32 on the target. -/
def lfsNpw2 (a : ℕ) : ℕ :=
  let x := u32 (a - 1)
  if x = 0 then 0 else x.log2 + 1

/-- `__builtin_ctz` -/
def lfsCtz (a : ℕ) : ℕ := Bits.trailing 32 a

/-- `__builtin_popcount` -/
def lfsPopc (a : ℕ) : ℕ := Bits.ones 32 a

/-- The exponent `lfs_ctz_find` makes of a distance is its highest set bit. -/
theorem lfsNpw2_succ_sub_one {n : ℕ} (hpos : 0 < n) (h : n < 2 ^ 32) :
    lfsNpw2 (n + 1) - 1 = n.log2 := by
  have hx : u32 (((n + 1 : ℕ) : ℤ) - 1) = n := by
    rw [u32]
    omega
  rw [lfsNpw2, hx, if_neg (by omega), Nat.add_sub_cancel]

/-! ### The CRC -/

/-- The table of `lfs_crc`, one entry for each half byte. -/
def rtable : List UInt32 :=
  [0x00000000, 0x1db71064, 0x3b6e20c8, 0x26d930ac,
   0x76dc4190, 0x6b6b51f4, 0x4db26158, 0x5005713c,
   0xedb88320, 0xf00f9344, 0xd6d6a3e8, 0xcb61b38c,
   0x9b64c2b0, 0x86d3d2d4, 0xa00ae278, 0xbdbdf21c]

/-- The two look-ups of the loop of `lfs_crc`. -/
def lfsCrcByte (crc : UInt32) (b : UInt8) : UInt32 :=
  let crc := crc >>> 4 ^^^ rtable.getD ((crc ^^^ b.toUInt32 >>> 0) &&& 0xf).toNat 0
  crc >>> 4 ^^^ rtable.getD ((crc ^^^ b.toUInt32 >>> 4) &&& 0xf).toNat 0

/-- `lfs_crc` -/
def lfsCrc (crc : UInt32) (buffer : List UInt8) : UInt32 := buffer.foldl lfsCrcByte crc

/-- No bytes. -/
@[simp] theorem lfsCrc_nil (crc : UInt32) : lfsCrc crc [] = crc := rfl

/-- A CRC may be taken piece by piece. -/
theorem lfsCrc_append (crc : UInt32) (xs ys : List UInt8) :
    lfsCrc crc (xs ++ ys) = lfsCrc (lfsCrc crc xs) ys :=
  List.foldl_append

/-- The polynomial `0x04c11db7`, its bits reversed. -/
def crcPoly : BitVec 32 := 0xedb88320#32

/-- The polynomial has its constant term, so the register can be run backwards. -/
theorem crcPoly_top : crcPoly.getLsbD (32 - 1) = true := by decide

/-- The table holds four steps of each nibble. -/
theorem rtable_eq_shifts : ∀ i < 16,
    (rtable.getD i 0).toBitVec = Crc.shifts crcPoly 4 (BitVec.ofNat 32 i) := by
  decide

/-- One look-up is four steps. -/
theorem lookup_eq_shifts (x : BitVec 32) :
    x >>> 4 ^^^ (rtable.getD (x &&& 0xf#32).toNat 0).toBitVec = Crc.shifts crcPoly 4 x := by
  have hmask : ∀ i, (x &&& 0xf#32).getLsbD i = (decide (i < 4) && x.getLsbD i) := fun i => by
    have hf : (0xf#32 : BitVec 32) = BitVec.ofNat 32 (2 ^ 4 - 1) := rfl
    rw [BitVec.getLsbD_and, hf, BitVec.getLsbD_ofNat, Nat.testBit_two_pow_sub_one]
    by_cases hi : i < 32
    · simp [hi, Bool.and_comm]
    · rw [BitVec.getLsbD_of_ge x i (by omega)]
      simp
  have hlow : ∀ i < 4, (x &&& 0xf#32).getLsbD i = x.getLsbD i := fun i hi => by
    rw [hmask, decide_eq_true hi, Bool.true_and]
  have hhigh : (x &&& 0xf#32) >>> 4 = 0#32 := by
    refine BitVec.eq_of_getLsbD_eq fun i _ => ?_
    rw [BitVec.getLsbD_ushiftRight, hmask, decide_eq_false (by omega), Bool.false_and,
      BitVec.getLsbD_zero]
  have hlt : (x &&& 0xf#32).toNat < 16 := by
    rw [BitVec.toNat_and]
    exact Nat.lt_succ_of_le Nat.and_le_right
  rw [rtable_eq_shifts _ hlt, BitVec.ofNat_toNat, BitVec.setWidth_eq,
    Crc.shifts_eq_split 4 hlow hhigh]

/-- A byte takes eight steps. -/
theorem lfsCrcByte_eq_shifts (crc : UInt32) (b : UInt8) :
    (lfsCrcByte crc b).toBitVec
      = Crc.shifts crcPoly 8 (crc.toBitVec ^^^ b.toBitVec.setWidth 32) := by
  generalize hx : crc.toBitVec ^^^ b.toBitVec.setWidth 32 = x
  -- after the first look-up the high nibble of the byte is still to be added
  let c : UInt32 := crc >>> 4 ^^^ rtable.getD ((crc ^^^ b.toUInt32 >>> 0) &&& 0xf).toNat 0
  have hindex : ((crc ^^^ b.toUInt32 >>> 0) &&& 0xf).toNat = (x &&& 0xf#32).toNat := by
    rw [← hx, UInt32.shiftRight_zero]
    rfl
  have hfirst : (c ^^^ b.toUInt32 >>> 4).toBitVec = Crc.shifts crcPoly 4 x := by
    have hbyte : (b.toUInt32 >>> 4).toBitVec = b.toBitVec.setWidth 32 >>> 4 := rfl
    have hcrc : (crc >>> 4).toBitVec = crc.toBitVec >>> 4 := rfl
    have hsplit : x >>> 4 = crc.toBitVec >>> 4 ^^^ b.toBitVec.setWidth 32 >>> 4 := by
      rw [← hx, BitVec.ushiftRight_xor_distrib]
    rw [← lookup_eq_shifts, hsplit, UInt32.toBitVec_xor, UInt32.toBitVec_xor, hbyte, hcrc, hindex,
      BitVec.xor_assoc, BitVec.xor_comm _ (b.toBitVec.setWidth 32 >>> 4), BitVec.xor_assoc]
  have hsecond : c.toBitVec >>> 4 = (c ^^^ b.toUInt32 >>> 4).toBitVec >>> 4 := by
    have hbyte : (b.toUInt32 >>> 4).toBitVec >>> 4 = 0#32 := by
      have hb := b.toNat_lt
      have hshift : (b.toUInt32 >>> 4).toBitVec >>> 4 = (b.toUInt32 >>> 8).toBitVec := rfl
      refine BitVec.eq_of_toNat_eq ?_
      rw [BitVec.toNat_ushiftRight, UInt32.toNat_toBitVec, UInt32.toNat_shiftRight]
      simp [Nat.shiftRight_eq_div_pow]
      omega
    have hxor : (c ^^^ b.toUInt32 >>> 4).toBitVec
        = c.toBitVec ^^^ (b.toUInt32 >>> 4).toBitVec := rfl
    rw [hxor, BitVec.ushiftRight_xor_distrib, hbyte, BitVec.xor_zero]
  calc (lfsCrcByte crc b).toBitVec
      = c.toBitVec >>> 4
        ^^^ (rtable.getD ((c ^^^ b.toUInt32 >>> 4).toBitVec &&& 0xf#32).toNat 0).toBitVec := rfl
    _ = Crc.shifts crcPoly 4 (c ^^^ b.toUInt32 >>> 4).toBitVec := by
      rw [hsecond, lookup_eq_shifts]
    _ = Crc.shifts crcPoly 8 x := by rw [hfirst, ← Crc.shifts_add]

/-- The look-ups compute the register of the CRC. -/
theorem toBitVec_lfsCrc (crc : UInt32) (buffer : List UInt8) :
    (lfsCrc crc buffer).toBitVec = Crc.feed crcPoly crc.toBitVec buffer := by
  induction buffer generalizing crc with
  | nil => rfl
  | cons b buffer ih =>
      rw [Crc.feed_cons, ← lfsCrcByte_eq_shifts, ← ih]
      rfl

/-- **The table-driven CRC is the CRC-32 register**, fed bit by bit. -/
theorem lfsCrc_eq_feed :
    lfsCrc = fun crc buffer => ⟨Crc.feed crcPoly crc.toBitVec buffer⟩ :=
  funext fun crc => funext fun buffer => UInt32.toBitVec_inj.mp (toBitVec_lfsCrc crc buffer)

/-- **Bursts are detected.** No corruption within four consecutive bytes keeps the CRC. -/
theorem lfsCrc_ne_of_burst (crc : UInt32) (before after : List UInt8) {xs ys : List UInt8}
    (hlen : xs.length = ys.length) (hburst : xs.length ≤ 4) (hne : xs ≠ ys) :
    lfsCrc crc (before ++ xs ++ after) ≠ lfsCrc crc (before ++ ys ++ after) := by
  intro h
  have hfeed := congrArg UInt32.toBitVec h
  rw [toBitVec_lfsCrc, toBitVec_lfsCrc] at hfeed
  exact Crc.feed_ne_of_burst crcPoly_top _ before after hlen (by omega) hne hfeed

/-- Two bytes that were changed in the middle of a message. -/
theorem lfsCrc_ne_of_burst_two :
    lfsCrc 0xffffffff ([1] ++ [2, 3] ++ [4]) ≠ lfsCrc 0xffffffff ([1] ++ [7, 0] ++ [4]) :=
  lfsCrc_ne_of_burst _ [1] [4] rfl (by decide) (by decide)

end Num487Boot
