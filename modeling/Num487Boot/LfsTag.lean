import Num487Boot.LfsUtil
import Num487Boot.Lib.LittleEndian

/-!
# Metadata Tags

The 32-bit tags of the metadata logs of `lfs.c`: a valid bit, a type of eleven bits, an id and a
size of ten bits each. On the disk a tag is stored big-endian and xored with the tag before it.

* `lfsFromle32_tole32`, `lfsTole32_fromle32`, `lfsFrombe32_tobe32`: words survive the disk.
* `lfsTagDsize_eq`: the bytes a tag takes with its data.
-/

namespace Num487Boot

/-- `lfs_tag_t` -/
abbrev LfsTag := UInt32

/-! ### Words on the disk -/

/-- `lfs_fromle32` -/
def lfsFromle32 (bytes : List UInt8) : UInt32 := .ofNat (LittleEndian.decode bytes)

/-- `lfs_tole32` -/
def lfsTole32 (a : UInt32) : List UInt8 := LittleEndian.encode 4 a.toNat

/-- `lfs_frombe32` -/
def lfsFrombe32 (bytes : List UInt8) : UInt32 := lfsFromle32 bytes.reverse

/-- `lfs_tobe32` -/
def lfsTobe32 (a : UInt32) : List UInt8 := (lfsTole32 a).reverse

/-- A little-endian word is read back. -/
theorem lfsFromle32_tole32 (a : UInt32) : lfsFromle32 (lfsTole32 a) = a := by
  rw [lfsFromle32, lfsTole32, LittleEndian.decode_encode a.toNat_lt, UInt32.ofNat_toNat]

/-- A big-endian word is read back. -/
theorem lfsFrombe32_tobe32 (a : UInt32) : lfsFrombe32 (lfsTobe32 a) = a := by
  rw [lfsFrombe32, lfsTobe32, List.reverse_reverse, lfsFromle32_tole32]

/-- Two words of four bytes are equal if they spell the same number. -/
theorem lfsTole32_fromle32 {bytes : List UInt8} (h : bytes.length = 4) :
    lfsTole32 (lfsFromle32 bytes) = bytes := by
  have hlt := LittleEndian.decode_lt bytes
  rw [h] at hlt
  rw [lfsTole32, lfsFromle32, UInt32.toNat_ofNat_of_lt' hlt]
  conv_lhs => rw [← h]
  exact LittleEndian.encode_decode bytes

/-! ### Fields -/

/-- `LFS_MKTAG` -/
def lfsMktag (type id size : UInt32) : LfsTag := type <<< 20 ||| id <<< 10 ||| size

/-- `LFS_TYPE_NAME` -/
def lfsTypeName : UInt32 := 0x000
/-- `LFS_TYPE_SPLICE` -/
def lfsTypeSplice : UInt32 := 0x400
/-- `LFS_TYPE_CREATE` -/
def lfsTypeCreate : UInt32 := 0x401
/-- `LFS_TYPE_DELETE` -/
def lfsTypeDelete : UInt32 := 0x4ff
/-- `LFS_TYPE_TAIL` -/
def lfsTypeTail : UInt32 := 0x600
/-- `LFS_TYPE_CCRC` -/
def lfsTypeCcrc : UInt32 := 0x500
/-- `LFS_TYPE_FCRC` -/
def lfsTypeFcrc : UInt32 := 0x5ff

/-- `lfs_tag_isvalid` -/
def lfsTagIsvalid (tag : LfsTag) : Bool := tag &&& 0x80000000 = 0

/-- `lfs_tag_isdelete` -/
def lfsTagIsdelete (tag : LfsTag) : Bool := (tag <<< 22).toInt32 >>> 22 = -1

/-- `lfs_tag_type1` -/
def lfsTagType1 (tag : LfsTag) : UInt32 := (tag &&& 0x70000000) >>> 20

/-- `lfs_tag_type2` -/
def lfsTagType2 (tag : LfsTag) : UInt32 := (tag &&& 0x78000000) >>> 20

/-- `lfs_tag_type3` -/
def lfsTagType3 (tag : LfsTag) : UInt32 := (tag &&& 0x7ff00000) >>> 20

/-- `lfs_tag_chunk` -/
def lfsTagChunk (tag : LfsTag) : UInt8 := ((tag &&& 0x0ff00000) >>> 20).toUInt8

/-- `lfs_tag_splice` -/
def lfsTagSplice (tag : LfsTag) : Int8 := (lfsTagChunk tag).toInt8

/-- `lfs_tag_id` -/
def lfsTagId (tag : LfsTag) : UInt32 := (tag &&& 0x000ffc00) >>> 10

/-- `lfs_tag_size` -/
def lfsTagSize (tag : LfsTag) : UInt32 := tag &&& 0x000003ff

/-- `lfs_tag_dsize` -/
def lfsTagDsize (tag : LfsTag) : ℕ :=
  4 + (lfsTagSize (tag + if lfsTagIsdelete tag then 1 else 0)).toNat

/-! ### What the fields are -/

/-- The size is the lowest ten bits. -/
theorem lfsTagSize_toNat (tag : LfsTag) : (lfsTagSize tag).toNat = tag.toNat % 1024 := by
  have hmask : 1023 = 2 ^ 10 - 1 := rfl
  rw [lfsTagSize, UInt32.toNat_and]
  show tag.toNat &&& 1023 = _
  rw [hmask, Nat.and_two_pow_sub_one_eq_mod]

/-- The sign of the size field is its highest bit, so only the largest size is `-1`. -/
theorem lfsTagIsdelete_iff (tag : LfsTag) :
    lfsTagIsdelete tag = true ↔ tag.toNat % 1024 = 1023 := by
  have hshift : ((tag <<< 22).toInt32 >>> 22).toInt = (tag <<< 22).toInt32.toInt / 2 ^ 22 := by
    show (BitVec.sshiftRight' _ _).toInt = _
    rw [BitVec.sshiftRight', BitVec.toInt_sshiftRight, Int.shiftRight_eq_div_pow]
    rfl
  have hint : (tag <<< 22).toInt32.toInt
      = if 2 * (tag <<< 22).toNat < 2 ^ 32 then ((tag <<< 22).toNat : ℤ)
        else ((tag <<< 22).toNat : ℤ) - 2 ^ 32 := BitVec.toInt_eq_toNat_cond _
  have hnat : (tag <<< 22).toNat = tag.toNat % 1024 * 2 ^ 22 := by
    rw [UInt32.toNat_shiftLeft]
    simp [Nat.shiftLeft_eq]
    omega
  have hneg : (-1 : Int32).toInt = -1 := rfl
  rw [lfsTagIsdelete, decide_eq_true_iff, ← Int32.toInt_inj, hshift, hint, hnat, hneg]
  split <;> omega

/-- The bytes a tag takes with its data: none for a delete. -/
theorem lfsTagDsize_eq (tag : LfsTag) :
    lfsTagDsize tag = if tag.toNat % 1024 = 1023 then 4 else 4 + tag.toNat % 1024 := by
  rw [lfsTagDsize, lfsTagSize_toNat]
  by_cases h : tag.toNat % 1024 = 1023
  · have hnext : (tag + 1).toNat = (tag.toNat + 1) % 2 ^ 32 := UInt32.toNat_add tag 1
    rw [if_pos h, if_pos ((lfsTagIsdelete_iff tag).mpr h), hnext]
    omega
  · rw [if_neg h, if_neg (mt (lfsTagIsdelete_iff tag).mp h), UInt32.add_zero]

/-- The coarser types are parts of the finest. -/
theorem lfsTagType1_eq (tag : LfsTag) : lfsTagType1 tag = lfsTagType3 tag &&& 0x700 := by
  rw [lfsTagType1, lfsTagType3, UInt32.shiftRight_and, UInt32.shiftRight_and, UInt32.and_assoc]
  rfl

/-- The middle type is a part of the full one. -/
theorem lfsTagType2_eq (tag : LfsTag) : lfsTagType2 tag = lfsTagType3 tag &&& 0x780 := by
  rw [lfsTagType2, lfsTagType3, UInt32.shiftRight_and, UInt32.shiftRight_and, UInt32.and_assoc]
  rfl

/-- The coarse type is a part of the middle one. -/
theorem lfsTagType1_eq_type2 (tag : LfsTag) : lfsTagType1 tag = lfsTagType2 tag &&& 0x700 := by
  rw [lfsTagType1_eq, lfsTagType2_eq, UInt32.and_assoc]
  rfl

/-- The highest bit does not change the size. -/
theorem lfsTagDsize_xor_top (tag : LfsTag) (b : UInt32) :
    lfsTagDsize (tag ^^^ b <<< 31) = lfsTagDsize tag := by
  have hlow : (b <<< 31).toNat % 2 ^ 10 = 0 := by
    rw [UInt32.toNat_shiftLeft]
    simp [Nat.shiftLeft_eq]
    omega
  have hxor : (tag ^^^ b <<< 31).toNat % 1024 = tag.toNat % 1024 := by
    show (tag ^^^ b <<< 31).toNat % 2 ^ 10 = tag.toNat % 2 ^ 10
    rw [UInt32.toNat_xor, Nat.xor_mod_two_pow, hlow, Nat.xor_zero]
  rw [lfsTagDsize_eq, lfsTagDsize_eq, hxor]

/-- An entry of the log is at least its tag. -/
theorem four_le_lfsTagDsize (tag : LfsTag) : 4 ≤ lfsTagDsize tag := Nat.le_add_right 4 _

/-! ### Types and ids under masks -/

/-- A mask on the upper bits sees the upper bits only. -/
theorem and_shiftLeft_twenty (m tag : UInt32) : m <<< 20 &&& tag = (m &&& tag >>> 20) <<< 20 := by
  apply UInt32.toBitVec_inj.mp
  apply BitVec.eq_of_getLsbD_eq
  intro i hi
  simp [BitVec.getLsbD_shiftLeft]
  by_cases h : i < 20
  · simp [h]
  · have hidx : 20 + (i - 20) = i := by omega
    simp [h, hidx, hi]

/-- The id is the ten bits above the size. -/
theorem lfsTagId_toNat (tag : LfsTag) : (lfsTagId tag).toNat = tag.toNat / 1024 % 1024 := by
  have hmask : 0x000ffc00 >>> (10 : UInt32) = (1023 : UInt32) := by decide
  rw [lfsTagId, UInt32.shiftRight_and, hmask, UInt32.toNat_and]
  show (tag >>> 10).toNat &&& (2 ^ 10 - 1) = _
  rw [Nat.and_two_pow_sub_one_eq_mod, UInt32.toNat_shiftRight]
  simp [Nat.shiftRight_eq_div_pow]

/-- The tag without its valid bit. -/
def lowTag (tag : LfsTag) : LfsTag := tag &&& 0x7fffffff

/-- Without the valid bit, 31 bits are left. -/
theorem lowTag_toNat (tag : LfsTag) : (lowTag tag).toNat = tag.toNat % 2 ^ 31 := by
  rw [lowTag, UInt32.toNat_and]
  show tag.toNat &&& (2 ^ 31 - 1) = _
  rw [Nat.and_two_pow_sub_one_eq_mod]

/-- A valid tag has the bit clear already. -/
theorem lowTag_of_valid {tag : LfsTag} (h : lfsTagIsvalid tag = true) : lowTag tag = tag := by
  have htop : tag &&& 0x80000000 = 0 := of_decide_eq_true h
  have hsplit : tag = tag &&& (0x7fffffff ||| 0x80000000) := by
    have hones : (0x7fffffff ||| 0x80000000 : UInt32) = -1 := by decide
    rw [hones, UInt32.and_neg_one]
  have hdistrib : tag &&& (0x7fffffff ||| 0x80000000)
      = (tag &&& 0x7fffffff) ||| (tag &&& 0x80000000) :=
    UInt32.toBitVec_inj.mp BitVec.and_or_distrib_left
  rw [hdistrib, htop, UInt32.or_zero] at hsplit
  exact hsplit.symm

/-- Dropping the valid bit twice is dropping it once. -/
theorem lowTag_lowTag (tag : LfsTag) : lowTag (lowTag tag) = lowTag tag := by
  rw [lowTag, lowTag, UInt32.and_assoc, UInt32.and_self]

/-- The valid bit is dropped before or after two tags are combined. -/
theorem lowTag_xor (a b : LfsTag) : lowTag (a ^^^ b) = lowTag a ^^^ lowTag b := by
  apply UInt32.toNat_inj.mp
  rw [UInt32.toNat_xor, lowTag_toNat, lowTag_toNat, lowTag_toNat, UInt32.toNat_xor,
    Nat.xor_mod_two_pow]

/-- A word with nothing but the valid bit leaves nothing. -/
theorem lowTag_top (b : UInt32) : lowTag (b <<< 31) = 0 := by
  apply UInt32.toNat_inj.mp
  rw [lowTag_toNat, UInt32.toNat_shiftLeft]
  simp [Nat.shiftLeft_eq]

/-- The valid bit is no part of the type. -/
theorem lfsTagType1_lowTag (tag : LfsTag) : lfsTagType1 (lowTag tag) = lfsTagType1 tag := by
  rw [lfsTagType1, lowTag, UInt32.and_assoc]
  rfl

/-- The valid bit is no part of the size. -/
theorem lfsTagDsize_lowTag (tag : LfsTag) : lfsTagDsize (lowTag tag) = lfsTagDsize tag := by
  rw [lfsTagDsize_eq, lfsTagDsize_eq, lowTag_toNat]
  have hmod : tag.toNat % 2 ^ 31 % 1024 = tag.toNat % 1024 := by omega
  rw [hmod]

/-- The tag with another id. -/
def withId (tag : LfsTag) (i : ℕ) : LfsTag :=
  .ofNat (tag.toNat / 2 ^ 20 * 2 ^ 20 + i * 2 ^ 10 + tag.toNat % 2 ^ 10)

section WithId

variable {tag : LfsTag} {i : ℕ}

/-- The tag with another id, as a number. -/
theorem withId_toNat (h : i < 1024) :
    (withId tag i).toNat = tag.toNat / 2 ^ 20 * 2 ^ 20 + i * 2 ^ 10 + tag.toNat % 2 ^ 10 := by
  have hlt := tag.toNat_lt
  exact UInt32.toNat_ofNat_of_lt' (by show _ < 2 ^ 32; omega)

/-- A tag with another id has that id. -/
theorem lfsTagId_withId (h : i < 1024) : (lfsTagId (withId tag i)).toNat = i := by
  rw [lfsTagId_toNat, withId_toNat h]
  omega

/-- A tag's own id changes nothing. -/
theorem withId_self (tag : LfsTag) : withId tag (lfsTagId tag).toNat = tag := by
  apply UInt32.toNat_inj.mp
  rw [withId_toNat (by rw [lfsTagId_toNat]; omega), lfsTagId_toNat]
  omega

/-- A mask above the id does not see the change. -/
theorem and_withId (m : UInt32) (h : i < 1024) : m <<< 20 &&& withId tag i = m <<< 20 &&& tag := by
  have hshift : withId tag i >>> 20 = tag >>> 20 := by
    apply UInt32.toNat_inj.mp
    rw [UInt32.toNat_shiftRight, UInt32.toNat_shiftRight, withId_toNat h]
    simp [Nat.shiftRight_eq_div_pow]
    omega
  rw [and_shiftLeft_twenty, and_shiftLeft_twenty, hshift]

/-- Ids are moved by adding to the tag. -/
theorem withId_add (tag' : LfsTag) {j : ℕ} (hi : i < 1024) (hj : j < 1024)
    (htag : (lfsTagId tag).toNat = i) (htag' : (lfsTagId tag').toNat = j) :
    tag + (tag' - withId tag' i) = withId tag j := by
  rw [lfsTagId_toNat] at htag htag'
  have hlt := tag.toNat_lt
  have hlt' := tag'.toNat_lt
  apply UInt32.toNat_inj.mp
  rw [UInt32.toNat_add, UInt32.toNat_sub, withId_toNat hi, withId_toNat hj]
  omega

end WithId

/-- A mask on the id, moved down to the id itself. -/
theorem and_shiftLeft_ten (m tag : UInt32) : m <<< 10 &&& tag = (m &&& tag >>> 10) <<< 10 := by
  apply UInt32.toBitVec_inj.mp
  apply BitVec.eq_of_getLsbD_eq
  intro i hi
  simp [BitVec.getLsbD_shiftLeft]
  by_cases h : i < 10
  · simp [h]
  · have hidx : 10 + (i - 10) = i := by omega
    simp [h, hidx, hi]

/-- Absorption. -/
theorem and_or_self_left (a b : UInt32) : a &&& (a ||| b) = a := by
  apply UInt32.toBitVec_inj.mp
  apply BitVec.eq_of_getLsbD_eq
  intro i hi
  rw [UInt32.toBitVec_and, UInt32.toBitVec_or, BitVec.getLsbD_and, BitVec.getLsbD_or]
  cases a.toBitVec.getLsbD i <;> rfl

/-- What an id takes of a tag. -/
theorem idMask_and (tag : LfsTag) : (0x3ff : UInt32) <<< 10 &&& tag = lfsTagId tag <<< 10 := by
  rw [and_shiftLeft_ten, lfsTagId, UInt32.shiftRight_and, UInt32.and_comm]
  rfl

/-- Under the mask of the id, two tags agree when they have the same id. -/
theorem idMask_eq_iff (a b : LfsTag) :
    (0x3ff : UInt32) <<< 10 &&& a = (0x3ff : UInt32) <<< 10 &&& b ↔ lfsTagId a = lfsTagId b := by
  have hnat : ∀ x : LfsTag, (lfsTagId x <<< 10).toNat = (lfsTagId x).toNat * 1024 := by
    intro x
    rw [UInt32.toNat_shiftLeft, lfsTagId_toNat]
    simp [Nat.shiftLeft_eq]
    omega
  rw [idMask_and, idMask_and]
  constructor
  · intro h
    have heq := congrArg UInt32.toNat h
    rw [hnat, hnat] at heq
    exact UInt32.toNat_inj.mp (Nat.eq_of_mul_eq_mul_right (by decide) heq)
  · intro h
    rw [h]

/-- The type is the eleven bits above the id. -/
theorem lfsTagType3_toNat (tag : LfsTag) :
    (lfsTagType3 tag).toNat = tag.toNat / 2 ^ 20 % 2 ^ 11 := by
  have hmask : 0x7ff00000 >>> (20 : UInt32) = (0x7ff : UInt32) := by decide
  rw [lfsTagType3, UInt32.shiftRight_and, hmask, UInt32.toNat_and]
  show (tag >>> 20).toNat &&& (2 ^ 11 - 1) = _
  rw [Nat.and_two_pow_sub_one_eq_mod, UInt32.toNat_shiftRight]
  simp [Nat.shiftRight_eq_div_pow]

/-- A tag made from parts that fit, as a number. -/
theorem lfsMktag_toNat {type id size : UInt32} (htype : type.toNat < 2 ^ 12)
    (hid : id.toNat < 2 ^ 10) (hsize : size.toNat < 2 ^ 10) :
    (lfsMktag type id size).toNat = type.toNat * 2 ^ 20 + id.toNat * 2 ^ 10 + size.toNat := by
  have hshift : ∀ (x : UInt32) (k : ℕ), x.toNat * 2 ^ k < 2 ^ 32 → k < 32 →
      (x <<< .ofNat k).toNat = x.toNat <<< k := by
    intro x k hx hk
    rw [UInt32.toNat_shiftLeft, UInt32.toNat_ofNat_of_lt' (by show _ < 2 ^ 32; omega),
      Nat.mod_eq_of_lt hk, Nat.shiftLeft_eq, Nat.mod_eq_of_lt hx]
  have hlow : id.toNat <<< 10 ||| size.toNat = id.toNat <<< 10 + size.toNat :=
    (Nat.shiftLeft_add_eq_or_of_lt hsize _).symm
  have hlt : id.toNat <<< 10 + size.toNat < 2 ^ 20 := by
    rw [Nat.shiftLeft_eq]
    omega
  rw [lfsMktag, UInt32.or_assoc, UInt32.toNat_or, UInt32.toNat_or]
  show (type <<< .ofNat 20).toNat ||| ((id <<< .ofNat 10).toNat ||| size.toNat) = _
  rw [hshift type 20 (by omega) (by decide), hshift id 10 (by omega) (by decide), hlow,
    ← Nat.shiftLeft_add_eq_or_of_lt hlt, Nat.shiftLeft_eq, Nat.shiftLeft_eq]
  omega

/-- A tag made from parts has the id it was made with. -/
theorem lfsTagId_mktag_toNat {type id size : UInt32} (htype : type.toNat < 2 ^ 12)
    (hid : id.toNat < 2 ^ 10) (hsize : size.toNat < 2 ^ 10) :
    (lfsTagId (lfsMktag type id size)).toNat = id.toNat := by
  rw [lfsTagId_toNat, lfsMktag_toNat htype hid hsize]
  omega

/-- A tag made from parts has the size it was made with. -/
theorem lfsTagSize_mktag_toNat {type id size : UInt32} (htype : type.toNat < 2 ^ 12)
    (hid : id.toNat < 2 ^ 10) (hsize : size.toNat < 2 ^ 10) :
    (lfsTagSize (lfsMktag type id size)).toNat = size.toNat := by
  rw [lfsTagSize_toNat, lfsMktag_toNat htype hid hsize]
  omega

/-- A tag made from parts has the type it was made with. -/
theorem lfsTagType3_mktag {type id size : UInt32} (htype : type.toNat < 2 ^ 11)
    (hid : id.toNat < 2 ^ 10) (hsize : size.toNat < 2 ^ 10) :
    lfsTagType3 (lfsMktag type id size) = type := by
  refine UInt32.toNat_inj.mp ?_
  rw [lfsTagType3_toNat, lfsMktag_toNat (by omega) hid hsize]
  omega

/-- The chunk is the low byte of the type. -/
theorem lfsTagChunk_eq (tag : LfsTag) : lfsTagChunk tag = (lfsTagType3 tag &&& 0xff).toUInt8 := by
  have hmask : (0x7ff : UInt32) &&& 0xff = 0xff := by decide
  have hchunk : 0x0ff00000 >>> (20 : UInt32) = (0xff : UInt32) := by decide
  have htype : 0x7ff00000 >>> (20 : UInt32) = (0x7ff : UInt32) := by decide
  rw [lfsTagChunk, lfsTagType3, UInt32.shiftRight_and, UInt32.shiftRight_and, hchunk, htype,
    UInt32.and_assoc, hmask]

/-- The pattern of a type under every id. -/
theorem mktag_id (m : UInt32) : lfsMktag m 0x3ff 0 = m <<< 20 ||| (0x3ff : UInt32) <<< 10 := by
  rw [lfsMktag, UInt32.or_zero]

/-- A mask on type and id compares types and ids. -/
theorem mask_eq_iff (m : UInt32) (a b : LfsTag) :
    lfsMktag m 0x3ff 0 &&& a = lfsMktag m 0x3ff 0 &&& b ↔
      m <<< 20 &&& a = m <<< 20 &&& b ∧ lfsTagId a = lfsTagId b := by
  have hdistrib : ∀ k n x : UInt32, (k ||| n) &&& x = k &&& x ||| n &&& x :=
    fun _ _ _ => UInt32.toBitVec_inj.mp BitVec.and_or_distrib_right
  rw [mktag_id, ← idMask_eq_iff]
  constructor
  · intro h
    have hpart : ∀ n k : UInt32, n &&& k = n → k &&& a = k &&& b → n &&& a = n &&& b := by
      intro n k hn hk
      rw [← hn, UInt32.and_assoc, UInt32.and_assoc, hk]
    refine ⟨hpart _ _ (and_or_self_left _ _) h, hpart _ _ ?_ h⟩
    rw [UInt32.or_comm]
    exact and_or_self_left _ _
  · rintro ⟨htype, hid⟩
    rw [hdistrib, hdistrib, htype, hid]

/-- The id of such a pattern is the one that stands for none. -/
theorem lfsTagId_mktag (m : UInt32) : lfsTagId (lfsMktag m 0x3ff 0) = 0x3ff := by
  have hid : lfsTagId (lfsMktag m 0x3ff 0) = lfsTagId ((0x3ff : UInt32) <<< 10) := by
    rw [← idMask_eq_iff, mktag_id, UInt32.or_comm, and_or_self_left, UInt32.and_self]
  rw [hid]
  decide

end Num487Boot
