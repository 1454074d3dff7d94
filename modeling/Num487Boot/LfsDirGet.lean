import Num487Boot.LfsDirCached
import Num487Boot.Lib.EditLog

/-!
# What a Get Finds

The tags of a directory as a log of edits: creates and deletes move the ids behind them, any
other tag is an attribute of the id it has at the time. `lfs_dir_get` searches the log backwards
and adjusts the id it looks for at every splice on the way; what it finds is what a replay of the
log has for the id, the pending move included.

## Main results

* `get_finds`: on the content of the blocks.
* `lfsDirGet_finds`: through the caching layer.
-/

namespace Num487Boot

open Exec Memory Relation EditLog

/-! ### Directories as logs of ids -/

/-- What a tag does to the ids of a directory: a splice inserts or deletes one, any other tag
belongs to its id. -/
def editOf (t : LfsTag × ℕ) : Edit (LfsTag × ℕ) :=
  if lfsTagType1 t.1 = lfsTypeSplice then
    if lfsTagType3 t.1 = lfsTypeDelete then .delete (lfsTagId t.1).toNat
    else .insert (lfsTagId t.1).toNat
  else .note (lfsTagId t.1).toNat t

/-- The tags of a directory, newest first. -/
def editsOf (tags : List (LfsTag × ℕ)) : List (Edit (LfsTag × ℕ)) := (tags.map editOf).reverse

/-- One tag more is one edit more. -/
theorem editsOf_append (tags : List (LfsTag × ℕ)) (t : LfsTag × ℕ) :
    editsOf (tags ++ [t]) = editOf t :: editsOf tags := by
  rw [editsOf, List.map_append, List.reverse_append]
  rfl

/-- The splices LittleFS writes. -/
def SpliceOk (tag : LfsTag) : Prop :=
  lfsTagType1 tag = lfsTypeSplice →
    lfsTagType3 tag = lfsTypeCreate ∧ lfsTagSize tag = 0 ∨ lfsTagType3 tag = lfsTypeDelete

instance (tag : LfsTag) : Decidable (SpliceOk tag) := inferInstanceAs (Decidable (_ → _))

/-- The tags a get is looking for. -/
def typesMatch (tmask : UInt32) (gtag : LfsTag) (t : LfsTag × ℕ) : Bool :=
  tmask <<< 20 &&& t.1 = tmask <<< 20 &&& gtag

/-- What a get delivers of the tag it found: its data, filled up with zeros. -/
def getResult (mem : ℕ → UInt8) (gtag : LfsTag) (gsize : ℕ) :
    Option (LfsTag × ℕ) → Except LfsHalt (LfsTag × List UInt8)
  | none => .error (.err lfsErrNoent)
  | some t =>
      if lfsTagIsdelete t.1 then .error (.err lfsErrNoent)
      else
        let diff := min (lfsTagSize t.1).toNat gsize
        .ok (withId t.1 (lfsTagId gtag).toNat,
          slice mem (t.2 + 4) diff ++ .replicate (gsize - diff) 0)

/-- A get looks for attributes, neither for splices nor for CRCs. -/
structure Attribute (tmask : UInt32) (gtag : LfsTag) : Prop where
  covers : 0x700 &&& tmask = 0x700
  splice : lfsTagType1 gtag ≠ lfsTypeSplice
  crc : lfsTagType1 gtag ≠ 0x500

section Get

variable {g : LfsGeometry} {data : ℕ → ℕ → UInt8} {dir : LfsMdir} {tmask : UInt32} {gtag : LfsTag}
  {p : LogPos}

/-- A tag that matches an attribute has its coarse type. -/
theorem Attribute.type1_eq (h : Attribute tmask gtag) {tag : LfsTag}
    (hmatch : tmask <<< 20 &&& tag = tmask <<< 20 &&& gtag) :
    lfsTagType1 tag = lfsTagType1 gtag := by
  have hpart : ∀ x : UInt32,
      x &&& (0x70000000 : UInt32) = (0x700 : UInt32) <<< 20 &&& (tmask <<< 20 &&& x) := by
    intro x
    rw [← UInt32.and_assoc, ← UInt32.shiftLeft_and, h.covers, UInt32.and_comm]
    rfl
  rw [lfsTagType1, lfsTagType1, hpart, hpart, hmatch]

/-- The create of an id. -/
theorem createTag_toNat (cur : LfsTag) :
    (lfsMktag lfsTypeCreate 0 0 ||| (lfsMktag 0 0x3ff 0 &&& cur)).toNat
      = 0x401 * 2 ^ 20 + (lfsTagId cur).toNat * 2 ^ 10 := by
  have hid : lfsMktag 0 0x3ff 0 &&& cur = lfsTagId cur <<< 10 := idMask_and cur
  have hmk : lfsMktag lfsTypeCreate 0 0 ||| lfsTagId cur <<< 10
      = lfsMktag lfsTypeCreate (lfsTagId cur) 0 := by
    rw [lfsMktag, lfsMktag, UInt32.or_zero, UInt32.or_zero, UInt32.zero_shiftLeft, UInt32.or_zero]
  have hlt : (lfsTagId cur).toNat < 2 ^ 10 := by
    rw [lfsTagId_toNat]
    omega
  rw [hid, hmk]
  exact lfsMktag_toNat (by decide) hlt (by decide)

/-- The test for a creation under the id looked for. -/
theorem create_eq_iff {tag : LfsTag} (cur : LfsTag) (hvalid : lfsTagIsvalid tag = true)
    (htype : lfsTagType3 tag = lfsTypeCreate) (hsize : lfsTagSize tag = 0) :
    tag = lfsMktag lfsTypeCreate 0 0 ||| (lfsMktag 0 0x3ff 0 &&& cur) ↔
      (lfsTagId tag).toNat = (lfsTagId cur).toNat := by
  have htop : tag.toNat % 2 ^ 31 = tag.toNat := by
    rw [← lowTag_toNat, lowTag_of_valid hvalid]
  have htype' : tag.toNat / 2 ^ 20 % 2 ^ 11 = 0x401 := by
    rw [← lfsTagType3_toNat, htype]
    rfl
  have hsize' : tag.toNat % 1024 = 0 := by
    rw [← lfsTagSize_toNat, hsize]
    rfl
  rw [← UInt32.toNat_inj, createTag_toNat, lfsTagId_toNat tag]
  omega

/-- A deletion is no creation. -/
theorem ne_create {tag : LfsTag} (htype : lfsTagType3 tag = lfsTypeDelete) (cur : LfsTag) :
    tag ≠ lfsMktag lfsTypeCreate 0 0 ||| (lfsMktag 0 0x3ff 0 &&& cur) := by
  have htype' : tag.toNat / 2 ^ 20 % 2 ^ 11 = 0x4ff := by
    rw [← lfsTagType3_toNat, htype]
    rfl
  intro h
  have hlt : (lfsTagId cur).toNat < 1024 := by
    rw [lfsTagId_toNat]
    omega
  rw [h, createTag_toNat] at htype'
  omega

/-- A creation moves the ids behind it up by one. -/
theorem splice_create {tag : LfsTag} (htype : lfsTagType3 tag = lfsTypeCreate) :
    lfsMktag 0 (lfsTagSplice tag).toInt32.toUInt32 0 = 1024 := by
  rw [lfsTagSplice, lfsTagChunk_eq, htype]
  decide

/-- A deletion moves the ids above it down by one. -/
theorem splice_delete {tag : LfsTag} (htype : lfsTagType3 tag = lfsTypeDelete) :
    lfsMktag 0 (lfsTagSplice tag).toInt32.toUInt32 0 = -1024 := by
  rw [lfsTagSplice, lfsTagChunk_eq, htype]
  decide

/-- The id below. -/
theorem withId_pred {cur : LfsTag} {j : ℕ} (hj : 0 < j) (hlt : j < 1024) :
    withId cur j - 1024 = withId cur (j - 1) := by
  apply UInt32.toNat_inj.mp
  rw [UInt32.toNat_sub, withId_toNat hlt, withId_toNat (by omega)]
  have hcur := cur.toNat_lt
  show (2 ^ 32 - 1024 + _) % 2 ^ 32 = _
  omega

/-- The id above. -/
theorem withId_succ {cur : LfsTag} {j : ℕ} (hlt : j + 1 < 1024) :
    withId cur j + 1024 = withId cur (j + 1) := by
  apply UInt32.toNat_inj.mp
  rw [UInt32.toNat_add, withId_toNat (by omega), withId_toNat hlt]
  have hcur := cur.toNat_lt
  show (_ + 1024) % 2 ^ 32 = _
  omega

/-- The decisions of a round of the loop: the tag is the one looked for, or the search goes on,
or it ends where the id was created. -/
def getRound {α : Type} (gmask gtag tag gdiff : LfsTag) (found rest : LfsTag → α) (noent : α) : α :=
  let splice := lfsTagId gmask ≠ 0 ∧ lfsTagType1 tag = lfsTypeSplice ∧
    lfsTagId tag ≤ lfsTagId (gtag - gdiff)
  if splice ∧ tag = lfsMktag lfsTypeCreate 0 0 ||| (lfsMktag 0 0x3ff 0 &&& (gtag - gdiff)) then
    noent
  else
    let gdiff := if splice then gdiff + lfsMktag 0 (lfsTagSplice tag).toInt32.toUInt32 0 else gdiff
    if gmask &&& tag = gmask &&& (gtag - gdiff) then found gdiff else rest gdiff

section Round

variable {α : Type} {gmask tag gdiff : LfsTag} {found rest : LfsTag → α} {noent : α}

/-- A splice at or below the id ends the search, or moves it. -/
theorem getRound_splice (h : lfsTagId gmask ≠ 0 ∧ lfsTagType1 tag = lfsTypeSplice ∧
      lfsTagId tag ≤ lfsTagId (gtag - gdiff)) :
    getRound gmask gtag tag gdiff found rest noent =
      if tag = lfsMktag lfsTypeCreate 0 0 ||| (lfsMktag 0 0x3ff 0 &&& (gtag - gdiff)) then noent
      else
        let gdiff := gdiff + lfsMktag 0 (lfsTagSplice tag).toInt32.toUInt32 0
        if gmask &&& tag = gmask &&& (gtag - gdiff) then found gdiff else rest gdiff := by
  simp only [getRound, eq_true h, true_and, if_true]

/-- Any other tag is what is looked for, or is passed over. -/
theorem getRound_plain (h : ¬ (lfsTagId gmask ≠ 0 ∧ lfsTagType1 tag = lfsTypeSplice ∧
      lfsTagId tag ≤ lfsTagId (gtag - gdiff))) :
    getRound gmask gtag tag gdiff found rest noent =
      if gmask &&& tag = gmask &&& (gtag - gdiff) then found gdiff else rest gdiff := by
  simp only [getRound, h, false_and, if_false]

end Round

/-- One round of the loop, at a tag in the block. -/
theorem getLoop_succ {off fuel gsize : ℕ} {tag gdiff : LfsTag} {gmask : LfsTag}
    (hblock : dir.pair.1 < g.blockCount) (hoff : 4 ≤ off)
    (hle : off + lfsTagDsize tag ≤ g.blockSize) :
    getLoop (contentReads g data) dir gmask gtag 0 gsize (fuel + 1) (off + lfsTagDsize tag) tag
        gdiff =
      getRound gmask gtag tag gdiff (getMatch (contentReads g data) dir 0 gsize off tag)
        (getLoop (contentReads g data) dir gmask gtag 0 gsize fuel off
          (lowTag (lfsFrombe32 (slice (data dir.pair.1) off 4) ^^^ tag)))
        (.error (.err lfsErrNoent)) := by
  have hdsize := four_le_lfsTagDsize tag
  have hword : contentReads g data 4 dir.pair.1 off 4 = _ := contentReads_ok hblock (by omega)
  rw [getLoop, if_neg (by omega), Nat.add_sub_cancel]
  dsimp only
  rw [hword]
  rfl

/-- What is found is read from the content. -/
theorem getMatch_content {off gsize j : ℕ} {tag gdiff : LfsTag} (hblock : dir.pair.1 < g.blockCount)
    (hle : off + lfsTagDsize tag ≤ g.blockSize) (hcur : gtag - gdiff = withId gtag j)
    (hj : j < 1024) (hid : (lfsTagId tag).toNat = j) :
    getMatch (contentReads g data) dir 0 gsize off tag gdiff
      = getResult (data dir.pair.1) gtag gsize (some (tag, off)) := by
  have hgid : (lfsTagId gtag).toNat < 1024 := by
    rw [lfsTagId_toNat]
    omega
  have hgdiff : gdiff = gtag - withId gtag j := by
    rw [← hcur]
    apply UInt32.toNat_inj.mp
    have hlt := gdiff.toNat_lt
    have hlt' := gtag.toNat_lt
    rw [UInt32.toNat_sub, UInt32.toNat_sub]
    omega
  rw [getMatch, getResult]
  by_cases hdelete : lfsTagIsdelete tag = true
  · rw [if_pos hdelete, if_pos hdelete]
    rfl
  · have hsize : lfsTagDsize tag = 4 + (lfsTagSize tag).toNat := by
      rw [lfsTagDsize, if_neg hdelete, UInt32.add_zero]
    have hbytes : contentReads g data (min (lfsTagSize tag).toNat gsize) dir.pair.1 (off + 4 + 0)
        (min (lfsTagSize tag).toNat gsize) = _ := contentReads_ok hblock (by omega)
    rw [if_neg hdelete, if_neg hdelete, ← withId_add gtag hj hgid hid rfl, ← hgdiff]
    dsimp only
    rw [hbytes]
    rfl

section Finds

variable {off gsize j : ℕ} {tag gdiff : LfsTag} {log : List (Edit (LfsTag × ℕ))}
  {rest : LfsTag → Except LfsHalt (LfsTag × List UInt8)}

/-- What is found of an id in the rounds before. -/
def Finds (mem : ℕ → UInt8) (tmask : UInt32) (gtag : LfsTag) (gsize : ℕ)
    (log : List (Edit (LfsTag × ℕ))) (rest : LfsTag → Except LfsHalt (LfsTag × List UInt8)) :
    Prop :=
  ∀ {i gdiff}, gtag - gdiff = withId gtag i → i + deletions log < 1024 →
    rest gdiff = getResult mem gtag gsize (search (typesMatch tmask gtag) log i)

/-- A difference, taken in two steps. -/
theorem sub_add_eq (a b n : UInt32) : a - (b + n) = a - b - n := by
  apply UInt32.toNat_inj.mp
  have ha := a.toNat_lt
  have hb := b.toNat_lt
  have hn := n.toNat_lt
  rw [UInt32.toNat_sub, UInt32.toNat_add, UInt32.toNat_sub, UInt32.toNat_sub]
  omega

/-- Moving up by one id. -/
theorem sub_neg_thousand (a : UInt32) : a - -1024 = a + 1024 := by
  apply UInt32.toNat_inj.mp
  rw [UInt32.toNat_sub, UInt32.toNat_add]
  show (2 ^ 32 - (2 ^ 32 - 1024) + a.toNat) % 2 ^ 32 = (a.toNat + 1024) % 2 ^ 32
  omega

/-- A splice is not what is looked for, whatever it does to the id. -/
theorem Attribute.not_splice (hattr : Attribute tmask gtag)
    (hsplice : lfsTagType1 tag = lfsTypeSplice) (hj : j < 1024) :
    ¬ lfsMktag tmask 0x3ff 0 &&& tag = lfsMktag tmask 0x3ff 0 &&& withId gtag j := by
  intro hmatch
  rw [mask_eq_iff, and_withId _ hj] at hmatch
  exact hattr.splice ((hattr.type1_eq hmatch.1).symm.trans hsplice)

/-- A mask that covers the id is not without one. -/
theorem mask_id_ne_zero (tmask : UInt32) : lfsTagId (lfsMktag tmask 0x3ff 0) ≠ 0 := by
  rw [lfsTagId_mktag]
  decide

/-- A creation. -/
theorem getRound_insert (hattr : Attribute tmask gtag) (hvalid : lfsTagIsvalid tag = true)
    (hsplice : lfsTagType1 tag = lfsTypeSplice) (htype : lfsTagType3 tag = lfsTypeCreate)
    (hsize : lfsTagSize tag = 0) (hcur : gtag - gdiff = withId gtag j)
    (hj : j + deletions log < 1024) (hrest : Finds (data dir.pair.1) tmask gtag gsize log rest) :
    getRound (lfsMktag tmask 0x3ff 0) gtag tag gdiff
        (getMatch (contentReads g data) dir 0 gsize off tag) rest (.error (.err lfsErrNoent))
      = getResult (data dir.pair.1) gtag gsize
        (search (typesMatch tmask gtag) (.insert (lfsTagId tag).toNat :: log) j) := by
  have hjlt : j < 1024 := by omega
  have hcurId : (lfsTagId (gtag - gdiff)).toNat = j := by rw [hcur, lfsTagId_withId hjlt]
  have hle_iff : lfsTagId tag ≤ lfsTagId (gtag - gdiff) ↔ (lfsTagId tag).toNat ≤ j := by
    rw [UInt32.le_iff_toNat_le, hcurId]
  have hcreate := create_eq_iff (gtag - gdiff) hvalid htype hsize
  rw [hcurId] at hcreate
  rcases Nat.lt_trichotomy (lfsTagId tag).toNat j with hlt | heq | hgt
  · have hnext : gtag - (gdiff + lfsMktag 0 (lfsTagSplice tag).toInt32.toUInt32 0)
        = withId gtag (j - 1) := by
      rw [sub_add_eq, hcur, splice_create htype, withId_pred (by omega) hjlt]
    have hfound := hrest hnext (by omega)
    rw [getRound_splice ⟨mask_id_ne_zero _, hsplice, hle_iff.mpr (by omega)⟩,
      if_neg fun h => Nat.ne_of_lt hlt (hcreate.mp h)]
    dsimp only
    rw [hnext, if_neg (hattr.not_splice hsplice (by omega)), hfound, search_insert, if_pos hlt]
  · rw [getRound_splice ⟨mask_id_ne_zero _, hsplice, hle_iff.mpr (by omega)⟩,
      if_pos (hcreate.mpr heq), search_insert, if_neg (by omega), if_pos heq]
    rfl
  · have hplain : ¬ (lfsTagId (lfsMktag tmask 0x3ff 0) ≠ 0 ∧ lfsTagType1 tag = lfsTypeSplice ∧
        lfsTagId tag ≤ lfsTagId (gtag - gdiff)) := fun h => by
      have hle := hle_iff.mp h.2.2
      omega
    rw [getRound_plain hplain, hcur, if_neg (hattr.not_splice hsplice hjlt), hrest hcur hj,
      search_insert, if_neg (by omega), if_neg (by omega)]

/-- A deletion. -/
theorem getRound_delete (hattr : Attribute tmask gtag)
    (hsplice : lfsTagType1 tag = lfsTypeSplice) (htype : lfsTagType3 tag = lfsTypeDelete)
    (hcur : gtag - gdiff = withId gtag j)
    (hj : j + (deletions log + 1) < 1024)
    (hrest : Finds (data dir.pair.1) tmask gtag gsize log rest) :
    getRound (lfsMktag tmask 0x3ff 0) gtag tag gdiff
        (getMatch (contentReads g data) dir 0 gsize off tag) rest (.error (.err lfsErrNoent))
      = getResult (data dir.pair.1) gtag gsize
        (search (typesMatch tmask gtag) (.delete (lfsTagId tag).toNat :: log) j) := by
  have hjlt : j < 1024 := by omega
  have hcurId : (lfsTagId (gtag - gdiff)).toNat = j := by rw [hcur, lfsTagId_withId hjlt]
  have hle_iff : lfsTagId tag ≤ lfsTagId (gtag - gdiff) ↔ (lfsTagId tag).toNat ≤ j := by
    rw [UInt32.le_iff_toNat_le, hcurId]
  by_cases hle : (lfsTagId tag).toNat ≤ j
  · have hnext : gtag - (gdiff + lfsMktag 0 (lfsTagSplice tag).toInt32.toUInt32 0)
        = withId gtag (j + 1) := by
      rw [sub_add_eq, hcur, splice_delete htype, sub_neg_thousand, withId_succ (by omega)]
    have hfound := hrest hnext (by omega)
    rw [getRound_splice ⟨mask_id_ne_zero _, hsplice, hle_iff.mpr hle⟩, if_neg (ne_create htype _)]
    dsimp only
    rw [hnext, if_neg (hattr.not_splice hsplice (by omega)), hfound, search_delete, if_pos hle]
  · have hplain : ¬ (lfsTagId (lfsMktag tmask 0x3ff 0) ≠ 0 ∧ lfsTagType1 tag = lfsTypeSplice ∧
        lfsTagId tag ≤ lfsTagId (gtag - gdiff)) := fun h => hle (hle_iff.mp h.2.2)
    rw [getRound_plain hplain, hcur, if_neg (hattr.not_splice hsplice hjlt),
      hrest hcur (by omega), search_delete, if_neg hle]

/-- An attribute. -/
theorem getRound_note (hblock : dir.pair.1 < g.blockCount)
    (hle : off + lfsTagDsize tag ≤ g.blockSize) (hsplice : lfsTagType1 tag ≠ lfsTypeSplice)
    (hcur : gtag - gdiff = withId gtag j) (hj : j + deletions log < 1024)
    (hrest : Finds (data dir.pair.1) tmask gtag gsize log rest) :
    getRound (lfsMktag tmask 0x3ff 0) gtag tag gdiff
        (getMatch (contentReads g data) dir 0 gsize off tag) rest (.error (.err lfsErrNoent))
      = getResult (data dir.pair.1) gtag gsize
        (search (typesMatch tmask gtag) (.note (lfsTagId tag).toNat (tag, off) :: log) j) := by
  have hjlt : j < 1024 := by omega
  have hmatch_iff : lfsMktag tmask 0x3ff 0 &&& tag = lfsMktag tmask 0x3ff 0 &&& (gtag - gdiff) ↔
      (lfsTagId tag).toNat = j ∧ typesMatch tmask gtag (tag, off) = true := by
    rw [mask_eq_iff, hcur, and_withId _ hjlt, typesMatch, decide_eq_true_iff, and_comm,
      ← UInt32.toNat_inj (a := lfsTagId tag), lfsTagId_withId hjlt]
  rw [getRound_plain fun h => hsplice h.2.1, search]
  by_cases hmatch : (lfsTagId tag).toNat = j ∧ typesMatch tmask gtag (tag, off) = true
  · rw [if_pos (hmatch_iff.mpr hmatch), if_pos hmatch]
    exact getMatch_content hblock hle hcur hjlt hmatch.1
  · rw [if_neg (mt hmatch_iff.mp hmatch), if_neg hmatch, hrest hcur hj]

/-- A round at a tag that is no CRC. -/
theorem getRound_finds (hattr : Attribute tmask gtag) (hblock : dir.pair.1 < g.blockCount)
    (hle : off + lfsTagDsize tag ≤ g.blockSize) (hvalid : lfsTagIsvalid tag = true)
    (hok : SpliceOk tag) (hcur : gtag - gdiff = withId gtag j)
    (hj : j + deletions (editOf (tag, off) :: log) < 1024)
    (hrest : Finds (data dir.pair.1) tmask gtag gsize log rest) :
    getRound (lfsMktag tmask 0x3ff 0) gtag tag gdiff
        (getMatch (contentReads g data) dir 0 gsize off tag) rest (.error (.err lfsErrNoent))
      = getResult (data dir.pair.1) gtag gsize
        (search (typesMatch tmask gtag) (editOf (tag, off) :: log) j) := by
  by_cases hsplice : lfsTagType1 tag = lfsTypeSplice
  · rcases hok hsplice with ⟨htype, hsize⟩ | htype
    · have hedit : editOf (tag, off) = .insert (lfsTagId tag).toNat := by
        rw [editOf, if_pos hsplice, if_neg (by rw [htype]; decide)]
      rw [hedit] at hj ⊢
      exact getRound_insert hattr hvalid hsplice htype hsize hcur hj hrest
    · have hedit : editOf (tag, off) = .delete (lfsTagId tag).toNat := by
        rw [editOf, if_pos hsplice, if_pos htype]
      rw [hedit] at hj ⊢
      exact getRound_delete hattr hsplice htype hcur hj hrest
  · have hedit : editOf (tag, off) = .note (lfsTagId tag).toNat (tag, off) := by
      rw [editOf, if_neg hsplice]
    rw [hedit] at hj ⊢
    exact getRound_note hblock hle hsplice hcur hj hrest

/-- The tag before the next, as the loop works it out. -/
theorem lowTag_before {word ptag tag t : LfsTag} (ht : t = word ^^^ ptag)
    (htag : lowTag tag = lowTag t) : lowTag (word ^^^ tag) = lowTag ptag := by
  have hword : lowTag word = lowTag t ^^^ lowTag ptag := by
    rw [← lowTag_xor, ht, UInt32.xor_assoc, UInt32.xor_self, UInt32.xor_zero]
  rw [lowTag_xor, hword, htag, UInt32.xor_comm (lowTag t), UInt32.xor_assoc, UInt32.xor_self,
    UInt32.xor_zero]

/-- What a commit makes of the tags after it is a matter of the valid bit alone. -/
theorem lowTag_crcPtag (tag : LfsTag) : lowTag (crcPtag tag) = lowTag tag := by
  rw [crcPtag, lowTag_xor, lowTag_top, UInt32.xor_zero]

/-- The loop of a get, from a position of the block backwards. -/
theorem getLoop_finds (hattr : Attribute tmask gtag) (hblock : dir.pair.1 < g.blockCount)
    (hp : Logged g (data dir.pair.1) p) (hok : ∀ t ∈ p.tags, SpliceOk t.1) {fuel : ℕ}
    (hfuel : p.off ≤ 4 * fuel) (htag : tag = p.ptag ∨ tag = lowTag p.ptag)
    (hcur : gtag - gdiff = withId gtag j) (hj : j + deletions (editsOf p.tags) < 1024) :
    getLoop (contentReads g data) dir (lfsMktag tmask 0x3ff 0) gtag 0 gsize fuel p.off tag gdiff
      = getResult (data dir.pair.1) gtag gsize
        (search (typesMatch tmask gtag) (editsOf p.tags) j) := by
  induction hp generalizing fuel tag gdiff j with
  | refl =>
      have hdsize : lfsTagDsize tag = 4 := by
        rcases htag with rfl | rfl
        · decide
        · rw [lfsTagDsize_lowTag]
          decide
      obtain ⟨fuel, rfl⟩ : ∃ n, fuel = n + 1 := Nat.exists_eq_succ_of_ne_zero fun h => by
        rw [h] at hfuel
        exact absurd hfuel (by decide)
      show getLoop _ _ _ _ _ _ (fuel + 1) 4 tag gdiff = _
      rw [getLoop, hdsize, if_pos (by decide)]
      rfl
  | @tail r q hr hstep ih =>
      have hbounds := Logged.bounds hr
      have hnext := hstep.off_lt
      obtain ⟨fuel, rfl⟩ : ∃ n, fuel = n + 1 := Nat.exists_eq_succ_of_ne_zero (by omega)
      cases hstep with
      | @attr t hat hplain =>
          have htag' : tag = t := by
            rcases htag with rfl | rfl
            · rfl
            · exact lowTag_of_valid hat.valid
          subst htag'
          have hfuel' : r.off + lfsTagDsize tag ≤ 4 * (fuel + 1) := hfuel
          have hdsize := four_le_lfsTagDsize tag
          show getLoop _ _ _ _ _ _ (fuel + 1) (r.off + lfsTagDsize tag) tag gdiff = _
          have hoktag : SpliceOk (tag, r.off).1 :=
            hok (tag, r.off) (List.mem_append_right _ (List.mem_singleton_self _))
          rw [editsOf_append] at hj ⊢
          rw [getLoop_succ hblock hbounds.1 hat.fits]
          refine getRound_finds hattr hblock hat.fits hat.valid hoktag hcur hj ?_
          intro i gdiff' hcur' hi
          exact ih (fun t ht => hok t (List.mem_append_left _ ht)) (by omega)
            (.inr (lowTag_before hat.tag_eq rfl)) hcur' hi
      | @crc t hat hcrc hsum =>
          have htype : lfsTagType1 t = 0x500 := by
            rw [lfsTagType1_eq_type2, hcrc]
            decide
          have hlow : lowTag tag = lowTag t := by
            rcases htag with rfl | rfl
            · exact lowTag_crcPtag t
            · rw [lowTag_lowTag]
              exact lowTag_crcPtag t
          have htype' : lfsTagType1 tag = 0x500 := by
            rw [← lfsTagType1_lowTag, hlow, lfsTagType1_lowTag, htype]
          have hsize : lfsTagDsize t = lfsTagDsize tag := by
            rw [← lfsTagDsize_lowTag, ← hlow, lfsTagDsize_lowTag]
          have hfuel' : r.off + lfsTagDsize t ≤ 4 * (fuel + 1) := hfuel
          have hdsize := four_le_lfsTagDsize t
          have hfits := hat.fits
          have hnosplice : (0x500 : UInt32) ≠ lfsTypeSplice := by decide
          have hedit : editOf (t, r.off) = .note (lfsTagId t).toNat (t, r.off) := by
            rw [editOf, if_neg (by rw [htype]; exact hnosplice)]
          have hrest : j + deletions (editsOf r.tags) < 1024 := by
            rw [editsOf_append, hedit] at hj
            exact hj
          have hnotype : typesMatch tmask gtag (t, r.off) = false := decide_eq_false fun h =>
            hattr.crc ((hattr.type1_eq h).symm.trans htype)
          show getLoop _ _ _ _ _ _ (fuel + 1) (r.off + lfsTagDsize t) tag gdiff = _
          rw [editsOf_append, hedit, search,
            if_neg (by rw [hnotype]; exact fun h => Bool.false_ne_true h.2)]
          rw [hsize] at hfits ⊢
          rw [getLoop_succ hblock hbounds.1 hfits,
            getRound_plain (by rw [htype']; exact fun h => hnosplice h.2.1), if_neg]
          · exact ih (fun t ht => hok t (List.mem_append_left _ ht)) (by omega)
              (.inr (lowTag_before hat.tag_eq hlow)) hcur hrest
          · rw [hcur, mask_eq_iff, and_withId _ (by omega)]
            exact fun h => hattr.crc ((hattr.type1_eq h.1).symm.trans htype')

end Finds

/-- The edits of a directory, with the move that is pending. -/
def LfsGstate.edits (gdisk : LfsGstate) (pair : ℕ × ℕ) (tags : List (LfsTag × ℕ)) :
    List (Edit (LfsTag × ℕ)) :=
  if lfsGstateHasmovehere gdisk pair then .delete (lfsTagId gdisk.tag).toNat :: editsOf tags
  else editsOf tags

/-- **A get finds the newest attribute of an id**, of those the log has for it by now. -/
theorem get_finds {tags : List (LfsTag × ℕ)} (hattr : Attribute tmask gtag)
    (hblock : dir.pair.1 < g.blockCount)
    (hp : Logged g (data dir.pair.1) ⟨dir.off, dir.off, dir.etag, tags⟩)
    (hok : ∀ t ∈ tags, SpliceOk t.1) (gdisk : LfsGstate)
    (hid : (lfsTagId gtag).toNat + deletions (gdisk.edits dir.pair tags) < 1024) :
    lfsDirGet g (contentReads g data) gdisk dir (lfsMktag tmask 0x3ff 0) gtag
      = getResult (data dir.pair.1) gtag (lfsTagSize gtag).toNat
        ((history (gdisk.edits dir.pair tags) (lfsTagId gtag).toNat).find?
          (typesMatch tmask gtag)) := by
  have hbounds := hp.bounds
  have hfuel : dir.off ≤ 4 * (g.blockSize / 4 + 1) := by
    have hle : dir.off ≤ g.blockSize := hbounds.2.1
    omega
  have hcur : gtag - 0 = withId gtag (lfsTagId gtag).toNat := by rw [UInt32.sub_zero, withId_self]
  rw [← search_eq, lfsDirGet, lfsDirGetslice]
  by_cases hmove : lfsGstateHasmovehere gdisk dir.pair = true
  · have hedits : gdisk.edits dir.pair tags
        = .delete (lfsTagId gdisk.tag).toNat :: editsOf tags := if_pos hmove
    rw [hedits] at hid ⊢
    have hid' : (lfsTagId gtag).toNat + (deletions (editsOf tags) + 1) < 1024 := hid
    rw [search_delete]
    by_cases hle : lfsTagId gdisk.tag ≤ lfsTagId gtag
    · have hnext : gtag - (0 - lfsMktag 0 1 0) = withId gtag ((lfsTagId gtag).toNat + 1) := by
        have hneg : gtag - (0 - lfsMktag 0 1 0) = gtag + 1024 := sub_neg_thousand gtag
        rw [hneg, ← withId_succ (by omega), withId_self]
      have hdeep : (lfsTagId gtag).toNat + 1 + deletions (editsOf tags) < 1024 := by omega
      rw [if_pos ⟨hmove, mask_id_ne_zero _, hle⟩, if_pos (UInt32.le_iff_toNat_le.mp hle)]
      exact getLoop_finds hattr hblock hp hok hfuel (.inl rfl) hnext hdeep
    · have hsame : (lfsTagId gtag).toNat + deletions (editsOf tags) < 1024 := by omega
      rw [if_neg fun h => hle h.2.2, if_neg (mt UInt32.le_iff_toNat_le.mpr hle)]
      exact getLoop_finds hattr hblock hp hok hfuel (.inl rfl) hcur hsame
  · have hedits : gdisk.edits dir.pair tags = editsOf tags := if_neg hmove
    rw [hedits] at hid ⊢
    rw [if_neg fun h => hmove h.1]
    exact getLoop_finds hattr hblock hp hok hfuel (.inl rfl) hcur hid

end Get

/-! ### Through the caches -/

section Cached

variable {δ : Type} {c : LfsSetup δ} {R : δ → BlockDevice → Prop} {d : BlockDevice}
  {pcache : LfsCache} {dir : LfsMdir} {gmask gtag : LfsTag}

/-- A read of no bytes does not need a hint. -/
theorem bdReads_zero (hint block off : ℕ) (hoff : off ≤ c.blockSize + 4) :
    Yields (LfsBd.Serving c R d pcache) (bdReads c hint block off 0)
      (contentReads c.toLfsGeometry d.data hint block off 0) := by
  intro s hs
  have hbound := c.block_le
  have hu32 : u32 ((off : ℤ) + (0 : ℕ)) = off + 0 := by rw [u32]; omega
  rw [contentReads]
  by_cases hout : block ≥ c.blockCount ∨ off + 0 > c.blockSize
  · have hthrow : lfsBdRead c none hint block off 0 s = .error (.err lfsErrCorrupt) s := by
      rw [lfsBdRead, hu32, if_pos hout]
      rfl
    rw [if_pos hout]
    exact ⟨s, reported_error hthrow, hs⟩
  · have hread : lfsBdRead c none hint block off 0 s = .ok [] s := by
      rw [lfsBdRead, hu32, if_neg hout]
      rfl
    rw [if_neg hout]
    exact ⟨s, reported_ok hread, hs⟩

/-- What is found is read alike through the caches. -/
theorem getMatch_yields (hc : c.Drives R) (hreads : c.ReadsSucceed R) {gsize off : ℕ}
    {tag gdiff : LfsTag} (hoff : off ≤ c.blockSize) :
    Yields (LfsBd.Serving c R d pcache) (getMatch (bdReads c) dir 0 gsize off tag gdiff)
      (getMatch (contentReads c.toLfsGeometry d.data) dir 0 gsize off tag gdiff) := by
  have hbound := c.block_le
  have hsize := lfsTagSize_toNat tag
  have hdata : Yields (LfsBd.Serving c R d pcache)
      (bdReads c (min (lfsTagSize tag).toNat gsize) dir.pair.1 (off + 4 + 0)
        (min (lfsTagSize tag).toNat gsize))
      (contentReads c.toLfsGeometry d.data (min (lfsTagSize tag).toNat gsize) dir.pair.1
        (off + 4 + 0) (min (lfsTagSize tag).toNat gsize)) := by
    by_cases hdiff : min (lfsTagSize tag).toNat gsize = 0
    · rw [hdiff]
      exact bdReads_zero 0 _ _ (by omega)
    · exact bdReads_yields hc hreads (by omega) fun hin => ⟨by omega, by omega⟩
  rw [getMatch, getMatch]
  refine .ite (fun _ => .pure _) fun _ => ?_
  refine hdata.bind_id ?_
  split <;> exact .pure _

/-- The backward search, through the caches. -/
theorem getLoop_yields (hc : c.Drives R) (hreads : c.ReadsSucceed R) {gsize fuel off : ℕ}
    {tag gdiff : LfsTag} (hoff : off ≤ c.blockSize) :
    Yields (LfsBd.Serving c R d pcache)
      (getLoop (bdReads c) dir gmask gtag 0 gsize fuel off tag gdiff)
      (getLoop (contentReads c.toLfsGeometry d.data) dir gmask gtag 0 gsize fuel off tag
        gdiff) := by
  have hbound := c.block_le
  have hblock := c.block_ge
  induction fuel generalizing off tag gdiff with
  | zero => exact .pure _
  | succ fuel ih =>
      have hback : off - lfsTagDsize tag ≤ c.blockSize := Nat.le_trans (Nat.sub_le _ _) hoff
      rw [getLoop, getLoop]
      refine .ite (fun _ => .pure _) fun _ => ?_
      refine (bdReads_yields hc hreads (by omega) fun _ => ⟨by omega, by omega⟩).bind_id ?_
      split
      · exact .pure _
      · refine .ite (fun _ => .pure _) fun _ => ?_
        exact .ite (fun _ => getMatch_yields hc hreads hback) (fun _ => ih hback)

/-- `lfs_dir_get` through the caches does what it does on the content. -/
theorem lfsDirGet_yields (hc : c.Drives R) (hreads : c.ReadsSucceed R)
    (hoff : dir.off ≤ c.blockSize) (gdisk : LfsGstate) :
    Yields (LfsBd.Serving c R d pcache)
      (lfsDirGet c.toLfsGeometry (bdReads c) gdisk dir gmask gtag)
      (lfsDirGet c.toLfsGeometry (contentReads c.toLfsGeometry d.data) gdisk dir gmask gtag) :=
  getLoop_yields hc hreads hoff

variable (dir) in
/-- **A get through the caches**, of a directory that was fetched. -/
theorem lfsDirGet_finds (hc : c.Drives R) (hreads : c.ReadsSucceed R) {tmask : UInt32}
    {tags : List (LfsTag × ℕ)} (hattr : Attribute tmask gtag)
    (hblock : dir.pair.1 < c.blockCount)
    (hdir : Committed c.toLfsGeometry (d.data dir.pair.1) ⟨dir.off, dir.off, dir.etag, tags⟩)
    (hok : ∀ t ∈ tags, SpliceOk t.1) (gdisk : LfsGstate)
    (hid : (lfsTagId gtag).toNat + deletions (gdisk.edits dir.pair tags) < 1024) {s : LfsBd δ}
    (hs : s.Backed c R (fun _ => True) d) :
    ∃ t, lfsDirGet c.toLfsGeometry (bdReads c) gdisk dir (lfsMktag tmask 0x3ff 0) gtag s
        = .ok (getResult (d.data dir.pair.1) gtag (lfsTagSize gtag).toNat
          ((history (gdisk.edits dir.pair tags) (lfsTagId gtag).toNat).find?
            (typesMatch tmask gtag))) t ∧
      t.Backed c R (fun _ => True) d ∧ t.pcache = s.pcache := by
  obtain ⟨t, hrun, ht, hpcache⟩ := lfsDirGet_yields hc hreads hdir.1.bounds.2.1 gdisk s ⟨hs, rfl⟩
  rw [get_finds hattr hblock hdir.1 hok gdisk hid] at hrun
  exact ⟨t, hrun, ht, hpcache⟩

end Cached

/-- A directory in which one file was created before another. -/
def twoFiles : List UInt8 :=
  [1, 0, 0, 0, 0xBF, 0xEF, 0xFF, 0xFF, 0x40, 0, 0, 1, 0x61, 0x40, 0, 0, 1, 0x40, 0, 0, 1, 0x62,
    0x50, 0x1F, 0xFC, 5, 0x72, 0xE2, 0xB1, 0xC3]

/-- A device with the block `twoFiles` and erased cells after it. -/
def twoFilesDevice : BlockDevice := .ofMem fun a => twoFiles.getD a 0xFF

/-- The tags of its log. -/
def twoFilesTags : List (LfsTag × ℕ) :=
  [(0x40100000, 4), (0x00100001, 8), (0x40100000, 13), (0x00100001, 17), (0x500FFC04, 22)]

/-- The log of `twoFiles` ends in its one commit. -/
theorem committed_twoFiles : Committed forgetful.toLfsGeometry (twoFilesDevice.data 0)
    ⟨30, 30, 0x500FFC04, twoFilesTags⟩ := by
  have hcreate : TagAt forgetful.toLfsGeometry (twoFilesDevice.data 0) .first 0x40100000 := by
    decide
  have hname : TagAt forgetful.toLfsGeometry (twoFilesDevice.data 0)
      ⟨0, 8, 0x40100000, twoFilesTags.take 1⟩ 0x00100001 := by
    decide
  have hbefore : TagAt forgetful.toLfsGeometry (twoFilesDevice.data 0)
      ⟨0, 13, 0x00100001, twoFilesTags.take 2⟩ 0x40100000 := by
    decide
  have hother : TagAt forgetful.toLfsGeometry (twoFilesDevice.data 0)
      ⟨0, 17, 0x40100000, twoFilesTags.take 3⟩ 0x00100001 := by
    decide
  have hcrc : TagAt forgetful.toLfsGeometry (twoFilesDevice.data 0)
      ⟨0, 22, 0x00100001, twoFilesTags.take 4⟩ 0x500FFC04 := by
    decide
  have hlog := (((ReflTransGen.single (Accepts.attr hcreate (by decide))).tail
    (Accepts.attr hname (by decide))).tail (Accepts.attr hbefore (by decide))).tail
    (Accepts.attr hother (by decide))
  exact ⟨hlog.tail (.crc hcrc (by decide) (by decide +kernel)), rfl⟩

/-- The file that was created first has moved to the second id. -/
theorem lfsDirGet_finds_twoFiles : ∃ t,
    lfsDirGet forgetful.toLfsGeometry (bdReads forgetful) ⟨0, (0, 0)⟩
        ⟨(0, 1), 1, 30, 0x500FFC04, 2, false, false, (lfsBlockNull, lfsBlockNull)⟩
        (lfsMktag 0x780 0x3ff 0) (lfsMktag lfsTypeName 1 4)
        ⟨twoFilesDevice, ⟨lfsBlockNull, 0, 0, fun _ => 0⟩, ⟨lfsBlockNull, 0, 0, fun _ => 0⟩⟩
      = .ok (.ok (0x00100401, [0x61, 0, 0, 0])) t := by
  have hattr : Attribute 0x780 (lfsMktag lfsTypeName 1 4) := ⟨by decide, by decide, by decide⟩
  have hbacked : LfsBd.Backed forgetful Eq (fun _ => True) twoFilesDevice
      ⟨twoFilesDevice, ⟨lfsBlockNull, 0, 0, fun _ => 0⟩, ⟨lfsBlockNull, 0, 0, fun _ => 0⟩⟩ :=
    ⟨rfl, fun h => absurd h (by decide)⟩
  obtain ⟨t, hrun, -⟩ := lfsDirGet_finds
    ⟨(0, 1), 1, 30, 0x500FFC04, 2, false, false, (lfsBlockNull, lfsBlockNull)⟩
    drives_forgetful readsSucceed_forgetful hattr (by decide) committed_twoFiles (by decide)
    ⟨0, (0, 0)⟩ (by decide) hbacked
  exact ⟨t, hrun⟩

end Num487Boot
