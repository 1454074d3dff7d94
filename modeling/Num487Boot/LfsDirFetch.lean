import Mathlib.Logic.Relation
import Num487Boot.LfsDir

/-!
# What a Fetch Finds

A block of a metadata pair read as a log: tag after tag, each xored with the one before, until a
tag is invalid, leaves the block or is a CRC that does not fit. The commits of the block are the
tags up to the last CRC; what follows is a commit that was never finished.

`lfs_dir_fetch` finds this on any disk. It takes the block with the newer revision if it has a
commit, and the other one otherwise, and comes back with the end of the last commit and with the
count, the tail and the split of the tags up to there.

## Main results

* `fetch_finds`: on the content of the blocks.
* `lfsDirFetch_finds`: through the caching layer, which does not show.
-/

namespace Num487Boot

open Exec Memory Relation

variable {g : LfsGeometry}

/-! ### Blocks as logs -/

/-- A position between two tags of a block: where the commit it is in starts, its own offset, the
tag before it as the next one is xored with it, and all tags up to it with their offsets. -/
structure LogPos where
  start : ℕ
  off : ℕ
  ptag : LfsTag
  tags : List (LfsTag × ℕ)

/-- Behind the revision. -/
def LogPos.first : LogPos := ⟨0, 4, 0xffffffff, []⟩

/-- The next tag of a block. With it a block has the data of the tag, and what else a scan reads
there. -/
structure TagAt (g : LfsGeometry) (data : ℕ → UInt8) (p : LogPos) (tag : LfsTag) : Prop where
  tag_eq : tag = lfsFrombe32 (slice data p.off 4) ^^^ p.ptag
  valid : lfsTagIsvalid tag = true
  fits : p.off + lfsTagDsize tag ≤ g.blockSize
  crc_fits : lfsTagType2 tag = lfsTypeCcrc → p.off + 8 ≤ g.blockSize
  tail_fits : lfsTagType1 tag = lfsTypeTail ∨ lfsTagType3 tag = lfsTypeFcrc →
    p.off + 12 ≤ g.blockSize

instance (g : LfsGeometry) (data : ℕ → UInt8) (p : LogPos) (tag : LfsTag) :
    Decidable (TagAt g data p tag) :=
  decidable_of_iff
    (tag = lfsFrombe32 (slice data p.off 4) ^^^ p.ptag ∧ lfsTagIsvalid tag = true ∧
      p.off + lfsTagDsize tag ≤ g.blockSize ∧
      (lfsTagType2 tag = lfsTypeCcrc → p.off + 8 ≤ g.blockSize) ∧
      (lfsTagType1 tag = lfsTypeTail ∨ lfsTagType3 tag = lfsTypeFcrc → p.off + 12 ≤ g.blockSize))
    ⟨fun h => ⟨h.1, h.2.1, h.2.2.1, h.2.2.2.1, h.2.2.2.2⟩,
      fun h => ⟨h.tag_eq, h.valid, h.fits, h.crc_fits, h.tail_fits⟩⟩

/-- The tag a CRC tag leaves to be xored with. -/
def crcPtag (tag : LfsTag) : LfsTag := tag ^^^ ((lfsTagChunk tag).toUInt32 &&& 1) <<< 31

/-- A scan goes on with the next tag. -/
inductive Accepts (g : LfsGeometry) (data : ℕ → UInt8) (p : LogPos) : LogPos → Prop
  | attr {tag : LfsTag} (h : TagAt g data p tag) (hattr : lfsTagType2 tag ≠ lfsTypeCcrc) :
      Accepts g data p ⟨p.start, p.off + lfsTagDsize tag, tag, p.tags ++ [(tag, p.off)]⟩
  | crc {tag : LfsTag} (h : TagAt g data p tag) (hcrc : lfsTagType2 tag = lfsTypeCcrc)
      (hsum : lfsCrc 0xffffffff (slice data p.start (p.off + 4 - p.start))
        = lfsFromle32 (slice data (p.off + 4) 4)) :
      Accepts g data p ⟨p.off + lfsTagDsize tag, p.off + lfsTagDsize tag, crcPtag tag,
        p.tags ++ [(tag, p.off)]⟩

/-- The positions of a block. -/
def Logged (g : LfsGeometry) (data : ℕ → UInt8) (p : LogPos) : Prop :=
  ReflTransGen (Accepts g data) LogPos.first p

/-- The end of a commit. -/
def Committed (g : LfsGeometry) (data : ℕ → UInt8) (p : LogPos) : Prop :=
  Logged g data p ∧ p.start = p.off

/-- What the tags say about the directory: its entries, its successor and whether it goes on
there. -/
structure DirState where
  count : UInt16
  tail : ℕ × ℕ
  split : Bool

/-- The state before the first tag. -/
def DirState.none : DirState := ⟨0, (lfsBlockNull, lfsBlockNull), false⟩

/-- What a tag makes of the number of ids. -/
def countTag (count : UInt16) (tag : LfsTag) : UInt16 :=
  if lfsTagType1 tag = lfsTypeName then
    if (lfsTagId tag).toUInt16 ≥ count then (lfsTagId tag).toUInt16 + 1 else count
  else if lfsTagType1 tag = lfsTypeSplice then count + (lfsTagSplice tag).toInt16.toUInt16
  else count

/-- What a tag makes of the state. -/
def DirState.tag (data : ℕ → UInt8) (s : DirState) (t : LfsTag × ℕ) : DirState :=
  if lfsTagType1 t.1 = lfsTypeTail then
    ⟨s.count, ((lfsFromle32 (slice data (t.2 + 4) 4)).toNat,
      (lfsFromle32 (slice data (t.2 + 8) 4)).toNat), lfsTagChunk t.1 &&& 1 ≠ 0⟩
  else { s with count := countTag s.count t.1 }

/-- A CRC says nothing about the directory. -/
theorem DirState.tag_crc {t : LfsTag × ℕ} (h : lfsTagType2 t.1 = lfsTypeCcrc)
    (data : ℕ → UInt8) (s : DirState) : s.tag data t = s := by
  have htype : lfsTagType1 t.1 = 0x500 := by
    rw [lfsTagType1_eq_type2, h]
    decide
  have hname : lfsTagType1 t.1 ≠ lfsTypeName := by rw [htype]; decide
  have hsplice : lfsTagType1 t.1 ≠ lfsTypeSplice := by rw [htype]; decide
  have htail : lfsTagType1 t.1 ≠ lfsTypeTail := by rw [htype]; decide
  rw [DirState.tag, if_neg htail, countTag, if_neg hname, if_neg hsplice]

/-- The state after a log of tags. -/
def dirState (data : ℕ → UInt8) (tags : List (LfsTag × ℕ)) : DirState :=
  tags.foldl (DirState.tag data) .none

/-- One tag more. -/
theorem dirState_append (data : ℕ → UInt8) (tags : List (LfsTag × ℕ)) (t : LfsTag × ℕ) :
    dirState data (tags ++ [t]) = (dirState data tags).tag data t :=
  List.foldl_append

/-- The directory is that of a commit, and no commit follows. -/
structure LastCommit (g : LfsGeometry) (data : ℕ → UInt8) (dir : LfsMdir) : Prop where
  found : ∃ tags, Committed g data ⟨dir.off, dir.off, dir.etag, tags⟩ ∧
    ⟨dir.count, dir.tail, dir.split⟩ = dirState data tags
  last : ∀ p, Committed g data p → p.off ≤ dir.off

section Positions

variable {data : ℕ → UInt8} {p q : LogPos}

/-- There is one tag at a position. -/
theorem TagAt.unique {tag tag' : LfsTag} (h : TagAt g data p tag) (h' : TagAt g data p tag') :
    tag = tag' := h.tag_eq.trans h'.tag_eq.symm

/-- What follows in a log is determined. -/
theorem accepts_rightUnique : Relator.RightUnique (Accepts g data) := by
  intro p q q' h h'
  cases h with
  | attr htag hattr =>
      cases h' with
      | attr htag' hattr' =>
          cases htag.unique htag'
          rfl
      | crc htag' hcrc =>
          cases htag.unique htag'
          exact absurd hcrc hattr
  | crc htag hcrc hsum =>
      cases h' with
      | attr htag' hattr =>
          cases htag.unique htag'
          exact absurd hcrc hattr
      | crc htag' hcrc' hsum' =>
          cases htag.unique htag'
          rfl

/-- A step moves forward, in the block. -/
theorem Accepts.off_lt (h : Accepts g data p q) : p.off + 4 ≤ q.off ∧ q.off ≤ g.blockSize := by
  cases h with
  | attr htag _ => exact ⟨Nat.add_le_add_left (four_le_lfsTagDsize _) _, htag.fits⟩
  | crc htag _ _ => exact ⟨Nat.add_le_add_left (four_le_lfsTagDsize _) _, htag.fits⟩

/-- A log goes forwards. -/
theorem Accepts.start_le (h : Accepts g data p q) (hp : p.start ≤ p.off) :
    p.start ≤ q.start ∧ q.start ≤ q.off := by
  cases h with
  | attr => exact ⟨Nat.le_refl _, Nat.le_trans hp (Nat.le_add_right _ _)⟩
  | crc => exact ⟨Nat.le_trans hp (Nat.le_add_right _ _), Nat.le_refl _⟩

/-- The positions of a log lie in its block. -/
theorem Logged.bounds (h : Logged g data p) :
    4 ≤ p.off ∧ p.off ≤ g.blockSize ∧ p.start ≤ p.off := by
  induction h with
  | refl =>
      have hblock := g.block_ge
      exact ⟨Nat.le_refl 4, Nat.le_trans (by decide) hblock, Nat.zero_le 4⟩
  | tail _ hstep ih =>
      have hoff := hstep.off_lt
      exact ⟨by omega, hoff.2, (hstep.start_le ih.2.2).2⟩

/-- A commit never starts before an earlier one. -/
theorem Logged.start_mono (hp : Logged g data p) (h : ReflTransGen (Accepts g data) p q) :
    p.start ≤ q.start := by
  induction h with
  | refl => exact Nat.le_refl _
  | tail hpq hstep ih =>
      have hbounds := Logged.bounds (hp.trans hpq)
      exact Nat.le_trans ih (hstep.start_le hbounds.2.2).1

/-- At the end of a log, no commit ends after the start of the one in progress. -/
theorem Logged.committed_le (hp : Logged g data p) (hstuck : ∀ q, ¬ Accepts g data p q)
    (hq : Committed g data q) : q.off ≤ p.start := by
  rw [← hq.2]
  rcases ReflTransGen.total_of_right_unique accepts_rightUnique hp hq.1 with h | h
  · rcases h.cases_head with rfl | ⟨r, hstep, -⟩
    · exact Nat.le_refl _
    · exact absurd hstep (hstuck r)
  · exact hq.1.start_mono h

/-- A later position is further on. -/
theorem off_le_of_accepts (h : ReflTransGen (Accepts g data) p q) : p.off ≤ q.off := by
  induction h with
  | refl => exact Nat.le_refl _
  | tail _ hstep ih =>
      have hlt := hstep.off_lt
      omega

/-- A commit is known by its end. -/
theorem Committed.unique (hp : Committed g data p) (hq : Committed g data q)
    (hoff : p.off = q.off) : p = q := by
  have hfar : ∀ {p q : LogPos}, ReflTransGen (Accepts g data) p q → p.off = q.off → p = q := by
    intro p q h heq
    rcases h.cases_head with rfl | ⟨r, hstep, hrest⟩
    · rfl
    · have hlt := hstep.off_lt
      have hle := off_le_of_accepts hrest
      omega
  rcases ReflTransGen.total_of_right_unique accepts_rightUnique hp.1 hq.1 with h | h
  · exact hfar h hoff
  · exact (hfar h hoff.symm).symm

variable {dir dir' : LfsMdir}

/-- No other commit ends as late. -/
theorem LastCommit.state_eq (h : LastCommit g data dir) (hp : Committed g data p)
    (hle : dir.off ≤ p.off) : p.off = dir.off ∧ p.ptag = dir.etag ∧
      ⟨dir.count, dir.tail, dir.split⟩ = dirState data p.tags := by
  obtain ⟨tags, hcommit, hstate⟩ := h.found
  obtain rfl := hcommit.unique hp (Nat.le_antisymm hle (h.last p hp))
  exact ⟨rfl, rfl, hstate⟩

/-- Of two last commits of a log neither ends after the other. -/
theorem LastCommit.off_le_off (h : LastCommit g data dir) (h' : LastCommit g data dir') :
    dir.off ≤ dir'.off := by
  obtain ⟨tags, hcommit, -⟩ := h.found
  exact h'.last _ hcommit

/-- A log has one last commit. -/
theorem LastCommit.unique (h : LastCommit g data dir) (h' : LastCommit g data dir') :
    dir.count = dir'.count ∧ dir.tail = dir'.tail := by
  obtain ⟨tags, hcommit, hstate'⟩ := h'.found
  obtain ⟨-, -, hstate⟩ := h.state_eq hcommit (h.off_le_off h')
  have heq := hstate.trans hstate'.symm
  exact ⟨congrArg DirState.count heq, congrArg DirState.tail heq⟩

end Positions

/-! ### Reading the content -/

section Content

variable {data : ℕ → ℕ → UInt8}

/-- A read inside the block delivers the content. -/
theorem contentReads_ok {hint block off size : ℕ} (hblock : block < g.blockCount)
    (h : off + size ≤ g.blockSize) :
    contentReads g data hint block off size = .ok (slice (data block) off size) := by
  rw [contentReads, if_neg (by omega)]

/-- A read across its end fails. -/
theorem contentReads_error {hint block off size : ℕ} (h : g.blockSize < off + size) :
    contentReads g data hint block off size = .error lfsErrCorrupt := by
  rw [contentReads, if_pos (.inr h)]

/-- The checksum loop takes in the bytes from `i` on. -/
theorem bdCrcLoop_content {hint block off fuel i size : ℕ} (hblock : block < g.blockCount)
    (h : off + i + size ≤ g.blockSize) (hfuel : size < fuel) (crc : UInt32) :
    bdCrcLoop (contentReads g data) hint block off fuel i size crc
      = (.ok (), lfsCrc crc (slice (data block) (off + i) size)) := by
  induction fuel generalizing i size crc with
  | zero => omega
  | succ fuel ih =>
      rw [bdCrcLoop]
      by_cases hsize : size = 0
      · rw [if_pos hsize, hsize]
        rfl
      · have hread : contentReads g data (u32 (hint - i)) block (off + i) (min size 8) = _ :=
          contentReads_ok hblock (by omega)
        have hsplit : size = min size 8 + (size - min size 8) := by omega
        have hrest := @ih (i + min size 8) (size - min size 8) (by omega) (by omega)
          (lfsCrc crc (slice (data block) (off + i) (min size 8)))
        rw [← lfsCrc_append, ← Nat.add_assoc, ← slice_append, ← hsplit] at hrest
        rw [if_neg hsize, ← hrest]
        dsimp only
        rw [hread]
        rfl

/-- The checksum of a region of the content. -/
theorem bdCrc_content {hint block off size : ℕ} (hblock : block < g.blockCount)
    (h : off + size ≤ g.blockSize) (crc : UInt32) :
    bdCrc (contentReads g data) hint block off size crc
      = (.ok (), lfsCrc crc (slice (data block) off size)) :=
  bdCrcLoop_content hblock (by omega) (Nat.lt_succ_self size) crc

end Content

/-! ### The scan -/

/-- The scan of a block has come to `p`, and found the commits up to where it started. -/
structure Scanned (g : LfsGeometry) (data : ℕ → UInt8) (dir₀ : LfsMdir) (p : LogPos)
    (x : TagScan) : Prop where
  logged : Logged g data p
  off_eq : x.off + lfsTagDsize x.ptag = p.off
  ptag_eq : x.ptag = p.ptag
  crc_eq : x.crc = lfsCrc 0xffffffff (slice data p.start (p.off - p.start))
  state_eq : ⟨x.tempcount, x.temptail, x.tempsplit⟩ = dirState data p.tags
  best : x.tempbesttag = 0xffffffff ∧ x.besttag = 0xffffffff
  place : x.dir.pair = dir₀.pair ∧ x.dir.rev = dir₀.rev
  start_eq : p.start = x.dir.off
  commit : x.dir.off ≠ 0 → ∃ tags, Committed g data ⟨x.dir.off, x.dir.off, x.dir.etag, tags⟩ ∧
    ⟨x.dir.count, x.dir.tail, x.dir.split⟩ = dirState data tags

/-- What the data of a tag does not touch. -/
structure TagScan.Kept (x y : TagScan) : Prop where
  off_eq : y.off = x.off
  ptag_eq : y.ptag = x.ptag
  crc_eq : y.crc = x.crc
  dir_eq : y.dir = x.dir
  best : x.tempbesttag = 0xffffffff ∧ x.besttag = 0xffffffff →
    y.tempbesttag = 0xffffffff ∧ y.besttag = 0xffffffff

section Scan

variable {data : ℕ → ℕ → UInt8} {tag : LfsTag} {x : TagScan}

/-- Two words, read at once or one after the other. -/
theorem slice_words (mem : ℕ → UInt8) (off : ℕ) :
    (slice mem (off + 4) 8).take 4 = slice mem (off + 4) 4 ∧
      (slice mem (off + 4) 8).drop 4 = slice mem (off + 8) 4 := by
  have hsplit : slice mem (off + 4) 8 = slice mem (off + 4) 4 ++ slice mem (off + 8) 4 :=
    slice_append mem (off + 4) 4 4
  rw [hsplit, List.take_left' (length_slice _ _ _), List.drop_left' (length_slice _ _ _)]
  exact ⟨rfl, rfl⟩

/-- A fetch that looks for no tag finds none. -/
theorem spliceBesttag_none (tag : LfsTag) : spliceBesttag tag 0xffffffff = 0xffffffff := by
  rw [spliceBesttag]
  split
  · rfl
  · rw [if_neg fun h => h.1 rfl]

/-- Directory modification tags whose data is in the block. -/
theorem scanModify_next (hblock : x.dir.pair.1 < g.blockCount)
    (hfits : lfsTagType1 tag = lfsTypeTail ∨ lfsTagType3 tag = lfsTypeFcrc →
      x.off + 12 ≤ g.blockSize) :
    ∃ y, scanModify g (contentReads g data) tag x = (y, .next) ∧ x.Kept y ∧
      ⟨y.tempcount, y.temptail, y.tempsplit⟩
        = DirState.tag (data x.dir.pair.1) ⟨x.tempcount, x.temptail, x.tempsplit⟩ (tag, x.off) := by
  have hread : x.off + 12 ≤ g.blockSize →
      contentReads g data g.blockSize x.dir.pair.1 (x.off + 4) 8 = _ :=
    fun h => contentReads_ok hblock (by omega)
  rw [scanModify]
  by_cases hname : lfsTagType1 tag = lfsTypeName
  · have htail : lfsTagType1 tag ≠ lfsTypeTail := by
      rw [hname]
      decide
    rw [if_pos hname, DirState.tag, if_neg htail, countTag, if_pos hname]
    split
    · exact ⟨_, rfl, ⟨rfl, rfl, rfl, rfl, id⟩, rfl⟩
    · exact ⟨_, rfl, ⟨rfl, rfl, rfl, rfl, id⟩, rfl⟩
  by_cases hsplice : lfsTagType1 tag = lfsTypeSplice
  · have htail : lfsTagType1 tag ≠ lfsTypeTail := by
      rw [hsplice]
      decide
    rw [if_neg hname, if_pos hsplice, DirState.tag, if_neg htail, countTag, if_neg hname,
      if_pos hsplice]
    refine ⟨_, rfl, ⟨rfl, rfl, rfl, rfl, fun hbest => ⟨?_, hbest.2⟩⟩, rfl⟩
    show spliceBesttag tag x.tempbesttag = _
    rw [hbest.1, spliceBesttag_none]
  rw [if_neg hname, if_neg hsplice]
  by_cases htail : lfsTagType1 tag = lfsTypeTail
  · obtain ⟨hfirst, hsecond⟩ := slice_words (data x.dir.pair.1) x.off
    rw [if_pos htail, DirState.tag, if_pos htail]
    dsimp only
    rw [hread (hfits (.inl htail))]
    refine ⟨_, rfl, ⟨rfl, rfl, rfl, rfl, id⟩, ?_⟩
    rw [hfirst, hsecond]
  have hcount : countTag x.tempcount tag = x.tempcount := by
    rw [countTag, if_neg hname, if_neg hsplice]
  rw [if_neg htail, DirState.tag, if_neg htail, hcount]
  by_cases hfcrc : lfsTagType3 tag = lfsTypeFcrc
  · rw [if_pos hfcrc, hread (hfits (.inr hfcrc))]
    exact ⟨_, rfl, ⟨rfl, rfl, rfl, rfl, id⟩, rfl⟩
  · rw [if_neg hfcrc]
    exact ⟨_, rfl, ⟨rfl, rfl, rfl, rfl, id⟩, rfl⟩

variable (data) in
/-- A tag whose data is cut off by the end of the block stops the scan. -/
theorem scanModify_stop (h : lfsTagType1 tag = lfsTypeTail ∨ lfsTagType3 tag = lfsTypeFcrc)
    (hoff : g.blockSize < x.off + 12) :
    ∃ y, scanModify g (contentReads g data) tag x = (y, .stop) ∧ y.dir = x.dir ∧
      y.besttag = x.besttag := by
  have hread : contentReads g data g.blockSize x.dir.pair.1 (x.off + 4) 8 = _ :=
    contentReads_error (by omega)
  have hname : lfsTagType1 tag ≠ lfsTypeName := by
    rcases h with h | h
    · rw [h]
      decide
    · rw [lfsTagType1_eq, h]
      decide
  have hsplice : lfsTagType1 tag ≠ lfsTypeSplice := by
    rcases h with h | h
    · rw [h]
      decide
    · rw [lfsTagType1_eq, h]
      decide
  rw [scanModify, if_neg hname, if_neg hsplice]
  by_cases htail : lfsTagType1 tag = lfsTypeTail
  · rw [if_pos htail]
    dsimp only
    rw [hread]
    exact ⟨_, rfl, rfl, rfl⟩
  · rw [if_neg htail, if_pos (h.resolve_left htail), hread]
    exact ⟨_, rfl, rfl, rfl⟩

/-- No tag of a log is what `lfs_dir_fetch` looks for. -/
theorem scanMatch_none {m : Type → Type} [Monad m] {cb : LfsTag → ℕ → ℕ → m ℤ}
    (hvalid : lfsTagIsvalid tag = true) (x : TagScan) :
    scanMatch 0xffffffff 0xffffffff cb tag x = pure (x, .next) := by
  have hne : ¬ (0xffffffff &&& tag = 0xffffffff &&& (0xffffffff : LfsTag)) := by
    intro h
    have htag : tag = 0xffffffff := by
      rw [← UInt32.neg_one_and (a := tag)]
      exact h
    rw [htag] at hvalid
    cases hvalid
  rw [scanMatch, if_neg hne]

variable {dir₀ : LfsMdir} {p : LogPos}

/-- The scan of `lfs_dir_fetch`. -/
def fetchTag (g : LfsGeometry) (data : ℕ → ℕ → UInt8) (x : TagScan) :
    Id (TagScan × ScanStep) :=
  scanTag g (contentReads g data) 0xffffffff 0xffffffff (fun _ _ _ => (pure 0 : Id ℤ)) x

variable (data) in
/-- An iteration that has a tag to look at. -/
theorem fetchTag_eq (hblock : x.dir.pair.1 < g.blockCount) {off : ℕ}
    (hoff : x.off + lfsTagDsize x.ptag = off) (hfits : off + 4 ≤ g.blockSize) :
    fetchTag g data x =
      let word := slice (data x.dir.pair.1) off 4
      let tag := lfsFrombe32 word ^^^ x.ptag
      let x := { x with off := off, crc := lfsCrc x.crc word }
      if !lfsTagIsvalid tag then pure ({ x with maybeerased := true }, .stop)
      else if off + lfsTagDsize tag > g.blockSize then pure (x, .stop)
      else
        let x := { x with ptag := tag }
        if lfsTagType2 tag = lfsTypeCcrc then scanCrc g (contentReads g data) tag x
        else scanAttr g (contentReads g data) 0xffffffff 0xffffffff
          (fun _ _ _ => (pure 0 : Id ℤ)) tag x := by
  have hread : contentReads g data g.blockSize x.dir.pair.1 off 4 = _ :=
    contentReads_ok hblock hfits
  rw [fetchTag, scanTag]
  dsimp only
  rw [hoff, hread]
  rfl

/-- A commit tag whose checksum lies in the block. -/
theorem scanCrc_ok (hblock : x.dir.pair.1 < g.blockCount) (hoff : x.off + 8 ≤ g.blockSize) :
    scanCrc g (contentReads g data) tag x =
      if x.crc ≠ lfsFromle32 (slice (data x.dir.pair.1) (x.off + 4) 4) then pure (x, .stop)
      else pure (x.commit tag, .next) := by
  have hbytes : contentReads g data g.blockSize x.dir.pair.1 (x.off + 4) 4 = _ :=
    contentReads_ok hblock (by omega)
  rw [scanCrc, hbytes]
  rfl

/-- A commit tag whose checksum does not. -/
theorem scanCrc_cut (hoff : g.blockSize < x.off + 8) :
    scanCrc g (contentReads g data) tag x = pure (x, .stop) := by
  have hbytes : contentReads g data g.blockSize x.dir.pair.1 (x.off + 4) 4 = _ :=
    contentReads_error (by omega)
  rw [scanCrc, hbytes]
  rfl

/-- The data of a tag has gone into the CRC. -/
def TagScan.summed (bytes : List UInt8) (x : TagScan) : TagScan :=
  { x with hasfcrc := false, crc := lfsCrc x.crc bytes }

/-- Another tag: its bytes are taken in, and then its meaning. -/
theorem scanAttr_eq (hblock : x.dir.pair.1 < g.blockCount)
    (hfits : x.off + lfsTagDsize tag ≤ g.blockSize) (fmask ftag : LfsTag)
    (cb : LfsTag → ℕ → ℕ → Id ℤ) :
    scanAttr g (contentReads g data) fmask ftag cb tag x =
      let r := scanModify g (contentReads g data) tag
        (x.summed (slice (data x.dir.pair.1) (x.off + 4) (lfsTagDsize tag - 4)))
      if r.2 = .next then scanMatch fmask ftag cb tag r.1 else pure (r.1, r.2) := by
  have hdsize := four_le_lfsTagDsize tag
  have hsum : bdCrc (contentReads g data) g.blockSize x.dir.pair.1 (x.off + 4)
      (lfsTagDsize tag - 4) x.crc = _ := bdCrc_content hblock (by omega) x.crc
  rw [scanAttr, hsum]
  rfl

variable (data) in
/-- After a tag whose data lies in the block the loop goes on. -/
theorem scanAttr_next (hblock : x.dir.pair.1 < g.blockCount) (hvalid : lfsTagIsvalid tag = true)
    (hfits : x.off + lfsTagDsize tag ≤ g.blockSize)
    (htail : lfsTagType1 tag = lfsTypeTail ∨ lfsTagType3 tag = lfsTypeFcrc →
      x.off + 12 ≤ g.blockSize) :
    ∃ z, scanAttr g (contentReads g data) 0xffffffff 0xffffffff
        (fun _ _ _ => (pure 0 : Id ℤ)) tag x = pure (z, .next) ∧
      (x.summed (slice (data x.dir.pair.1) (x.off + 4) (lfsTagDsize tag - 4))).Kept z ∧
      ⟨z.tempcount, z.temptail, z.tempsplit⟩
        = DirState.tag (data x.dir.pair.1) ⟨x.tempcount, x.temptail, x.tempsplit⟩ (tag, x.off) := by
  rw [scanAttr_eq hblock hfits]
  obtain ⟨z, hz, hkept, hstate⟩ := scanModify_next
    (x := x.summed (slice (data x.dir.pair.1) (x.off + 4) (lfsTagDsize tag - 4))) hblock htail
  rw [hz]
  refine ⟨z, ?_, hkept, hstate⟩
  dsimp only
  rw [if_pos rfl]
  exact scanMatch_none hvalid z

variable (data) in
/-- At a tag whose data does not lie in the block the loop stops. -/
theorem scanAttr_stop (hblock : x.dir.pair.1 < g.blockCount)
    (hfits : x.off + lfsTagDsize tag ≤ g.blockSize)
    (htail : lfsTagType1 tag = lfsTypeTail ∨ lfsTagType3 tag = lfsTypeFcrc)
    (hoff : g.blockSize < x.off + 12) :
    ∃ z, scanAttr g (contentReads g data) 0xffffffff 0xffffffff
        (fun _ _ _ => (pure 0 : Id ℤ)) tag x = pure (z, .stop) ∧ z.dir = x.dir ∧
      z.besttag = x.besttag := by
  rw [scanAttr_eq hblock hfits]
  obtain ⟨z, hz, hdir, hbest⟩ := scanModify_stop data
    (x := x.summed (slice (data x.dir.pair.1) (x.off + 4) (lfsTagDsize tag - 4))) htail hoff
  rw [hz]
  exact ⟨z, rfl, hdir, hbest⟩

/-- The tag at `p` has been read. -/
structure TagRead (g : LfsGeometry) (data : ℕ → ℕ → UInt8) (dir₀ : LfsMdir) (p : LogPos)
    (tag : LfsTag) (x y : TagScan) : Prop where
  scanned : Scanned g (data x.dir.pair.1) dir₀ p x
  tag_eq : tag = lfsFrombe32 (slice (data x.dir.pair.1) p.off 4) ^^^ p.ptag
  valid : lfsTagIsvalid tag = true
  fits : p.off + lfsTagDsize tag ≤ g.blockSize
  state_eq : y = { x with
    off := p.off
    crc := lfsCrc x.crc (slice (data x.dir.pair.1) p.off 4)
    ptag := tag }

/-- How an iteration of the scan comes out: it goes on to the next position, or there is none. -/
def ScanEnds (g : LfsGeometry) (data : ℕ → ℕ → UInt8) (dir₀ : LfsMdir) (p : LogPos) (x : TagScan)
    (r : Id (TagScan × ScanStep)) : Prop :=
  (∃ q z, Accepts g (data x.dir.pair.1) p q ∧ r = pure (z, .next) ∧
    Scanned g (data x.dir.pair.1) dir₀ q z) ∨
  ∃ z, (∀ q, ¬ Accepts g (data x.dir.pair.1) p q) ∧ r = pure (z, .stop) ∧ z.dir = x.dir ∧
    z.besttag = x.besttag

/-- The CRC of a commit so far, with the tag that was read. -/
theorem TagRead.crc_eq {y : TagScan} (h : TagRead g data dir₀ p tag x y) :
    y.crc = lfsCrc 0xffffffff (slice (data x.dir.pair.1) p.start (p.off + 4 - p.start)) := by
  have hbounds := h.scanned.logged.bounds
  have hlen : p.off + 4 - p.start = (p.off - p.start) + 4 := by omega
  have hoff : p.start + (p.off - p.start) = p.off := by omega
  rw [h.state_eq]
  show lfsCrc x.crc _ = _
  rw [h.scanned.crc_eq, ← lfsCrc_append, hlen, slice_append, hoff]

/-- After the data of the tag, the checksum is that of the commit up to there. -/
theorem TagRead.crc_data {y : TagScan} (h : TagRead g data dir₀ p tag x y) :
    lfsCrc y.crc (slice (data x.dir.pair.1) (p.off + 4) (lfsTagDsize tag - 4))
      = lfsCrc 0xffffffff
        (slice (data x.dir.pair.1) p.start (p.off + lfsTagDsize tag - p.start)) := by
  have hbounds := h.scanned.logged.bounds
  have hdsize := four_le_lfsTagDsize tag
  have hlen : p.off + lfsTagDsize tag - p.start
      = (p.off + 4 - p.start) + (lfsTagDsize tag - 4) := by omega
  have hmid : p.start + (p.off + 4 - p.start) = p.off + 4 := by omega
  rw [h.crc_eq, ← lfsCrc_append, hlen, slice_append, hmid]

/-- A CRC tag: the end of a commit, or of the log. -/
theorem TagRead.crc {y : TagScan} (h : TagRead g data dir₀ p tag x y)
    (hblock : x.dir.pair.1 < g.blockCount) (hcrc : lfsTagType2 tag = lfsTypeCcrc) :
    ScanEnds g data dir₀ p x (scanCrc g (contentReads g data) tag y) := by
  have hplain : ¬ (lfsTagType1 tag = lfsTypeTail ∨ lfsTagType3 tag = lfsTypeFcrc) := by
    rintro (htype | htype)
    · rw [lfsTagType1_eq_type2, hcrc] at htype
      exact absurd htype (by decide)
    · rw [lfsTagType2_eq, htype] at hcrc
      exact absurd hcrc (by decide)
  -- a position after this one has the tag, with a CRC that fits
  have honly : ∀ q, Accepts g (data x.dir.pair.1) p q → p.off + 8 ≤ g.blockSize ∧
      lfsCrc 0xffffffff (slice (data x.dir.pair.1) p.start (p.off + 4 - p.start))
        = lfsFromle32 (slice (data x.dir.pair.1) (p.off + 4) 4) := by
    intro q hq
    cases hq with
    | attr htag hattr => exact absurd (by rw [htag.tag_eq, ← h.tag_eq, hcrc]) hattr
    | crc htag hcrc' hsum => exact ⟨htag.crc_fits hcrc', hsum⟩
  have hdir : y.dir = x.dir := by rw [h.state_eq]
  have hoff : y.off = p.off := by rw [h.state_eq]
  have hbest : y.besttag = x.besttag := by rw [h.state_eq]
  rw [← hdir] at hblock
  by_cases hread : p.off + 8 ≤ g.blockSize
  · rw [scanCrc_ok hblock (hoff ▸ hread), hdir, hoff, h.crc_eq]
    by_cases heq : lfsCrc 0xffffffff (slice (data x.dir.pair.1) p.start (p.off + 4 - p.start))
        = lfsFromle32 (slice (data x.dir.pair.1) (p.off + 4) 4)
    · have hat : TagAt g (data x.dir.pair.1) p tag :=
        ⟨h.tag_eq, h.valid, h.fits, fun _ => hread, fun htype => absurd htype hplain⟩
      have hstep := Accepts.crc hat hcrc heq
      have hlogged := h.scanned.logged.tail hstep
      have hstate : ⟨x.tempcount, x.temptail, x.tempsplit⟩
          = dirState (data x.dir.pair.1) (p.tags ++ [(tag, p.off)]) :=
        h.scanned.state_eq.trans
          ((dirState_append _ _ _).trans (DirState.tag_crc (t := (tag, p.off)) hcrc _ _)).symm
      rw [if_neg (not_not_intro heq)]
      refine .inl ⟨_, y.commit tag, hstep, rfl, ?_⟩
      rw [h.state_eq]
      exact {
        logged := hlogged
        off_eq := congrArg (p.off + ·) (lfsTagDsize_xor_top tag _)
        ptag_eq := rfl
        crc_eq := by
          dsimp only
          rw [Nat.sub_self]
          rfl
        state_eq := hstate
        best := ⟨h.scanned.best.1, h.scanned.best.1⟩
        place := h.scanned.place
        start_eq := rfl
        commit := fun _ => ⟨_, ⟨hlogged, rfl⟩, hstate⟩ }
    · rw [if_pos heq]
      exact .inr ⟨y, fun q hq => heq (honly q hq).2, rfl, hdir, hbest⟩
  · rw [scanCrc_cut (by omega)]
    exact .inr ⟨y, fun q hq => hread (honly q hq).1, rfl, hdir, hbest⟩

/-- Any other tag: its data belongs to the commit, and says what the directory is. -/
theorem TagRead.attr {y : TagScan} (h : TagRead g data dir₀ p tag x y)
    (hblock : x.dir.pair.1 < g.blockCount) (hattr : lfsTagType2 tag ≠ lfsTypeCcrc) :
    ScanEnds g data dir₀ p x (scanAttr g (contentReads g data) 0xffffffff 0xffffffff
      (fun _ _ _ => (pure 0 : Id ℤ)) tag y) := by
  have hdir : y.dir = x.dir := by rw [h.state_eq]
  have hoff : y.off = p.off := by rw [h.state_eq]
  have hptag : y.ptag = tag := by rw [h.state_eq]
  have hbest : y.besttag = x.besttag := by rw [h.state_eq]
  have hbests : y.tempbesttag = 0xffffffff ∧ y.besttag = 0xffffffff := by
    rw [h.state_eq]
    exact h.scanned.best
  have hstate : ⟨y.tempcount, y.temptail, y.tempsplit⟩
      = dirState (data x.dir.pair.1) p.tags := by
    rw [h.state_eq]
    exact h.scanned.state_eq
  have hunique : ∀ {tag'}, TagAt g (data x.dir.pair.1) p tag' → tag' = tag :=
    fun h' => h'.tag_eq.trans h.tag_eq.symm
  rw [← hdir] at hblock
  have hfits : y.off + lfsTagDsize tag ≤ g.blockSize := hoff.symm ▸ h.fits
  by_cases htail : (lfsTagType1 tag = lfsTypeTail ∨ lfsTagType3 tag = lfsTypeFcrc) →
      p.off + 12 ≤ g.blockSize
  · obtain ⟨z, hz, hkept, hmodify⟩ :=
      scanAttr_next data hblock h.valid hfits (hoff.symm ▸ htail)
    have hat : TagAt g (data x.dir.pair.1) p tag :=
      ⟨h.tag_eq, h.valid, h.fits, fun hcrc => absurd hcrc hattr, htail⟩
    have hstep := Accepts.attr hat hattr
    have hzdir : z.dir = x.dir := hkept.dir_eq.trans hdir
    rw [hdir, hoff, hstate] at hmodify
    refine .inl ⟨_, z, hstep, hz, ?_⟩
    exact {
      logged := h.scanned.logged.tail hstep
      off_eq := by
        have hzoff : z.off = p.off := hkept.off_eq.trans hoff
        have hzptag : z.ptag = tag := hkept.ptag_eq.trans hptag
        rw [hzoff, hzptag]
      ptag_eq := hkept.ptag_eq.trans hptag
      crc_eq := hkept.crc_eq.trans (by rw [hdir, hoff]; exact h.crc_data)
      state_eq := hmodify.trans (dirState_append _ _ _).symm
      best := hkept.best hbests
      place := by rw [hzdir]; exact h.scanned.place
      start_eq := by rw [hzdir]; exact h.scanned.start_eq
      commit := by rw [hzdir]; exact h.scanned.commit }
  · obtain ⟨htype, hlt⟩ := Classical.not_imp.mp htail
    obtain ⟨z, hz, hzdir, hzbest⟩ := scanAttr_stop data hblock hfits htype
      (hoff.symm ▸ not_le.mp hlt)
    refine .inr ⟨z, ?_, hz, hzdir.trans hdir, hzbest.trans hbest⟩
    intro q hq
    cases hq with
    | attr hat _ => exact hlt (hat.tail_fits (hunique hat ▸ htype))
    | crc hat hcrc _ => exact hattr (hunique hat ▸ hcrc)

/-- An iteration of the scan. -/
theorem Scanned.step (h : Scanned g (data x.dir.pair.1) dir₀ p x)
    (hblock : x.dir.pair.1 < g.blockCount) : ScanEnds g data dir₀ p x (fetchTag g data x) := by
  by_cases hread : p.off + 4 ≤ g.blockSize
  · have hword := fetchTag_eq data hblock h.off_eq hread
    rw [h.ptag_eq] at hword
    rw [hword]
    obtain ⟨tag, htag⟩ : ∃ tag, tag = lfsFrombe32 (slice (data x.dir.pair.1) p.off 4) ^^^ p.ptag :=
      ⟨_, rfl⟩
    -- the position has no other tag
    have hunique : ∀ {tag'}, TagAt g (data x.dir.pair.1) p tag' → tag' = tag :=
      fun h' => h'.tag_eq.trans htag.symm
    have hat : ∀ {q}, Accepts g (data x.dir.pair.1) p q → TagAt g (data x.dir.pair.1) p tag := by
      intro q hq
      cases hq with
      | attr hat _ => exact hunique hat ▸ hat
      | crc hat _ _ => exact hunique hat ▸ hat
    dsimp only
    rw [← htag]
    by_cases hvalid : lfsTagIsvalid tag = true
    · rw [if_neg (by rw [hvalid]; exact Bool.false_ne_true)]
      by_cases hfits : p.off + lfsTagDsize tag ≤ g.blockSize
      · rw [if_neg (not_lt.mpr hfits)]
        have hr : TagRead g data dir₀ p tag x _ := ⟨h, htag, hvalid, hfits, rfl⟩
        by_cases hcrc : lfsTagType2 tag = lfsTypeCcrc
        · rw [if_pos hcrc]
          exact hr.crc hblock hcrc
        · rw [if_neg hcrc]
          exact hr.attr hblock hcrc
      · rw [if_pos (not_le.mp hfits)]
        exact .inr ⟨_, fun q hq => hfits (hat hq).fits, rfl, rfl, rfl⟩
    · rw [if_pos (by simpa using hvalid)]
      exact .inr ⟨_, fun q hq => hvalid (hat hq).valid, rfl, rfl, rfl⟩
  · have hbytes : contentReads g data g.blockSize x.dir.pair.1 p.off 4 = _ :=
      contentReads_error (by omega)
    rw [fetchTag, scanTag]
    dsimp only
    rw [h.off_eq, hbytes]
    refine .inr ⟨_, ?_, rfl, rfl, rfl⟩
    intro q hq
    have hoff := hq.off_lt
    omega

/-- The tag loop of a fetch, on the content. -/
def fetchScan (g : LfsGeometry) (data : ℕ → ℕ → UInt8) (fuel : ℕ) (x : TagScan) :
    Id (TagScan × ScanStep) :=
  scanLoop g (contentReads g data) 0xffffffff 0xffffffff (fun _ _ _ => (pure 0 : Id ℤ)) fuel x

/-- One round and the rest. -/
theorem fetchScan_succ (fuel : ℕ) (x : TagScan) :
    fetchScan g data (fuel + 1) x =
      if (fetchTag g data x).2 = .next then fetchScan g data fuel (fetchTag g data x).1
      else fetchTag g data x := rfl

/-- What a scan leaves: no commit, or the last one. -/
def Found (g : LfsGeometry) (data : ℕ → UInt8) (dir : LfsMdir) : Prop :=
  if dir.off = 0 then ∀ p, ¬ Committed g data p else LastCommit g data dir

/-- When nothing more is accepted, what was scanned is what is found. -/
theorem Scanned.found {mem : ℕ → UInt8} (h : Scanned g mem dir₀ p x)
    (hstuck : ∀ q, ¬ Accepts g mem p q) : Found g mem x.dir := by
  have hlast : ∀ q, Committed g mem q → q.off ≤ x.dir.off :=
    fun q hq => h.start_eq ▸ h.logged.committed_le hstuck hq
  by_cases hoff : x.dir.off = 0
  · rw [Found, if_pos hoff]
    intro q hq
    have hle := hlast q hq
    have hbounds := hq.1.bounds
    omega
  · rw [Found, if_neg hoff]
    exact ⟨h.commit hoff, hlast⟩

/-- The scan comes to the end of the block. -/
theorem Scanned.run {fuel : ℕ} (h : Scanned g (data dir₀.pair.1) dir₀ p x)
    (hblock : dir₀.pair.1 < g.blockCount) (hfuel : g.blockSize < p.off + 4 * fuel) :
    ∃ z, fetchScan g data fuel x = pure (z, .stop) ∧ z.dir.pair = dir₀.pair ∧
      z.dir.rev = dir₀.rev ∧ z.besttag = 0xffffffff ∧ Found g (data dir₀.pair.1) z.dir := by
  induction fuel generalizing p x with
  | zero =>
      have hbounds := h.logged.bounds
      omega
  | succ fuel ih =>
      have hplace := h.place
      rw [← hplace.1] at h hblock
      have hstep := h.step hblock
      rw [hplace.1] at h hblock
      rw [ScanEnds, hplace.1] at hstep
      rw [fetchScan_succ]
      rcases hstep with ⟨q, y, hpq, hy, hscan⟩ | ⟨y, hstuck, hy, hdir, hbest⟩
      · have hoff := hpq.off_lt
        rw [hy]
        exact ih hscan (by omega)
      · rw [hy]
        refine ⟨y, rfl, ?_, ?_, ?_, ?_⟩
        · rw [hdir]
          exact hplace.1
        · rw [hdir]
          exact hplace.2
        · rw [hbest]
          exact h.best.2
        · rw [hdir]
          exact h.found hstuck

end Scan

/-! ### The fetch -/

section Fetch

variable {data : ℕ → ℕ → UInt8} {mem : ℕ → UInt8} {dir : LfsMdir} {x : TagScan}

/-- The revision count at the start of a block. -/
def revision (mem : ℕ → UInt8) : UInt32 := lfsFromle32 (slice mem 0 4)

/-- The start of the loop. -/
theorem scanned_start (hoff : dir.off = 0) (hrev : dir.rev = revision (data dir.pair.1))
    (seed : UInt32) :
    Scanned g (data dir.pair.1) dir LogPos.first (scanStart dir 0xffffffff seed) where
  logged := .refl
  off_eq := by
    show 0 + lfsTagDsize 0xffffffff = 4
    decide
  ptag_eq := rfl
  crc_eq := by
    show lfsCrc 0xffffffff (lfsTole32 dir.rev) = lfsCrc 0xffffffff (slice (data dir.pair.1) 0 4)
    rw [hrev, revision, lfsTole32_fromle32 (length_slice _ _ _)]
  state_eq := rfl
  best := ⟨rfl, rfl⟩
  place := ⟨rfl, rfl⟩
  start_eq := hoff.symm
  commit := fun h => absurd hoff h

variable (data dir) in
/-- The tag loop ends with what there is to find in its block. -/
theorem fetchBlock_finds (hblock : dir.pair.1 < g.blockCount) (hoff : dir.off = 0)
    (hrev : dir.rev = revision (data dir.pair.1)) {besttag : LfsTag}
    (hbest : besttag = 0xffffffff) (seed : UInt32) :
    ∃ z, fetchBlock g (contentReads g data) 0xffffffff 0xffffffff
        (fun _ _ _ => (pure 0 : Id ℤ)) dir besttag seed = pure (z, .stop) ∧
      z.dir.pair = dir.pair ∧ z.dir.rev = dir.rev ∧ z.besttag = 0xffffffff ∧
      Found g (data dir.pair.1) z.dir := by
  rw [hbest]
  refine (scanned_start hoff hrev seed).run hblock ?_
  show g.blockSize < 4 + 4 * (g.blockSize / 4 + 1)
  omega

variable (data) in
/-- A CRC of the content ends. -/
theorem bdCrcLoop_ends (hint block off : ℕ) {fuel i size : ℕ} (hfuel : size < fuel)
    (crc : UInt32) :
    ∃ crc', bdCrcLoop (contentReads g data) hint block off fuel i size crc = (.ok (), crc') ∨
      bdCrcLoop (contentReads g data) hint block off fuel i size crc
        = (.error (.err lfsErrCorrupt), crc') := by
  induction fuel generalizing i size crc with
  | zero => omega
  | succ fuel ih =>
      rw [bdCrcLoop]
      by_cases hsize : size = 0
      · rw [if_pos hsize]
        exact ⟨crc, .inl rfl⟩
      · rw [if_neg hsize]
        dsimp only
        by_cases hread : block ≥ g.blockCount ∨ off + i + min size 8 > g.blockSize
        · have hbytes : contentReads g data (u32 (hint - i)) block (off + i) (min size 8)
              = .error lfsErrCorrupt := if_pos hread
          rw [hbytes]
          exact ⟨crc, .inr rfl⟩
        · have hbytes : contentReads g data (u32 (hint - i)) block (off + i) (min size 8)
              = .ok (slice (data block) (off + i) (min size 8)) := if_neg hread
          rw [hbytes]
          exact ih (by omega) _

/-- A pending move does not change that no tag is looked for. -/
theorem moveBesttag_none (gdisk : LfsGstate) (pair : ℕ × ℕ) :
    moveBesttag gdisk pair 0xffffffff = 0xffffffff := by
  rw [moveBesttag]
  split
  · split
    · rfl
    · rw [if_neg fun h => h.1 rfl]
  · rfl

/-- What a fetch returns for a directory: more entries than there are ids is no error of its
own. -/
def fetchResult (count : UInt16) : Except LfsHalt ℤ :=
  if 0x3ff < count.toNat then .error (.err lfsErrNoent) else .ok 0

/-- The result of a fetch that looks for no tag. -/
theorem fetchDone_eq (hbest : x.besttag = 0xffffffff) (gdisk : LfsGstate) (erased : Bool) :
    fetchDone gdisk x erased
      = ⟨{ x.dir with erased := erased }, x.seed, min 0x3ff x.dir.count.toNat,
          fetchResult x.dir.count⟩ := by
  rw [fetchDone, hbest, moveBesttag_none]
  rfl

variable (data) in
/-- The end of a fetch changes whether the rest is erased, and nothing else. -/
theorem fetchEnd_finds (hbest : x.besttag = 0xffffffff) (gdisk : LfsGstate) :
    ∃ erased, fetchEnd g (contentReads g data) gdisk x
      = pure ⟨{ x.dir with erased := erased }, x.seed, min 0x3ff x.dir.count.toNat,
          fetchResult x.dir.count⟩ := by
  obtain ⟨erased, hcheck⟩ : ∃ erased, checkErased g (contentReads g data) x
      = pure (erased, .ok ()) := by
    rw [checkErased]
    split
    · obtain ⟨crc, hsum | hsum⟩ := bdCrcLoop_ends (g := g) data g.blockSize
        x.dir.pair.1 x.dir.off (i := 0) (Nat.lt_succ_self x.fcrc.size.toNat) 0xffffffff
      · rw [bdCrc, hsum]
        exact ⟨_, rfl⟩
      · rw [bdCrc, hsum]
        exact ⟨_, rfl⟩
    · exact ⟨false, rfl⟩
  refine ⟨erased, ?_⟩
  rw [fetchEnd, hcheck, ← fetchDone_eq hbest]
  rfl

/-- The blocks of a pair in the order a fetch takes them. -/
def newerFirst (data : ℕ → ℕ → UInt8) (pair : ℕ × ℕ) : ℕ × ℕ :=
  if lfsScmp (revision (data pair.2)) (revision (data pair.1)) > 0 then pair.swap else pair

/-- The block holds no commit. -/
def NoCommit (g : LfsGeometry) (mem : ℕ → UInt8) : Prop := ∀ p, ¬ Committed g mem p

/-- The result of the fetch of a pair, given its blocks in order. -/
inductive Fetched (g : LfsGeometry) (data : ℕ → ℕ → UInt8) (order : ℕ × ℕ) (b : LfsFetched) : Prop
  | newer (hpair : b.dir.pair = order) (hdir : LastCommit g (data order.1) b.dir)
      (hrev : b.dir.rev = revision (data order.1)) (hres : b.res = fetchResult b.dir.count)
  | older (hnone : NoCommit g (data order.1)) (hpair : b.dir.pair = order.swap)
      (hdir : LastCommit g (data order.2) b.dir) (hrev : b.dir.rev = revision (data order.2))
      (hres : b.res = fetchResult b.dir.count)
  | corrupt (hnewer : NoCommit g (data order.1)) (holder : NoCommit g (data order.2))
      (hres : b.res = .error (.err lfsErrCorrupt))

/-- A block with a last commit holds one. -/
theorem LastCommit.not_noCommit (h : LastCommit g mem dir) : ¬ NoCommit g mem := by
  obtain ⟨tags, hcommit, -⟩ := h.found
  exact fun hnone => hnone _ hcommit

/-- The directory of a scan, found erased or not. -/
theorem LastCommit.erased (h : LastCommit g mem dir) (erased : Bool) :
    LastCommit g mem { dir with erased := erased } := ⟨h.found, h.last⟩

variable (dir) in
/-- From the block with the newer revision on, a fetch finds what there is. -/
theorem fetchOrdered_finds (h₁ : dir.pair.1 < g.blockCount) (h₂ : dir.pair.2 < g.blockCount)
    (hoff : dir.off = 0) (hrev : dir.rev = revision (data dir.pair.1)) (gdisk : LfsGstate)
    (seed : UInt32) :
    Fetched g data dir.pair (fetchOrdered g (contentReads g data) 0xffffffff 0xffffffff
      (fun _ _ _ => (pure 0 : Id ℤ)) gdisk dir (revision (data dir.pair.2)) seed) := by
  obtain ⟨x, hx, hpair, hrev', hbest, hfound⟩ := fetchBlock_finds data dir h₁ hoff hrev rfl seed
  rw [fetchOrdered, hx]
  show Fetched g data dir.pair (if x.dir.off ≠ 0 then _ else _)
  by_cases hcommit : x.dir.off = 0
  · rw [if_neg (not_not_intro hcommit)]
    rw [Found, if_pos hcommit] at hfound
    obtain ⟨y, hy, hpair₂, hrev₂, hbest₂, hfound₂⟩ := fetchBlock_finds data
      (x.dir.other (revision (data dir.pair.2))) (by rw [LfsMdir.other, hpair]; exact h₂) hcommit
      (by rw [LfsMdir.other, hpair]; rfl) hbest x.seed
    rw [hy]
    show Fetched g data dir.pair (if y.dir.off ≠ 0 then _ else _)
    rw [LfsMdir.other, hpair] at hpair₂ hfound₂
    by_cases hcommit₂ : y.dir.off = 0
    · rw [if_neg (not_not_intro hcommit₂)]
      rw [Found, if_pos hcommit₂] at hfound₂
      exact .corrupt hfound hfound₂ rfl
    · rw [if_pos hcommit₂]
      rw [Found, if_neg hcommit₂] at hfound₂
      obtain ⟨erased, hend⟩ := fetchEnd_finds (g := g) data hbest₂ gdisk
      rw [hend]
      exact .older hfound hpair₂ (hfound₂.erased erased) hrev₂ rfl
  · rw [if_pos hcommit]
    rw [Found, if_neg hcommit] at hfound
    obtain ⟨erased, hend⟩ := fetchEnd_finds (g := g) data hbest gdisk
    rw [hend]
    exact .newer hpair (hfound.erased erased) (hrev'.trans hrev) rfl

/-- The revision count is read from the content. -/
theorem readRev_content {block : ℕ} (h : block < g.blockCount) :
    readRev (contentReads g data) block = pure (.ok (some (revision (data block)))) := by
  have hblock := g.block_ge
  have hbytes : contentReads g data 4 block 0 4 = _ := contentReads_ok h (by omega)
  rw [readRev, hbytes]
  rfl

/-- **A fetch finds the last commit** of the newer block, or else of the other. -/
theorem fetch_finds {pair : ℕ × ℕ} (h₁ : pair.1 < g.blockCount) (h₂ : pair.2 < g.blockCount)
    (gdisk : LfsGstate) (dir : LfsMdir) (seed : UInt32) :
    Fetched g data (newerFirst data pair)
      (lfsDirFetch g (contentReads g data) gdisk dir pair seed) := by
  rw [lfsDirFetch, lfsDirFetchmatch, if_neg (by omega), readRev_content h₁, readRev_content h₂,
    newerFirst]
  show Fetched g data _ (if (decide (lfsScmp (revision (data pair.2)) (revision (data pair.1)) > 0)
    : Bool) then _ else _)
  by_cases hnewer : lfsScmp (revision (data pair.2)) (revision (data pair.1)) > 0
  · rw [if_pos hnewer, if_pos (decide_eq_true hnewer)]
    exact fetchOrdered_finds { dir with
      pair := pair.swap, rev := revision (data pair.2), off := 0 } h₂ h₁ rfl rfl gdisk seed
  · rw [if_neg hnewer, if_neg (by rw [decide_eq_false hnewer]; exact Bool.false_ne_true)]
    exact fetchOrdered_finds { dir with
      pair := pair, rev := revision (data pair.1), off := 0 } h₁ h₂ rfl rfl gdisk seed

end Fetch

end Num487Boot
