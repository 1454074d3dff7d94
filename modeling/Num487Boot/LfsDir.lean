import Num487Boot.LfsLogs
import Num487Boot.LfsTag

/-!
# Metadata Pairs

`lfs_dir_fetchmatch` and `lfs_dir_getslice` of `lfs.c`. A directory is a log of tags in one of a
pair of blocks, cut into commits that end in a CRC; a fetch finds the block with the newer
revision and scans its commits, a get searches them backwards for an attribute.

Both only read, past the program cache. They are written for any monad `m` with the reads as a
parameter, so that the same functions run on the caching layer (`bdReads`) and on the content of
the blocks alone (`contentReads`, in `Id`). Their loops run on fuel for as many tags as a block
holds; running out is `LfsHalt.endless`. The `lfs_bd_crc` of the scan is written so as well, and
is that of the caching layer (`lfsBdCrc_eq_bdCrc`).
-/

namespace Num487Boot

open Exec Memory

/-! ### Pairs and the global state -/

/-- `lfs_pair_cmp` -/
def lfsPairCmp (a b : ℕ × ℕ) : Bool := !(a.1 == b.1 || a.2 == b.2 || a.1 == b.2 || a.2 == b.1)

/-- `lfs_gstate_t` -/
structure LfsGstate where
  tag : LfsTag
  pair : ℕ × ℕ
  deriving DecidableEq

/-- `lfs_gstate_hasmovehere` -/
def lfsGstateHasmovehere (a : LfsGstate) (pair : ℕ × ℕ) : Bool :=
  lfsTagType1 a.tag ≠ 0 && !lfsPairCmp a.pair pair

/-- `lfs_scmp` -/
def lfsScmp (a b : UInt32) : Int32 := (a - b).toInt32

/-- `lfs_mdir_t` -/
structure LfsMdir where
  pair : ℕ × ℕ
  rev : UInt32
  off : ℕ
  etag : LfsTag
  count : UInt16
  erased : Bool
  split : Bool
  tail : ℕ × ℕ
  deriving DecidableEq

/-- `// try the other block?` -/
def LfsMdir.other (dir : LfsMdir) (rev : UInt32) : LfsMdir :=
  { dir with pair := dir.pair.swap, rev := rev }

/-- `struct lfs_fcrc` -/
structure LfsFcrc where
  size : UInt32
  crc : UInt32
  deriving DecidableEq

/-! ### Reads -/

/-- `lfs_bd_read` without the program cache, of `size` bytes from `off` on of a block. -/
abbrev Reads (m : Type → Type) := (hint block off size : ℕ) → m (Except ℤ (List UInt8))

/-- Reads through the caches. -/
def bdReads {δ : Type} (c : LfsSetup δ) : Reads (LfsProg (LfsBd δ)) := fun hint block off size =>
  reported (lfsBdRead c none hint block off size)

/-- The reads of blocks with the given content. -/
def contentReads (g : LfsGeometry) (data : ℕ → ℕ → UInt8) : Reads Id := fun _ block off size =>
  if block ≥ g.blockCount ∨ off + size > g.blockSize then .error lfsErrCorrupt
  else .ok (slice (data block) off size)

section Programs

variable (g : LfsGeometry) {m : Type → Type} [Monad m] (read : Reads m)

/-- The loop of `lfs_bd_crc` from byte `i` on. It leaves in `*crc` what it has summed up when it
fails. -/
def bdCrcLoop (hint block off : ℕ) : ℕ → ℕ → ℕ → UInt32 → m (Except LfsHalt Unit × UInt32)
  | 0, _, _, crc => pure (.error .endless, crc)
  | fuel + 1, i, size, crc =>
      if size = 0 then pure (.ok (), crc)
      else do
        let diff := min size 8
        match ← read (u32 (hint - i)) block (off + i) diff with
        | .error err => pure (.error (.err err), crc)
        | .ok dat => bdCrcLoop hint block off fuel (i + diff) (size - diff) (lfsCrc crc dat)

/-- `lfs_bd_crc` with what it leaves in `*crc`, which a caller that goes on after a failure
goes on with. -/
def bdCrc (hint block off size : ℕ) (crc : UInt32) : m (Except LfsHalt Unit × UInt32) :=
  bdCrcLoop read hint block off (size + 1) 0 size crc

/-- The sum, or the failure as the end of the run. -/
def orHalt {σ : Type} (r : Except LfsHalt Unit × UInt32) : LfsProg σ UInt32 :=
  match r.1 with
  | .ok _ => pure r.2
  | .error halt => throw halt

/-- Under the reads through the caches, the loop of `lfs_bd_crc` is the one on any device. -/
theorem lfsBdCrcLoop_eq {δ : Type} (c : LfsSetup δ) (hint block off fuel i size : ℕ)
    (crc : UInt32) :
    lfsBdCrcLoop c none hint block off fuel i size crc =
      bdCrcLoop (bdReads c) hint block off fuel i size crc >>= orHalt := by
  induction fuel generalizing i size crc with
  | zero => rfl
  | succ fuel ih =>
      rw [lfsBdCrcLoop, bdCrcLoop]
      by_cases hsize : size = 0
      · rw [if_pos hsize, if_pos hsize]
        rfl
      · rw [if_neg hsize, if_neg hsize]
        dsimp only
        funext s
        cases hread : lfsBdRead c none (u32 (hint - i)) block (off + i) (min size 8) s with
        | ok dat t =>
            rw [bind_of_ok hread, bind_assoc, bdReads, bind_of_ok (reported_ok hread)]
            exact congrFun (ih _ _ _) t
        | error halt t =>
            rw [bind_of_error hread, bind_assoc, bdReads]
            cases halt with
            | err code => rw [bind_of_ok (reported_error hread)]; rfl
            | assert | endless =>
                refine (bind_of_error ?_).symm
                rw [reported, hread]

/-- The two readings of `lfs_bd_crc` agree: the one of the caching layer is the other one, with a
failure as the end of the run. -/
theorem lfsBdCrc_eq_bdCrc {δ : Type} (c : LfsSetup δ) (hint block off size : ℕ) (crc : UInt32) :
    lfsBdCrc c none hint block off size crc =
      bdCrc (bdReads c) hint block off size crc >>= orHalt :=
  lfsBdCrcLoop_eq c hint block off (size + 1) 0 size crc

/-! ### Fetching -/

/-- How an iteration of the scan ends: with the next tag, with the end of the block's commits, or
with the end of the fetch. -/
inductive ScanStep
  | next
  | stop
  | ret (halt : LfsHalt)
  deriving DecidableEq

/-- `if (err == LFS_ERR_CORRUPT) break; return err;` -/
def ScanStep.ofHalt (halt : LfsHalt) : ScanStep :=
  if halt = .err lfsErrCorrupt then .stop else .ret halt

/-- The variables of the scan, with `dir`, `besttag` and `lfs->seed`, which it updates at the end
of each commit. -/
structure TagScan where
  off : ℕ
  ptag : LfsTag
  crc : UInt32
  tempcount : UInt16
  temptail : ℕ × ℕ
  tempsplit : Bool
  tempbesttag : LfsTag
  maybeerased : Bool
  hasfcrc : Bool
  fcrc : LfsFcrc
  besttag : LfsTag
  dir : LfsMdir
  seed : UInt32
  deriving DecidableEq

/-- What is found so far counts, and the next commit begins. -/
def TagScan.commit (tag : LfsTag) (x : TagScan) : TagScan :=
  -- reset the next bit if we need to
  let ptag := x.ptag ^^^ ((lfsTagChunk tag).toUInt32 &&& 1) <<< 31
  { x with
    ptag := ptag
    seed := lfsCrc x.seed (lfsTole32 x.crc)
    besttag := x.tempbesttag
    dir := { x.dir with
      off := x.off + lfsTagDsize tag
      etag := ptag
      count := x.tempcount
      tail := x.temptail
      split := x.tempsplit }
    crc := 0xffffffff }

/-- The check of a CRC tag. -/
def scanCrc (tag : LfsTag) (x : TagScan) : m (TagScan × ScanStep) := do
  match ← read g.blockSize x.dir.pair.1 (x.off + 4) 4 with
  | .error err => pure (x, .ofHalt (.err err))
  | .ok bytes =>
      if x.crc ≠ lfsFromle32 bytes then pure (x, .stop) else pure (x.commit tag, .next)

/-- What a splice makes of the best match so far. -/
def spliceBesttag (tag besttag : LfsTag) : LfsTag :=
  if tag = lfsMktag lfsTypeDelete 0 0 ||| (lfsMktag 0 0x3ff 0 &&& besttag) then
    besttag ||| 0x80000000
  else if besttag ≠ 0xffffffff ∧ lfsTagId tag ≤ lfsTagId besttag then
    besttag + lfsMktag 0 (lfsTagSplice tag).toInt32.toUInt32 0
  else besttag

/-- Directory modification tags. -/
def scanModify (tag : LfsTag) (x : TagScan) : m (TagScan × ScanStep) :=
  if lfsTagType1 tag = lfsTypeName then
    if (lfsTagId tag).toUInt16 ≥ x.tempcount then
      pure ({ x with tempcount := (lfsTagId tag).toUInt16 + 1 }, .next)
    else pure (x, .next)
  else if lfsTagType1 tag = lfsTypeSplice then
    pure ({ x with
      tempcount := x.tempcount + (lfsTagSplice tag).toInt16.toUInt16
      tempbesttag := spliceBesttag tag x.tempbesttag }, .next)
  else if lfsTagType1 tag = lfsTypeTail then do
    let x := { x with tempsplit := lfsTagChunk tag &&& 1 ≠ 0 }
    match ← read g.blockSize x.dir.pair.1 (x.off + 4) 8 with
    | .error err => pure (x, .ofHalt (.err err))
    | .ok bytes =>
        pure ({ x with temptail :=
          ((lfsFromle32 (bytes.take 4)).toNat, (lfsFromle32 (bytes.drop 4)).toNat) }, .next)
  else if lfsTagType3 tag = lfsTypeFcrc then do
    match ← read g.blockSize x.dir.pair.1 (x.off + 4) 8 with
    | .error err =>
        -- the source returns no error here: `fcrc` stays as it was
        if err = lfsErrCorrupt then pure (x, .stop) else pure ({ x with hasfcrc := true }, .next)
    | .ok bytes =>
        pure ({ x with
          fcrc := ⟨lfsFromle32 (bytes.take 4), lfsFromle32 (bytes.drop 4)⟩
          hasfcrc := true }, .next)
  else pure (x, .next)

/-- `LFS_CMP_EQ` -/
def lfsCmpEq : ℤ := 0

/-- `LFS_CMP_GT` -/
def lfsCmpGt : ℤ := 2

/-- What the answer of the fetcher makes of the best match. -/
def matchBesttag (tag besttag : LfsTag) (res : ℤ) : LfsTag :=
  if res = lfsCmpEq then tag
  else if lfsMktag 0x7ff 0x3ff 0 &&& tag = lfsMktag 0x7ff 0x3ff 0 &&& besttag then 0xffffffff
  else if res = lfsCmpGt ∧ lfsTagId tag ≤ lfsTagId besttag then tag ||| 0x80000000
  else besttag

variable (fmask ftag : LfsTag) (cb : LfsTag → ℕ → ℕ → m ℤ)

/-- Found a match for our fetcher? -/
def scanMatch (tag : LfsTag) (x : TagScan) : m (TagScan × ScanStep) :=
  if fmask &&& tag = fmask &&& ftag then do
    let res ← cb tag x.dir.pair.1 (x.off + 4)
    if res < 0 then pure (x, .ofHalt (.err res))
    else pure ({ x with tempbesttag := matchBesttag tag x.tempbesttag res }, .next)
  else pure (x, .next)

/-- A tag that is not a CRC: its data goes into the CRC, then the directory is modified. -/
def scanAttr (tag : LfsTag) (x : TagScan) : m (TagScan × ScanStep) := do
  let (res, crc) ←
    bdCrc read g.blockSize x.dir.pair.1 (x.off + 4) (lfsTagDsize tag - 4) x.crc
  let x := { x with hasfcrc := false, crc := crc }
  match res with
  | .error halt => pure (x, .ofHalt halt)
  | .ok _ => do
      let (x, step) ← scanModify g read tag x
      if step = .next then scanMatch fmask ftag cb tag x else pure (x, step)

/-- An iteration of the scan. -/
def scanTag (x : TagScan) : m (TagScan × ScanStep) := do
  let off := x.off + lfsTagDsize x.ptag
  match ← read g.blockSize x.dir.pair.1 off 4 with
  | .error err => pure ({ x with off := off }, .ofHalt (.err err))
  | .ok word =>
      let tag := lfsFrombe32 word ^^^ x.ptag
      let x := { x with off := off, crc := lfsCrc x.crc word }
      if !lfsTagIsvalid tag then pure ({ x with maybeerased := true }, .stop)
      else if off + lfsTagDsize tag > g.blockSize then pure (x, .stop)
      else
        let x := { x with ptag := tag }
        if lfsTagType2 tag = lfsTypeCcrc then scanCrc g read tag x
        else scanAttr g read fmask ftag cb tag x

/-- The tag loop of `lfs_dir_fetchmatch`. -/
def scanLoop : ℕ → TagScan → m (TagScan × ScanStep)
  | 0, x => pure (x, .ret .endless)
  | fuel + 1, x => do
      let (x, step) ← scanTag g read fmask ftag cb x
      if step = .next then scanLoop fuel x else pure (x, step)

/-- The scan of the first block of a pair. -/
def scanStart (dir : LfsMdir) (besttag : LfsTag) (seed : UInt32) : TagScan where
  off := 0
  ptag := 0xffffffff
  crc := lfsCrc 0xffffffff (lfsTole32 dir.rev)
  tempcount := 0
  temptail := (lfsBlockNull, lfsBlockNull)
  tempsplit := false
  tempbesttag := besttag
  maybeerased := false
  hasfcrc := false
  fcrc := ⟨0, 0⟩
  besttag := besttag
  dir := dir
  seed := seed

/-- What a fetch leaves: the directory, `lfs->seed` and `*id`, with the tag it returns, `0` or an
error. -/
structure LfsFetched where
  dir : LfsMdir
  seed : UInt32
  id : ℕ
  res : Except LfsHalt ℤ

/-- The best match after a synthetic move. -/
def moveBesttag (gdisk : LfsGstate) (pair : ℕ × ℕ) (besttag : LfsTag) : LfsTag :=
  if lfsGstateHasmovehere gdisk pair then
    if lfsTagId gdisk.tag = lfsTagId besttag then besttag ||| 0x80000000
    else if besttag ≠ 0xffffffff ∧ lfsTagId gdisk.tag < lfsTagId besttag then
      besttag - lfsMktag 0 1 0
    else besttag
  else besttag

/-- Whether the rest of the block is erased, after a fetch that found commits. -/
def checkErased (x : TagScan) : m (Bool × Except LfsHalt Unit) :=
  if x.maybeerased && x.hasfcrc && x.dir.off % g.progSize == 0 then do
    let (res, crc) ← bdCrc read g.blockSize x.dir.pair.1 x.dir.off x.fcrc.size.toNat 0xffffffff
    pure (crc == x.fcrc.crc, if res = .error (.err lfsErrCorrupt) then .ok () else res)
  else pure (false, .ok ())

/-- What is returned when a commit was found. -/
def fetchDone (gdisk : LfsGstate) (x : TagScan) (erased : Bool) : LfsFetched :=
  let besttag := moveBesttag gdisk x.dir.pair x.besttag
  ⟨{ x.dir with erased := erased }, x.seed, min (lfsTagId besttag).toNat x.dir.count.toNat,
    if lfsTagIsvalid besttag then .ok besttag.toNat
    else if (lfsTagId besttag).toNat < x.dir.count.toNat then .error (.err lfsErrNoent)
    else .ok 0⟩

/-- The end of `lfs_dir_fetchmatch`: whether the rest of the block is erased. -/
def fetchEnd (gdisk : LfsGstate) (x : TagScan) : m LfsFetched := do
  let (erased, res) ← checkErased g read x
  match res with
  | .error halt => pure ⟨{ x.dir with erased := false }, x.seed, 0, .error halt⟩
  | .ok _ => pure (fetchDone gdisk x erased)

/-- The revision in the first word of a block, unless it cannot be read. -/
def readRev (block : ℕ) : m (Except LfsHalt (Option UInt32)) := do
  match ← read 4 block 0 4 with
  | .error err => pure (if err = lfsErrCorrupt then .ok none else .error (.err err))
  | .ok bytes => pure (.ok (some (lfsFromle32 bytes)))

/-- One round of `lfs_dir_fetchmatch` over the two blocks. -/
def fetchBlock (dir : LfsMdir) (besttag : LfsTag) (seed : UInt32) : m (TagScan × ScanStep) :=
  scanLoop g read fmask ftag cb (g.blockSize / 4 + 1) (scanStart dir besttag seed)

/-- The fetch once the pair is in order: the first block, or else the second. -/
def fetchOrdered (gdisk : LfsGstate) (dir : LfsMdir) (rev₂ seed : UInt32) : m LfsFetched := do
  let (x, step) ← fetchBlock g read fmask ftag cb dir 0xffffffff seed
  match step with
  | .ret halt => pure ⟨x.dir, x.seed, 0, .error halt⟩
  | _ =>
      if x.dir.off ≠ 0 then fetchEnd g read gdisk x
      else do
        let (y, step) ← fetchBlock g read fmask ftag cb (x.dir.other rev₂) x.besttag x.seed
        match step with
        | .ret halt => pure ⟨y.dir, y.seed, 0, .error halt⟩
        | _ =>
            if y.dir.off ≠ 0 then fetchEnd g read gdisk y
            else pure ⟨y.dir.other rev₂, y.seed, 0, .error (.err lfsErrCorrupt)⟩

/-- `lfs_dir_fetchmatch` -/
def lfsDirFetchmatch (gdisk : LfsGstate) (dir : LfsMdir) (pair : ℕ × ℕ) (seed : UInt32) :
    m LfsFetched := do
  if pair.1 ≥ g.blockCount ∨ pair.2 ≥ g.blockCount then
    pure ⟨dir, seed, 0, .error (.err lfsErrCorrupt)⟩
  else do
    match ← readRev read pair.1 with
    | .error halt => pure ⟨dir, seed, 0, .error halt⟩
    | .ok rev₀ => do
        match ← readRev read pair.2 with
        | .error halt => pure ⟨dir, seed, 0, .error halt⟩
        | .ok rev₁ =>
            if rev₁.any fun rev => lfsScmp rev (rev₀.getD 0) > 0 then
              fetchOrdered g read fmask ftag cb gdisk
                { dir with pair := pair.swap, rev := rev₁.getD 0, off := 0 } (rev₀.getD 0) seed
            else
              fetchOrdered g read fmask ftag cb gdisk
                { dir with pair := pair, rev := rev₀.getD 0, off := 0 } (rev₁.getD 0) seed

/-- With these arguments no tag can match. -/
def lfsDirFetch (gdisk : LfsGstate) (dir : LfsMdir) (pair : ℕ × ℕ) (seed : UInt32) :
    m LfsFetched :=
  lfsDirFetchmatch g read 0xffffffff 0xffffffff (fun _ _ _ => pure 0) gdisk dir pair seed

/-! ### Getting -/

/-- A match is delivered, filled up with zeros, unless it is a delete. -/
def getMatch (dir : LfsMdir) (goff gsize off : ℕ) (tag gdiff : LfsTag) :
    m (Except LfsHalt (LfsTag × List UInt8)) :=
  if lfsTagIsdelete tag then pure (.error (.err lfsErrNoent))
  else do
    let diff := min (lfsTagSize tag).toNat gsize
    match ← read diff dir.pair.1 (off + 4 + goff) diff with
    | .error err => pure (.error (.err err))
    | .ok bytes => pure (.ok (tag + gdiff, bytes ++ .replicate (gsize - diff) 0))

/-- The loop of `lfs_dir_getslice`, backwards over the tags. -/
def getLoop (dir : LfsMdir) (gmask gtag : LfsTag) (goff gsize : ℕ) :
    ℕ → ℕ → LfsTag → LfsTag → m (Except LfsHalt (LfsTag × List UInt8))
  | 0, _, _, _ => pure (.error .endless)
  | fuel + 1, off, tag, gdiff =>
      if off < 4 + lfsTagDsize tag then pure (.error (.err lfsErrNoent))
      else do
        let off := off - lfsTagDsize tag
        match ← read 4 dir.pair.1 off 4 with
        | .error err => pure (.error (.err err))
        | .ok word =>
            let ntag := (lfsFrombe32 word ^^^ tag) &&& 0x7fffffff
            let splice := lfsTagId gmask ≠ 0 ∧ lfsTagType1 tag = lfsTypeSplice ∧
              lfsTagId tag ≤ lfsTagId (gtag - gdiff)
            -- found where we were created
            if splice ∧ tag = lfsMktag lfsTypeCreate 0 0 |||
                (lfsMktag 0 0x3ff 0 &&& (gtag - gdiff)) then
              pure (.error (.err lfsErrNoent))
            else
              -- move around splices
              let gdiff := if splice then gdiff + lfsMktag 0 (lfsTagSplice tag).toInt32.toUInt32 0
                else gdiff
              if gmask &&& tag = gmask &&& (gtag - gdiff) then
                getMatch read dir goff gsize off tag gdiff
              else getLoop dir gmask gtag goff gsize fuel off ntag gdiff

/-- `lfs_dir_getslice` -/
def lfsDirGetslice (gdisk : LfsGstate) (dir : LfsMdir) (gmask gtag : LfsTag)
    (goff gsize : ℕ) : m (Except LfsHalt (LfsTag × List UInt8)) :=
  -- synthetic moves
  let gdiff := if lfsGstateHasmovehere gdisk dir.pair ∧ lfsTagId gmask ≠ 0 ∧
      lfsTagId gdisk.tag ≤ lfsTagId gtag then 0 - lfsMktag 0 1 0 else 0
  getLoop read dir gmask gtag goff gsize (g.blockSize / 4 + 1) dir.off dir.etag gdiff

/-- `lfs_dir_get` -/
def lfsDirGet (gdisk : LfsGstate) (dir : LfsMdir) (gmask gtag : LfsTag) :
    m (Except LfsHalt (LfsTag × List UInt8)) :=
  lfsDirGetslice g read gdisk dir gmask gtag 0 (lfsTagSize gtag).toNat

end Programs

end Num487Boot
