import Mathlib.Data.List.ReduceOption
import Num487Boot.LfsDirGet
import Num487Boot.Lib.Simulation

/-!
# Reading a Directory

A directory is spread over a list of metadata pairs, each a log of its own, and a reader goes
through the ids of one pair after the other. Ids without a name or without content are passed
over: the superblock, and what is created or deleted by halves.

A pair that continues a directory is not empty (`Lists`): a read does not look at the count of
a pair it has just fetched.

## Main results

* `Readable.getinfo`: what `lfs_dir_getinfo` says of an id is what a replay of the log has.
* `lfsDir_cursor`: over any run of reads, tells and rewinds, a directory is a cursor over its
  listing.
-/

namespace Num487Boot

open Exec Memory Relation EditLog Runs

/-- `LFS_TYPE_DIR` -/
def lfsTypeDir : UInt32 := 0x002
/-- `LFS_TYPE_STRUCT` -/
def lfsTypeStruct : UInt32 := 0x200
/-- `LFS_TYPE_INLINESTRUCT` -/
def lfsTypeInlinestruct : UInt32 := 0x201
/-- `LFS_TYPE_CTZSTRUCT` -/
def lfsTypeCtzstruct : UInt32 := 0x202

/-- `struct lfs_info` -/
structure LfsInfo where
  type : UInt8
  size : UInt32
  name : List UInt8
  deriving DecidableEq

/-- `memset(info, 0, sizeof(*info))` -/
def LfsInfo.cleared : LfsInfo := ⟨0, 0, .replicate 256 0⟩

/-- `info->type` is set, and bytes are written to the front of `info->name`. -/
def LfsInfo.setName (info : LfsInfo) (type : UInt32) (bytes : List UInt8) : LfsInfo :=
  { info with type := type.toUInt8, name := bytes ++ info.name.drop bytes.length }

/-- `lfs_dir_t` -/
structure LfsOpenDir where
  id : UInt16
  m : LfsMdir
  pos : ℕ
  head : ℕ × ℕ

/-- What a read of a directory leaves: the directory, `lfs->seed`, `*info` and its result. -/
structure LfsDirRead where
  dir : LfsOpenDir
  seed : UInt32
  info : LfsInfo
  res : Except LfsHalt ℤ

section Programs

variable (g : LfsGeometry) {m : Type → Type} [Monad m] (read : Reads m) (gdisk : LfsGstate)
  (nameMax : ℕ)

/-- The tag of the name of an id. -/
def nameTag (id : UInt16) : LfsTag := lfsMktag lfsTypeName id.toUInt32 (.ofNat (nameMax + 1))

/-- The tag of what an id's file consists of. -/
def structTag (id : UInt16) : LfsTag := lfsMktag lfsTypeStruct id.toUInt32 8

/-- `lfs_dir_getinfo` -/
def lfsDirGetinfo (dir : LfsMdir) (id : UInt16) (info : LfsInfo) :
    m (LfsInfo × Except LfsHalt Unit) :=
  if id = 0x3ff then pure (info.setName lfsTypeDir [0x2F, 0], .ok ())
  else do
    match ← lfsDirGet g read gdisk dir (lfsMktag 0x780 0x3ff 0) (nameTag nameMax id) with
    | .error halt => pure (info, .error halt)
    | .ok (tag, name) => do
        let info := info.setName (lfsTagType3 tag) name
        match ← lfsDirGet g read gdisk dir (lfsMktag 0x700 0x3ff 0) (structTag id) with
        | .error halt => pure (info, .error halt)
        | .ok (tag, ctz) =>
            if lfsTagType3 tag = lfsTypeCtzstruct then
              pure ({ info with size := lfsFromle32 (ctz.drop 4) }, .ok ())
            else if lfsTagType3 tag = lfsTypeInlinestruct then
              pure ({ info with size := lfsTagSize tag }, .ok ())
            else pure (info, .ok ())

/-- The entry `dir->id`, or else `rest`. -/
def readEntry (rest : LfsOpenDir → LfsInfo → m LfsDirRead) (dir : LfsOpenDir) (seed : UInt32)
    (info : LfsInfo) : m LfsDirRead := do
  let (info, err) ← lfsDirGetinfo g read gdisk nameMax dir.m dir.id info
  let next := { dir with id := dir.id + 1 }
  match err with
  | .error halt =>
      if halt = .err lfsErrNoent then rest next info
      else pure ⟨dir, seed, info, .error halt⟩
  | .ok _ => pure ⟨{ next with pos := u32 (dir.pos + 1) }, seed, info, .ok 1⟩

/-- The loop of `lfs_dir_rawread`. -/
def rawreadLoop : ℕ → LfsOpenDir → UInt32 → LfsInfo → m LfsDirRead
  | 0, dir, seed, info => pure ⟨dir, seed, info, .error .endless⟩
  | fuel + 1, dir, seed, info =>
      if dir.id = dir.m.count then
        if !dir.m.split then pure ⟨dir, seed, info, .ok 0⟩
        else do
          let b ← lfsDirFetch g read gdisk dir.m dir.m.tail seed
          -- the count of the pair is not looked at before its first entry
          if b.res = .ok 0 then
            readEntry g read gdisk nameMax (fun dir info => rawreadLoop fuel dir b.seed info)
              { dir with m := b.dir, id := 0 } b.seed info
          else pure ⟨{ dir with m := b.dir }, b.seed, info, b.res⟩
      else
        readEntry g read gdisk nameMax (fun dir info => rawreadLoop fuel dir seed info) dir seed
          info

/-- The fuel bounds the entries that are looked at in a call. -/
def lfsDirRawread (fuel : ℕ) (dir : LfsOpenDir) (seed : UInt32) : m LfsDirRead :=
  if dir.pos = 0 then
    pure ⟨{ dir with pos := u32 (dir.pos + 1) }, seed,
      .setName .cleared lfsTypeDir [0x2E, 0], .ok 1⟩
  else if dir.pos = 1 then
    pure ⟨{ dir with pos := u32 (dir.pos + 1) }, seed,
      .setName .cleared lfsTypeDir [0x2E, 0x2E, 0], .ok 1⟩
  else rawreadLoop g read gdisk nameMax fuel dir seed .cleared

/-- `lfs_dir_rawtell` -/
def lfsDirRawtell (dir : LfsOpenDir) : ℕ := dir.pos

/-- `lfs_dir_rawrewind` -/
def lfsDirRawrewind (dir : LfsOpenDir) (seed : UInt32) :
    m (LfsOpenDir × UInt32 × Except LfsHalt ℤ) := do
  let b ← lfsDirFetch g read gdisk dir.m dir.head seed
  if b.res = .ok 0 then pure ({ dir with m := b.dir, id := 0, pos := 0 }, b.seed, .ok 0)
  else pure ({ dir with m := b.dir }, b.seed, b.res)

/-- The calls on an open directory. -/
inductive DirOp
  | read
  | tell
  | rewind

/-- What they return. -/
inductive DirAnswer
  | entry (info : Option LfsInfo)
  | pos (pos : ℕ)
  | done
  deriving DecidableEq

/-- The function of a call. -/
def DirOp.call (fuel : ℕ) (dir : LfsOpenDir) (seed : UInt32) :
    DirOp → m (LfsOpenDir × UInt32 × Except LfsHalt DirAnswer)
  | .read => do
      let r ← lfsDirRawread g read gdisk nameMax fuel dir seed
      pure (r.dir, r.seed, r.res.map fun res => .entry (if res = 1 then some r.info else none))
  | .tell => pure (dir, seed, .ok (.pos (lfsDirRawtell dir)))
  | .rewind => do
      let (dir, seed, res) ← lfsDirRawrewind g read gdisk dir seed
      pure (dir, seed, res.map fun _ => .done)

/-- Call after call; one that fails leaves the directory for the next. -/
def dirCalls (fuel : ℕ) :
    List DirOp → LfsOpenDir → UInt32 → m (List (Except LfsHalt DirAnswer) × LfsOpenDir)
  | [], dir, _ => pure ([], dir)
  | op :: ops, dir, seed => do
      let (dir, seed, answer) ← op.call g read gdisk nameMax fuel dir seed
      let (answers, dir) ← dirCalls fuel ops dir seed
      pure (answer :: answers, dir)

end Programs

/-! ### What a listing is -/

/-- The entry a replay of the log has for an id, unless it has no name or no content. -/
def entryOf (mem : ℕ → UInt8) (nameMax : ℕ) (edits : List (Edit (LfsTag × ℕ))) (id : UInt16) :
    Option LfsInfo :=
  match getResult mem (nameTag nameMax id) (nameMax + 1)
      ((history edits id.toNat).find? (typesMatch 0x780 (nameTag nameMax id))),
    getResult mem (structTag id) 8
      ((history edits id.toNat).find? (typesMatch 0x700 (structTag id))) with
  | .ok (tag, name), .ok (tag', ctz) => some {
      type := (lfsTagType3 tag).toUInt8
      size := if lfsTagType3 tag' = lfsTypeCtzstruct then lfsFromle32 (ctz.drop 4)
        else if lfsTagType3 tag' = lfsTypeInlinestruct then lfsTagSize tag'
        else 0
      name := name ++ .replicate (255 - nameMax) 0 }
  | _, _ => none

/-- A directory at the end of a commit, whose ids stay within ten bits. -/
structure Readable (g : LfsGeometry) (data : ℕ → ℕ → UInt8) (gdisk : LfsGstate) (dir : LfsMdir)
    (tags : List (LfsTag × ℕ)) : Prop where
  block : dir.pair.1 < g.blockCount
  committed : Committed g (data dir.pair.1) ⟨dir.off, dir.off, dir.etag, tags⟩
  splices : ∀ t ∈ tags, SpliceOk t.1
  count : dir.count.toNat ≤ 0x3ff
  ids : dir.count.toNat + deletions (gdisk.edits dir.pair tags) ≤ 1024

/-- The entries of one metadata pair, id by id. -/
def entries (data : ℕ → ℕ → UInt8) (gdisk : LfsGstate) (nameMax : ℕ) (dir : LfsMdir)
    (tags : List (LfsTag × ℕ)) : List (Option LfsInfo) :=
  (List.range dir.count.toNat).map fun id =>
    entryOf (data dir.pair.1) nameMax (gdisk.edits dir.pair tags) (.ofNat id)

/-- The entries of a directory, from a metadata pair of it on. A pair that continues another one
is not empty. -/
inductive Lists (g : LfsGeometry) (data : ℕ → ℕ → UInt8) (gdisk : LfsGstate) (nameMax : ℕ) :
    LfsMdir → List (Option LfsInfo) → Prop
  | last {dir : LfsMdir} {tags : List (LfsTag × ℕ)} (h : Readable g data gdisk dir tags)
      (hsplit : dir.split = false) :
      Lists g data gdisk nameMax dir (entries data gdisk nameMax dir tags)
  | split {dir : LfsMdir} {tags : List (LfsTag × ℕ)} {rest : List (Option LfsInfo)}
      (h : Readable g data gdisk dir tags) (hsplit : dir.split = true)
      (hfits : dir.tail.1 < g.blockCount ∧ dir.tail.2 < g.blockCount)
      (hfetch : ∀ b, Fetched g data (newerFirst data dir.tail) b → b.res = .ok 0 ∧ b.dir.count ≠ 0)
      (hnext : ∀ b, Fetched g data (newerFirst data dir.tail) b →
        Lists g data gdisk nameMax b.dir rest) :
      Lists g data gdisk nameMax dir (entries data gdisk nameMax dir tags ++ rest)

section Content

variable {g : LfsGeometry} {data : ℕ → ℕ → UInt8} {gdisk : LfsGstate} {nameMax : ℕ}
  {dir : LfsMdir} {tags : List (LfsTag × ℕ)} {info : LfsInfo} {id : UInt16}

/-- A get of an attribute finds what the replay has. -/
theorem Readable.get (h : Readable g data gdisk dir tags) (tmask type size : UInt32)
    (htype : type.toNat < 2 ^ 11) (hsize : size.toNat < 2 ^ 10) (hid : id.toNat < dir.count.toNat)
    (hattr : 0x700 &&& tmask = 0x700 ∧ type &&& 0x700 ≠ lfsTypeSplice ∧ type &&& 0x700 ≠ 0x500) :
    lfsDirGet g (contentReads g data) gdisk dir (lfsMktag tmask 0x3ff 0)
        (lfsMktag type id.toUInt32 size)
      = getResult (data dir.pair.1) (lfsMktag type id.toUInt32 size) size.toNat
        ((history (gdisk.edits dir.pair tags) id.toNat).find?
          (typesMatch tmask (lfsMktag type id.toUInt32 size))) := by
  have hcount := h.count
  have hids := h.ids
  have hid32 : id.toUInt32.toNat = id.toNat := UInt16.toNat_toUInt32 id
  have hid10 : id.toUInt32.toNat < 2 ^ 10 := by omega
  have hmatch : Attribute tmask (lfsMktag type id.toUInt32 size) := by
    refine ⟨hattr.1, ?_, ?_⟩
    · rw [lfsTagType1_eq, lfsTagType3_mktag htype hid10 hsize]
      exact hattr.2.1
    · rw [lfsTagType1_eq, lfsTagType3_mktag htype hid10 hsize]
      exact hattr.2.2
  have hfinds := get_finds hmatch h.block h.committed.1 h.splices gdisk
    (by rw [lfsTagId_mktag_toNat (by omega) hid10 hsize]; omega)
  rwa [lfsTagId_mktag_toNat (by omega) hid10 hsize, lfsTagSize_mktag_toNat (by omega) hid10 hsize,
    hid32] at hfinds

/-- A search fails with `LFS_ERR_NOENT` only. -/
theorem getResult_error {mem : ℕ → UInt8} {gtag : LfsTag} {gsize : ℕ} {t : Option (LfsTag × ℕ)}
    {halt : LfsHalt} (h : getResult mem gtag gsize t = .error halt) :
    halt = .err lfsErrNoent := by
  cases t with
  | none => exact (Except.error.inj h).symm
  | some t =>
      rw [getResult] at h
      split at h
      · exact (Except.error.inj h).symm
      · cases h

/-- A search fills the buffer it is given. -/
theorem getResult_length {mem : ℕ → UInt8} {gtag tag : LfsTag} {gsize : ℕ}
    {t : Option (LfsTag × ℕ)} {bytes : List UInt8}
    (h : getResult mem gtag gsize t = .ok (tag, bytes)) : bytes.length = gsize := by
  cases t with
  | none => cases h
  | some t =>
      rw [getResult] at h
      split at h
      · cases h
      · cases h
        rw [List.length_append, length_slice, List.length_replicate]
        omega

/-- What is left in `*info` by the entries that were passed over. -/
def LfsInfo.Clean (nameMax : ℕ) (info : LfsInfo) : Prop :=
  info.size = 0 ∧ info.name.drop (nameMax + 1) = .replicate (255 - nameMax) 0

/-- A name that fits is followed by zeros again. -/
theorem LfsInfo.Clean.setName (h : info.Clean nameMax) {bytes : List UInt8}
    (hlen : bytes.length = nameMax + 1) (type : UInt32) :
    (info.setName type bytes).Clean nameMax ∧
      (info.setName type bytes).name = bytes ++ .replicate (255 - nameMax) 0 := by
  have hname : (info.setName type bytes).name = bytes ++ .replicate (255 - nameMax) 0 := by
    rw [LfsInfo.setName, hlen, h.2]
  refine ⟨⟨h.1, ?_⟩, hname⟩
  rw [hname, ← hlen, List.drop_left]

/-- **The information on an id** is what the replay has. -/
theorem Readable.getinfo (h : Readable g data gdisk dir tags) (hmax : nameMax ≤ 255)
    (hid : id.toNat < dir.count.toNat) (hclean : info.Clean nameMax) :
    let r : LfsInfo × Except LfsHalt Unit :=
      lfsDirGetinfo g (contentReads g data) gdisk nameMax dir id info
    match entryOf (data dir.pair.1) nameMax (gdisk.edits dir.pair tags) id with
    | some entry => r = (entry, .ok ())
    | none => r.1.Clean nameMax ∧ r.2 = .error (.err lfsErrNoent) := by
  have hcount := h.count
  have hroot : id ≠ 0x3ff := by
    rintro rfl
    exact absurd hid (Nat.not_lt_of_le hcount)
  have hsize : (UInt32.ofNat (nameMax + 1)).toNat = nameMax + 1 :=
    UInt32.toNat_ofNat_of_lt' (by show _ < 2 ^ 32; omega)
  have hname := h.get 0x780 lfsTypeName (.ofNat (nameMax + 1)) (by decide) (by omega) hid
    (by decide)
  have hstruct := h.get 0x700 lfsTypeStruct 8 (by decide) (by decide) hid (by decide)
  rw [hsize] at hname
  dsimp only
  rw [lfsDirGetinfo, if_neg hroot, entryOf, nameTag, structTag, hname, hstruct]
  have height : (8 : UInt32).toNat = 8 := rfl
  rw [height]
  cases hn : getResult (data dir.pair.1) (lfsMktag lfsTypeName id.toUInt32 (.ofNat (nameMax + 1)))
      (nameMax + 1) ((history (gdisk.edits dir.pair tags) id.toNat).find?
        (typesMatch 0x780 (lfsMktag lfsTypeName id.toUInt32 (.ofNat (nameMax + 1))))) with
  | error halt => exact ⟨hclean, congrArg Except.error (getResult_error hn)⟩
  | ok found =>
      obtain ⟨tag, name⟩ := found
      obtain ⟨hset, hbytes⟩ := hclean.setName (getResult_length hn) (lfsTagType3 tag)
      cases hs : getResult (data dir.pair.1) (lfsMktag lfsTypeStruct id.toUInt32 8) 8
          ((history (gdisk.edits dir.pair tags) id.toNat).find?
            (typesMatch 0x700 (lfsMktag lfsTypeStruct id.toUInt32 8))) with
      | error halt => exact ⟨hset, congrArg Except.error (getResult_error hs)⟩
      | ok found' =>
          obtain ⟨tag', ctz⟩ := found'
          show (if lfsTagType3 tag' = lfsTypeCtzstruct then
              ({ info.setName (lfsTagType3 tag) name with size := lfsFromle32 (ctz.drop 4) }, _)
            else if lfsTagType3 tag' = lfsTypeInlinestruct then
              ({ info.setName (lfsTagType3 tag) name with size := lfsTagSize tag' }, _)
            else (info.setName (lfsTagType3 tag) name, _))
            = (LfsInfo.mk _ _ (name ++ .replicate (255 - nameMax) 0), Except.ok ())
          rw [← hbytes]
          by_cases hctz : lfsTagType3 tag' = lfsTypeCtzstruct
          · rw [if_pos hctz, if_pos hctz]
            rfl
          · rw [if_neg hctz, if_neg hctz]
            by_cases hinline : lfsTagType3 tag' = lfsTypeInlinestruct
            · rw [if_pos hinline, if_pos hinline]
              rfl
            · rw [if_neg hinline, if_neg hinline, ← hset.1]
              rfl

/-- The entries to come, from an id of a metadata pair on. -/
def Ahead (g : LfsGeometry) (data : ℕ → ℕ → UInt8) (gdisk : LfsGstate) (nameMax : ℕ)
    (dir : LfsMdir) (id : UInt16) (items : List (Option LfsInfo)) : Prop :=
  id.toNat ≤ dir.count.toNat ∧
    ∃ all, Lists g data gdisk nameMax dir all ∧ items = all.drop id.toNat

variable {items : List (Option LfsInfo)}

/-- A pair has an entry for each id. -/
theorem length_entries : (entries data gdisk nameMax dir tags).length = dir.count.toNat := by
  rw [entries, List.length_map, List.length_range]

/-- The entry of an id. -/
theorem getElem_entries {i : ℕ} (h : i < (entries data gdisk nameMax dir tags).length) :
    (entries data gdisk nameMax dir tags)[i]
      = entryOf (data dir.pair.1) nameMax (gdisk.edits dir.pair tags) (.ofNat i) := by
  simp only [entries, List.getElem_map, List.getElem_range]

/-- A listing starts with the entries of its first pair. -/
theorem Lists.parts {all : List (Option LfsInfo)} (h : Lists g data gdisk nameMax dir all) :
    ∃ tags rest, Readable g data gdisk dir tags ∧
      all = entries data gdisk nameMax dir tags ++ rest := by
  cases h with
  | last h _ => exact ⟨_, [], h, (List.append_nil _).symm⟩
  | split h _ _ _ _ => exact ⟨_, _, h, rfl⟩

/-- Below the count of the pair, the next item is the entry of the id. -/
theorem Ahead.entry (h : Ahead g data gdisk nameMax dir id items)
    (hid : id.toNat < dir.count.toNat) :
    ∃ tags rest, Readable g data gdisk dir tags ∧
      items = entryOf (data dir.pair.1) nameMax (gdisk.edits dir.pair tags) id :: rest ∧
      Ahead g data gdisk nameMax dir (id + 1) rest := by
  obtain ⟨-, all, hall, rfl⟩ := h
  obtain ⟨tags, rest, hdir, heq⟩ := hall.parts
  have hcount := hdir.count
  have hnext : (id + 1).toNat = id.toNat + 1 := by
    rw [UInt16.toNat_add]
    show (id.toNat + 1) % 2 ^ 16 = _
    omega
  have hlen : id.toNat < (entries data gdisk nameMax dir tags).length := by
    rw [length_entries]
    exact hid
  refine ⟨tags, all.drop (id.toNat + 1), hdir, ?_, by omega, all, hall, by rw [hnext]⟩
  have hlt : id.toNat < all.length := by
    rw [heq, List.length_append]
    omega
  rw [List.drop_eq_getElem_cons hlt]
  congr 1
  have hget : all[id.toNat] = (entries data gdisk nameMax dir tags)[id.toNat] := by
    subst heq
    exact List.getElem_append_left hlen
  rw [hget, getElem_entries, UInt16.ofNat_toNat]

/-- At the count the listing is over, or goes on with the pair of the hard tail. -/
theorem Ahead.turn (h : Ahead g data gdisk nameMax dir id items) (hid : id = dir.count) :
    dir.split = false ∧ items = [] ∨
      dir.split = true ∧ (dir.tail.1 < g.blockCount ∧ dir.tail.2 < g.blockCount) ∧
        ∀ b, Fetched g data (newerFirst data dir.tail) b →
          b.res = .ok 0 ∧ b.dir.count ≠ 0 ∧ Ahead g data gdisk nameMax b.dir 0 items := by
  subst hid
  obtain ⟨-, all, hall, rfl⟩ := h
  cases hall with
  | last h hsplit =>
      refine .inl ⟨hsplit, ?_⟩
      exact List.drop_eq_nil_of_le (Nat.le_of_eq length_entries)
  | @split dir tags rest h hsplit hfits hfetch hnext =>
      refine .inr ⟨hsplit, hfits, fun b hb => ⟨(hfetch b hb).1, (hfetch b hb).2, Nat.zero_le _,
        rest, hnext b hb, ?_⟩⟩
      have hlen : (entries data gdisk nameMax dir tags).length = dir.count.toNat := length_entries
      rw [← hlen, List.drop_left]
      rfl

/-- How a read ends that has these entries to come: it delivers the first that there is. -/
def Delivers (g : LfsGeometry) (data : ℕ → ℕ → UInt8) (gdisk : LfsGstate) (nameMax : ℕ)
    (items : List (Option LfsInfo)) (dir : LfsOpenDir) (r : LfsDirRead) : Prop :=
  r.dir.head = dir.head ∧ ∃ items', Ahead g data gdisk nameMax r.dir.m r.dir.id items' ∧
    items'.length ≤ items.length ∧ items'.reduceOption = items.reduceOption.tail ∧
    match items.reduceOption.head? with
    | none => r.res = .ok 0 ∧ r.dir.pos = dir.pos
    | some entry => r.res = .ok 1 ∧ r.info = entry ∧ r.dir.pos = u32 (dir.pos + 1)

/-- One entry, of an id that is there. -/
theorem readEntry_delivers (hmax : nameMax ≤ 255) (dir : LfsOpenDir)
    {rest : LfsOpenDir → LfsInfo → LfsDirRead}
    (h : Ahead g data gdisk nameMax dir.m dir.id items) (hid : dir.id.toNat < dir.m.count.toNat)
    (hclean : info.Clean nameMax) (seed : UInt32)
    (hrest : ∀ {items' info'}, items'.length < items.length →
      Ahead g data gdisk nameMax dir.m (dir.id + 1) items' → info'.Clean nameMax →
      Delivers g data gdisk nameMax items' { dir with id := dir.id + 1 }
        (rest { dir with id := dir.id + 1 } info')) :
    Delivers g data gdisk nameMax items dir
      (readEntry g (contentReads g data) gdisk nameMax (fun dir info => (rest dir info : Id _)) dir
        seed info) := by
  obtain ⟨tags, items', hdir, rfl, hahead⟩ := h.entry hid
  have hinfo := hdir.getinfo hmax hid hclean
  dsimp only at hinfo
  rw [readEntry]
  generalize (lfsDirGetinfo g (contentReads g data) gdisk nameMax dir.m dir.id info :
    LfsInfo × Except LfsHalt Unit) = r at hinfo ⊢
  obtain ⟨info', err⟩ := r
  cases hentry : entryOf (data dir.m.pair.1) nameMax (gdisk.edits dir.m.pair tags) dir.id with
  | none =>
      rw [hentry] at hinfo
      obtain ⟨hclean', rfl⟩ := hinfo
      obtain ⟨hhead, later, hlater, hle, hdrop, hends⟩ :=
        hrest (Nat.lt_succ_self _) hahead hclean'
      exact ⟨hhead, later, hlater, Nat.le_succ_of_le hle, hdrop, hends⟩
  | some entry =>
      rw [hentry] at hinfo
      cases hinfo
      refine ⟨rfl, items', hahead, Nat.le_succ _, rfl, rfl, rfl, rfl⟩

/-- The loop delivers the next entry there is, across pairs, or the end. -/
theorem rawreadLoop_delivers (hmax : nameMax ≤ 255) {fuel : ℕ} {dir : LfsOpenDir}
    (h : Ahead g data gdisk nameMax dir.m dir.id items) (hclean : info.Clean nameMax)
    (hfuel : items.length < fuel) (seed : UInt32) :
    Delivers g data gdisk nameMax items dir
      (rawreadLoop g (contentReads g data) gdisk nameMax fuel dir seed info : Id _) := by
  induction fuel generalizing dir items info seed with
  | zero => omega
  | succ fuel ih =>
      rw [rawreadLoop]
      by_cases hid : dir.id = dir.m.count
      · rw [if_pos hid]
        rcases h.turn hid with ⟨hsplit, rfl⟩ | ⟨hsplit, hfits, hnext⟩
        · rw [if_pos (by rw [hsplit]; rfl)]
          exact ⟨rfl, [], h, Nat.le_refl _, rfl, rfl, rfl⟩
        · rw [if_neg (by rw [hsplit]; exact Bool.false_ne_true)]
          have hfetch : Fetched g data (newerFirst data dir.m.tail)
              (lfsDirFetch g (contentReads g data) gdisk dir.m dir.m.tail seed) :=
            fetch_finds hfits.1 hfits.2 gdisk dir.m seed
          obtain ⟨hres, hcount, hahead⟩ := hnext _ hfetch
          show Delivers _ _ _ _ _ _ (if _ then _ else _)
          rw [if_pos hres]
          have hpos : (0 : UInt16).toNat < _ := Nat.pos_of_ne_zero fun h =>
            hcount (UInt16.toNat_inj.mp h)
          exact readEntry_delivers hmax { dir with m := _, id := 0 } hahead hpos hclean _
            fun hlt hnext hclean => ih hnext hclean (by omega) _
      · rw [if_neg hid]
        have hlt : dir.id.toNat < dir.m.count.toNat :=
          Nat.lt_of_le_of_ne h.1 fun heq => hid (UInt16.toNat_inj.mp heq)
        exact readEntry_delivers hmax dir h hlt hclean _
          fun hlt hnext hclean => ih hnext hclean (by omega) _

/-! ### Calls -/

/-- The entries `.` and `..`. -/
def dots : List LfsInfo :=
  [.setName .cleared lfsTypeDir [0x2E, 0], .setName .cleared lfsTypeDir [0x2E, 0x2E, 0]]

/-- The position in a listing after a call. -/
def Listing.next (listing : List LfsInfo) (n : ℕ) : DirOp → ℕ
  | .read => if n < listing.length then n + 1 else n
  | .tell => n
  | .rewind => 0

/-- What a call answers at position `n` of a listing. -/
def Listing.answer (listing : List LfsInfo) (n : ℕ) : DirOp → DirAnswer
  | .read => .entry listing[n]?
  | .tell => .pos n
  | .rewind => .done

/-- The directory is open at a position of its listing. -/
structure LfsOpenDir.At (g : LfsGeometry) (data : ℕ → ℕ → UInt8) (gdisk : LfsGstate) (nameMax : ℕ)
    (head : ℕ × ℕ) (all : List (Option LfsInfo)) (dir : LfsOpenDir) (n : ℕ) : Prop where
  head_eq : dir.head = head
  pos_eq : dir.pos = n
  le : n ≤ all.reduceOption.length + 2
  ahead : ∃ items, Ahead g data gdisk nameMax dir.m dir.id items ∧ items.length ≤ all.length ∧
    items.reduceOption = all.reduceOption.drop (n - 2)

/-- The first metadata pair of a directory can be fetched, and starts its entries. -/
structure OpensAt (g : LfsGeometry) (data : ℕ → ℕ → UInt8) (gdisk : LfsGstate) (nameMax : ℕ)
    (head : ℕ × ℕ) (all : List (Option LfsInfo)) : Prop where
  fits : head.1 < g.blockCount ∧ head.2 < g.blockCount
  fetch : ∀ b, Fetched g data (newerFirst data head) b → b.res = .ok 0
  lists : ∀ b, Fetched g data (newerFirst data head) b → Lists g data gdisk nameMax b.dir all

section Calls

variable {head : ℕ × ℕ} {all : List (Option LfsInfo)} {dir : LfsOpenDir} {fuel n : ℕ}

/-- The open pair's log lies in its block. -/
theorem LfsOpenDir.At.off_le (h : dir.At g data gdisk nameMax head all n) :
    dir.m.off ≤ g.blockSize := by
  obtain ⟨items, ⟨-, all', hlists, -⟩, -⟩ := h.ahead
  obtain ⟨tags, rest, hdir, -⟩ := hlists.parts
  exact hdir.committed.1.bounds.2.1

/-- A cleared record has zeros everywhere. -/
theorem cleared_clean (hmax : nameMax ≤ 255) : LfsInfo.cleared.Clean nameMax := by
  refine ⟨rfl, ?_⟩
  show (List.replicate 256 0).drop (nameMax + 1) = _
  rw [List.drop_replicate]
  congr 1
  omega

/-- A read answers with the entry at the position, and moves on. -/
theorem LfsOpenDir.At.read (h : dir.At g data gdisk nameMax head all n) (hmax : nameMax ≤ 255)
    (hfuel : all.length < fuel) (hsmall : all.length + 2 < 2 ^ 32) (seed : UInt32) :
    let r : LfsOpenDir × UInt32 × Except LfsHalt DirAnswer :=
      DirOp.call g (contentReads g data) gdisk nameMax fuel dir seed .read
    r.2.2 = .ok (Listing.answer (dots ++ all.reduceOption) n .read) ∧
      r.1.At g data gdisk nameMax head all (Listing.next (dots ++ all.reduceOption) n .read) := by
  obtain ⟨hhead, rfl, hle, items, hahead, hlen, hitems⟩ := h
  have hred : all.reduceOption.length ≤ all.length := List.reduceOption_length_le all
  dsimp only
  rw [DirOp.call, lfsDirRawread]
  have hnext : ∀ n, n < all.reduceOption.length + 2 →
      Listing.next (dots ++ all.reduceOption) n .read = n + 1 := by
    intro n hn
    rw [Listing.next, List.length_append, if_pos (by show n < 2 + _; omega)]
  have hu32 : dir.pos < all.reduceOption.length + 2 →
      u32 ((dir.pos : ℤ) + 1) = dir.pos + 1 := by
    intro hlt
    rw [u32]
    omega
  by_cases h0 : dir.pos = 0
  · rw [if_pos h0]
    refine ⟨by rw [h0]; rfl, hhead, ?_, ?_, items, hahead, hlen, ?_⟩
    · rw [hnext _ (by omega)]
      exact hu32 (by omega)
    · rw [hnext _ (by omega)]
      omega
    · rw [hnext _ (by omega), hitems, h0]
  rw [if_neg h0]
  by_cases h1 : dir.pos = 1
  · rw [if_pos h1]
    refine ⟨by rw [h1]; rfl, hhead, ?_, ?_, items, hahead, hlen, ?_⟩
    · rw [hnext _ (by omega)]
      exact hu32 (by omega)
    · rw [hnext _ (by omega)]
      omega
    · rw [hnext _ (by omega), hitems, h1]
  rw [if_neg h1]
  have hanswer : (dots ++ all.reduceOption)[dir.pos]? = items.reduceOption.head? := by
    rw [hitems, List.head?_drop, List.getElem?_append_right (by show 2 ≤ _; omega)]
    rfl
  obtain ⟨hhead', later, hlater, hle', hdrop, hends⟩ := rawreadLoop_delivers hmax hahead
    (cleared_clean hmax) (Nat.lt_of_le_of_lt hlen hfuel) seed
  rw [Listing.answer, hanswer]
  generalize (rawreadLoop g (contentReads g data) gdisk nameMax fuel dir seed .cleared :
    LfsDirRead) = r at hhead' hlater hdrop hends ⊢
  have hat := hitems ▸ List.head?_drop (l := all.reduceOption) (i := dir.pos - 2)
  rw [hitems, List.tail_drop] at hdrop
  cases hfirst : items.reduceOption.head? with
  | none =>
      rw [hfirst] at hends hat
      obtain ⟨hres, hpos⟩ := hends
      have hend := List.getElem?_eq_none_iff.mp hat.symm
      have hstays : Listing.next (dots ++ all.reduceOption) dir.pos .read = dir.pos := by
        rw [Listing.next, List.length_append, if_neg (by show ¬ dir.pos < 2 + _; omega)]
      rw [hstays]
      refine ⟨?_, hhead'.trans hhead, hpos, hle, later, hlater, Nat.le_trans hle' hlen, ?_⟩
      · show Except.map _ r.res = _
        rw [hres]
        rfl
      · rw [hdrop, List.drop_eq_nil_of_le hend, List.drop_eq_nil_of_le (by omega)]
  | some entry =>
      rw [hfirst] at hends hat
      obtain ⟨hres, hinfo, hpos⟩ := hends
      obtain ⟨hlt, -⟩ := List.getElem?_eq_some_iff.mp hat.symm
      rw [hnext _ (by omega)]
      refine ⟨?_, hhead'.trans hhead, hpos.trans (hu32 (by omega)), by omega, later, hlater,
        Nat.le_trans hle' hlen, ?_⟩
      · show Except.map _ r.res = _
        rw [hres, ← hinfo]
        rfl
      · have hstep : dir.pos - 2 + 1 = dir.pos + 1 - 2 := by omega
        rw [hdrop, hstep]

/-- Any call answers as the listing does, and leaves the directory at the next position. -/
theorem DirOp.call_answers (op : DirOp) (h : dir.At g data gdisk nameMax head all n)
    (hopen : OpensAt g data gdisk nameMax head all) (hmax : nameMax ≤ 255)
    (hfuel : all.length < fuel) (hsmall : all.length + 2 < 2 ^ 32) (seed : UInt32) :
    let r : LfsOpenDir × UInt32 × Except LfsHalt DirAnswer :=
      DirOp.call g (contentReads g data) gdisk nameMax fuel dir seed op
    r.2.2 = .ok (Listing.answer (dots ++ all.reduceOption) n op) ∧
      r.1.At g data gdisk nameMax head all (Listing.next (dots ++ all.reduceOption) n op) := by
  cases op with
  | read => exact h.read hmax hfuel hsmall seed
  | tell => exact ⟨congrArg (fun pos => Except.ok (DirAnswer.pos pos)) h.pos_eq, h⟩
  | rewind =>
      obtain ⟨rfl, -, -, -⟩ := h
      have hfetch : Fetched g data (newerFirst data dir.head)
          (lfsDirFetch g (contentReads g data) gdisk dir.m dir.head seed) :=
        fetch_finds hopen.fits.1 hopen.fits.2 gdisk dir.m seed
      dsimp only
      rw [DirOp.call, lfsDirRawrewind]
      generalize (lfsDirFetch g (contentReads g data) gdisk dir.m dir.head seed : LfsFetched) = b
        at hfetch ⊢
      have hcall : ∀ r : LfsOpenDir × UInt32 × Except LfsHalt ℤ, (if b.res = .ok 0 then
          ({ dir with m := b.dir, id := 0, pos := 0 }, b.seed, .ok 0) else r)
          = ({ dir with m := b.dir, id := 0, pos := 0 }, b.seed, .ok 0) :=
        fun r => if_pos (hopen.fetch b hfetch)
      dsimp only [bind, pure]
      rw [hcall]
      exact ⟨rfl, rfl, rfl, Nat.zero_le _, all, ⟨Nat.zero_le _, all, hopen.lists b hfetch, rfl⟩,
        Nat.le_refl _, rfl⟩

/-- Any run of calls answers as the listing does. -/
theorem dirCalls_answers (hopen : OpensAt g data gdisk nameMax head all) (hmax : nameMax ≤ 255)
    (hfuel : all.length < fuel) (hsmall : all.length + 2 < 2 ^ 32) (ops : List DirOp)
    (h : dir.At g data gdisk nameMax head all n) (seed : UInt32) :
    let r : List (Except LfsHalt DirAnswer) × LfsOpenDir :=
      dirCalls g (contentReads g data) gdisk nameMax fuel ops dir seed
    r.1 = (answers (Listing.next (dots ++ all.reduceOption))
        (Listing.answer (dots ++ all.reduceOption)) n ops).map .ok ∧
      r.2.At g data gdisk nameMax head all
        (run (Listing.next (dots ++ all.reduceOption)) n ops) := by
  induction ops generalizing dir n seed with
  | nil => exact ⟨rfl, h⟩
  | cons op ops ih =>
      obtain ⟨hanswer, hat⟩ := DirOp.call_answers op h hopen hmax hfuel hsmall seed
      dsimp only at hanswer hat ⊢
      rw [dirCalls]
      generalize (DirOp.call g (contentReads g data) gdisk nameMax fuel dir seed op :
        LfsOpenDir × UInt32 × Except LfsHalt DirAnswer) = r at hanswer hat ⊢
      obtain ⟨dir', seed', answer⟩ := r
      obtain ⟨hanswers, hend⟩ := ih hat seed'
      exact ⟨congrArg₂ List.cons hanswer hanswers, hend⟩

end Calls

end Content

/-! ### Through the caches -/

section Cached

variable {δ : Type} {c : LfsSetup δ} {R : δ → BlockDevice → Prop} {d : BlockDevice}
  {pcache : LfsCache} {gdisk : LfsGstate} {nameMax : ℕ}

/-- `lfs_dir_getinfo` through the caches. -/
theorem lfsDirGetinfo_yields (hc : c.Drives R) (hreads : c.ReadsSucceed R) {dir : LfsMdir}
    (hoff : dir.off ≤ c.blockSize) (id : UInt16) (info : LfsInfo) :
    Yields (LfsBd.Serving c R d pcache)
      (lfsDirGetinfo c.toLfsGeometry (bdReads c) gdisk nameMax dir id info)
      (lfsDirGetinfo c.toLfsGeometry (contentReads c.toLfsGeometry d.data) gdisk nameMax dir id
        info) := by
  rw [lfsDirGetinfo, lfsDirGetinfo]
  refine .ite (fun _ => .pure _) fun _ => (lfsDirGet_yields hc hreads hoff gdisk).bind_id ?_
  split
  · exact .pure _
  · refine (lfsDirGet_yields hc hreads hoff gdisk).bind_id ?_
    split
    · exact .pure _
    · exact .ite (fun _ => .pure _) fun _ => .ite (fun _ => .pure _) (fun _ => .pure _)

/-- One entry, through the caches. -/
theorem readEntry_yields (dir : LfsOpenDir) (hc : c.Drives R) (hreads : c.ReadsSucceed R)
    (hoff : dir.m.off ≤ c.blockSize) (seed : UInt32) (info : LfsInfo)
    {rest : LfsOpenDir → LfsInfo → LfsProg (LfsBd δ) LfsDirRead}
    {rest' : LfsOpenDir → LfsInfo → Id LfsDirRead}
    (hrest : ∀ info, Yields (LfsBd.Serving c R d pcache) (rest { dir with id := dir.id + 1 } info)
      (rest' { dir with id := dir.id + 1 } info)) :
    Yields (LfsBd.Serving c R d pcache)
      (readEntry c.toLfsGeometry (bdReads c) gdisk nameMax rest dir seed info)
      (readEntry c.toLfsGeometry (contentReads c.toLfsGeometry d.data) gdisk nameMax rest' dir seed
        info) := by
  rw [readEntry, readEntry]
  refine (lfsDirGetinfo_yields hc hreads hoff dir.id info).bind_id ?_
  split
  split
  · exact .ite (fun _ => hrest _) (fun _ => .pure _)
  · exact .pure _

/-- A directory that was fetched has its commits within the block. -/
theorem fetched_off_le {g : LfsGeometry} {data : ℕ → ℕ → UInt8} {dir : LfsMdir} {pair : ℕ × ℕ}
    {seed : UInt32} {b : LfsFetched}
    (hb : lfsDirFetch g (contentReads g data) gdisk dir pair seed = b) (hres : b.res = .ok 0) :
    b.dir.off ≤ g.blockSize := by
  by_cases hout : pair.1 ≥ g.blockCount ∨ pair.2 ≥ g.blockCount
  · rw [lfsDirFetch, lfsDirFetchmatch, if_pos hout] at hb
    rw [← hb] at hres
    cases hres
  · have hfits : pair.1 < g.blockCount ∧ pair.2 < g.blockCount := by omega
    have hfetch : Fetched g data (newerFirst data pair)
        (lfsDirFetch g (contentReads g data) gdisk dir pair seed) :=
      fetch_finds hfits.1 hfits.2 gdisk dir seed
    rw [hb] at hfetch
    cases hfetch with
    | newer _ hdir => exact hdir.off_le
    | older _ _ hdir => exact hdir.off_le
    | corrupt _ _ hbad => exact absurd (hres.symm.trans hbad) (by decide)

/-- The loop of `lfs_dir_rawread`, through the caches. -/
theorem rawreadLoop_yields (hc : c.Drives R) (hreads : c.ReadsSucceed R) {fuel : ℕ}
    (dir : LfsOpenDir) (hoff : dir.m.off ≤ c.blockSize) (seed : UInt32) (info : LfsInfo) :
    Yields (LfsBd.Serving c R d pcache)
      (rawreadLoop c.toLfsGeometry (bdReads c) gdisk nameMax fuel dir seed info)
      (rawreadLoop c.toLfsGeometry (contentReads c.toLfsGeometry d.data) gdisk nameMax fuel dir
        seed info) := by
  induction fuel generalizing dir seed info with
  | zero => exact .pure _
  | succ fuel ih =>
      rw [rawreadLoop, rawreadLoop]
      refine .ite (fun _ => .ite (fun _ => .pure _) fun _ => ?_) fun _ => ?_
      · refine (lfsDirFetch_yields hc hreads gdisk dir.m seed).bind_id ?_
        refine .ite (fun hres => ?_) (fun _ => .pure _)
        have hnext := fetched_off_le rfl hres
        exact readEntry_yields { dir with m := _, id := 0 } hc hreads hnext _ _
          fun info => ih _ hnext _ _
      · exact readEntry_yields dir hc hreads hoff _ _
          fun info => ih { dir with id := dir.id + 1 } hoff _ _

/-- Any call, through the caches. -/
theorem DirOp.call_yields (hc : c.Drives R) (hreads : c.ReadsSucceed R) {fuel : ℕ}
    {dir : LfsOpenDir} (hoff : dir.m.off ≤ c.blockSize) (seed : UInt32) (op : DirOp) :
    Yields (LfsBd.Serving c R d pcache)
      (DirOp.call c.toLfsGeometry (bdReads c) gdisk nameMax fuel dir seed op)
      (DirOp.call c.toLfsGeometry (contentReads c.toLfsGeometry d.data) gdisk nameMax fuel dir seed
        op) := by
  cases op with
  | read =>
      rw [DirOp.call, DirOp.call, lfsDirRawread, lfsDirRawread]
      refine Yields.bind_id ?_ (.pure _)
      refine .ite (fun _ => .pure _) fun _ => .ite (fun _ => .pure _) fun _ => ?_
      exact rawreadLoop_yields hc hreads dir hoff seed _
  | tell => exact .pure _
  | rewind =>
      rw [DirOp.call, DirOp.call, lfsDirRawrewind, lfsDirRawrewind]
      refine Yields.bind_id ?_ (.pure _)
      refine (lfsDirFetch_yields hc hreads gdisk dir.m seed).bind_id ?_
      exact .ite (fun _ => .pure _) (fun _ => .pure _)

variable {head : ℕ × ℕ} {all : List (Option LfsInfo)} {fuel n : ℕ}

/-- Any run of calls, through the caches: between two of them the directory is at some position, and
so within its block. -/
theorem dirCalls_yields (hc : c.Drives R) (hreads : c.ReadsSucceed R)
    (hopen : OpensAt c.toLfsGeometry d.data gdisk nameMax head all) (hmax : nameMax ≤ 255)
    (hfuel : all.length < fuel) (hsmall : all.length + 2 < 2 ^ 32) (ops : List DirOp)
    {dir : LfsOpenDir} (h : dir.At c.toLfsGeometry d.data gdisk nameMax head all n)
    (seed : UInt32) :
    Yields (LfsBd.Serving c R d pcache)
      (dirCalls c.toLfsGeometry (bdReads c) gdisk nameMax fuel ops dir seed)
      (dirCalls c.toLfsGeometry (contentReads c.toLfsGeometry d.data) gdisk nameMax fuel ops dir
        seed) := by
  induction ops generalizing dir n seed with
  | nil => exact .pure _
  | cons op ops ih =>
      have hat := (DirOp.call_answers op h hopen hmax hfuel hsmall seed).2
      rw [dirCalls, dirCalls]
      refine (DirOp.call_yields hc hreads h.off_le seed op).bind_id ?_
      exact (ih hat _).bind_id (.pure _)

/-- **A directory is a cursor over its listing**, through the caches. -/
theorem lfsDir_cursor (hc : c.Drives R) (hreads : c.ReadsSucceed R)
    (hopen : OpensAt c.toLfsGeometry d.data gdisk nameMax head all) (hmax : nameMax ≤ 255)
    (hfuel : all.length < fuel) (hsmall : all.length + 2 < 2 ^ 32) (dir : LfsOpenDir)
    (hdir : Lists c.toLfsGeometry d.data gdisk nameMax dir.m all)
    (hstart : dir.head = head ∧ dir.id = 0 ∧ dir.pos = 0) {s : LfsBd δ}
    (hs : s.Backed c R (fun _ => True) d) (seed : UInt32) (ops : List DirOp) :
    ∃ dir' t, dirCalls c.toLfsGeometry (bdReads c) gdisk nameMax fuel ops dir seed s
        = .ok ((answers (Listing.next (dots ++ all.reduceOption))
          (Listing.answer (dots ++ all.reduceOption)) 0 ops).map .ok, dir') t ∧
      dir'.pos = run (Listing.next (dots ++ all.reduceOption)) 0 ops ∧
      t.Backed c R (fun _ => True) d ∧ t.pcache = s.pcache := by
  obtain ⟨hhead, hid, hpos⟩ := hstart
  have hahead : Ahead c.toLfsGeometry d.data gdisk nameMax dir.m dir.id all := by
    rw [hid]
    exact ⟨Nat.zero_le _, all, hdir, rfl⟩
  have hopened : dir.At c.toLfsGeometry d.data gdisk nameMax head all 0 :=
    ⟨hhead, hpos, Nat.zero_le _, all, hahead, Nat.le_refl _, rfl⟩
  obtain ⟨hanswers, hat⟩ := dirCalls_answers hopen hmax hfuel hsmall ops hopened seed
  obtain ⟨t, hrun, ht, hpcache⟩ := dirCalls_yields hc hreads hopen hmax hfuel hsmall ops hopened
    seed s ⟨hs, rfl⟩
  refine ⟨_, t, ?_, hat.pos_eq, ht, hpcache⟩
  rw [hrun, ← hanswers]
  rfl

end Cached

/-! ### A directory of two pairs -/

section Found

variable {g : LfsGeometry} {data : ℕ → ℕ → UInt8} {pair : ℕ × ℕ} {p : LogPos} {b : LfsFetched}

/-- What a fetch of a pair leaves when another one has found the commit at `p` in its newer
block. -/
theorem fetched_committed {b' : LfsFetched} (hnewer : newerFirst data pair = pair)
    (hp : Committed g (data pair.1) p) (hb' : Fetched g data (newerFirst data pair) b')
    (hoff : b'.dir.off = p.off) (hb : Fetched g data (newerFirst data pair) b) :
    b.dir.pair = pair ∧ b.res = fetchResult b.dir.count ∧ p.off = b.dir.off ∧
      p.ptag = b.dir.etag ∧
      ⟨b.dir.count, b.dir.tail, b.dir.split⟩ = dirState (data pair.1) p.tags := by
  rw [hnewer] at hb hb'
  cases hb with
  | newer hpair hdir _ hres =>
      cases hb' with
      | newer _ hdir' =>
          exact ⟨hpair, hres, hdir.state_eq hp (hoff ▸ hdir.off_le_off hdir')⟩
      | older hnone => exact absurd hp (hnone p)
      | corrupt hnone => exact absurd hp (hnone p)
  | older hnone => exact absurd hp (hnone p)
  | corrupt hnone => exact absurd hp (hnone p)

/-- A directory with the end of a commit for its own, and few enough ids. -/
theorem Readable.of_committed {gdisk : LfsGstate} {dir : LfsMdir} {off : ℕ} {etag : LfsTag}
    {count : UInt16} {tags : List (LfsTag × ℕ)} (hpair : dir.pair = pair) (hoff : off = dir.off)
    (hetag : etag = dir.etag) (hcount : dir.count = count)
    (hp : Committed g (data pair.1) ⟨off, off, etag, tags⟩) (hblock : pair.1 < g.blockCount)
    (hsplices : ∀ t ∈ tags, SpliceOk t.1) (hten : count.toNat ≤ 0x3ff)
    (hids : count.toNat + deletions (gdisk.edits pair tags) ≤ 1024) :
    Readable g data gdisk dir tags := by
  subst hpair hoff hetag hcount
  exact ⟨hblock, hp, hsplices, hten, hids⟩

end Found

/-- The first pair of a directory: a file of two bytes, and a hard tail to the blocks 2 and 3. -/
def firstPair : List UInt8 :=
  [1, 0, 0, 0, 0xBF, 0xEF, 0xFF, 0xFF, 0x40, 0, 0, 1, 0x61, 0x20, 0, 0, 3, 0x68, 0x69,
    0x40, 0x0F, 0xFC, 0x0A, 2, 0, 0, 0, 3, 0, 0, 0, 0x30, 0x10, 0, 0x0C, 0x69, 0x68, 0x0E, 0x22]

/-- The last pair of the directory: a file of three bytes. -/
def lastPair : List UInt8 :=
  [1, 0, 0, 0, 0xBF, 0xEF, 0xFF, 0xFF, 0x40, 0, 0, 1, 0x62, 0x20, 0, 0, 2, 0x68, 0x65, 0x79,
    0x70, 0x1F, 0xFC, 7, 0xC2, 0x9B, 0x39, 0xB6]

/-- A device with a directory of two pairs, the first at blocks 0 and 1. -/
def twoPairsDevice : BlockDevice :=
  .ofMem fun a => if a < 8192 then firstPair.getD a 0xFF else lastPair.getD (a - 8192) 0xFF

/-- The tags of the first pair, which names the second as its hard tail. -/
def firstPairTags : List (LfsTag × ℕ) :=
  [(0x40100000, 4), (0x00100001, 8), (0x20100002, 13), (0x601FFC08, 19), (0x500FFC04, 31)]

/-- The tags of the second pair. -/
def lastPairTags : List (LfsTag × ℕ) :=
  [(0x40100000, 4), (0x00100001, 8), (0x20100003, 13), (0x500FFC04, 20)]

/-- The first pair's log ends in its one commit. -/
theorem committed_firstPair : Committed forgetful.toLfsGeometry (twoPairsDevice.data 0)
    ⟨39, 39, 0x500FFC04, firstPairTags⟩ := by
  have hcreate : TagAt forgetful.toLfsGeometry (twoPairsDevice.data 0) .first 0x40100000 := by
    decide
  have hname : TagAt forgetful.toLfsGeometry (twoPairsDevice.data 0)
      ⟨0, 8, 0x40100000, firstPairTags.take 1⟩ 0x00100001 := by
    decide
  have hstruct : TagAt forgetful.toLfsGeometry (twoPairsDevice.data 0)
      ⟨0, 13, 0x00100001, firstPairTags.take 2⟩ 0x20100002 := by
    decide
  have htail : TagAt forgetful.toLfsGeometry (twoPairsDevice.data 0)
      ⟨0, 19, 0x20100002, firstPairTags.take 3⟩ 0x601FFC08 := by
    decide
  have hcrc : TagAt forgetful.toLfsGeometry (twoPairsDevice.data 0)
      ⟨0, 31, 0x601FFC08, firstPairTags.take 4⟩ 0x500FFC04 := by
    decide
  have hlog := (((ReflTransGen.single (Accepts.attr hcreate (by decide))).tail
    (Accepts.attr hname (by decide))).tail (Accepts.attr hstruct (by decide))).tail
    (Accepts.attr htail (by decide))
  exact ⟨hlog.tail (.crc hcrc (by decide) (by decide +kernel)), rfl⟩

/-- The second pair's log ends in its one commit. -/
theorem committed_lastPair : Committed forgetful.toLfsGeometry (twoPairsDevice.data 2)
    ⟨28, 28, 0x500FFC04, lastPairTags⟩ := by
  have hcreate : TagAt forgetful.toLfsGeometry (twoPairsDevice.data 2) .first 0x40100000 := by
    decide
  have hname : TagAt forgetful.toLfsGeometry (twoPairsDevice.data 2)
      ⟨0, 8, 0x40100000, lastPairTags.take 1⟩ 0x00100001 := by
    decide
  have hstruct : TagAt forgetful.toLfsGeometry (twoPairsDevice.data 2)
      ⟨0, 13, 0x00100001, lastPairTags.take 2⟩ 0x20100003 := by
    decide
  have hcrc : TagAt forgetful.toLfsGeometry (twoPairsDevice.data 2)
      ⟨0, 20, 0x20100003, lastPairTags.take 3⟩ 0x500FFC04 := by
    decide
  have hlog := ((ReflTransGen.single (Accepts.attr hcreate (by decide))).tail
    (Accepts.attr hname (by decide))).tail (Accepts.attr hstruct (by decide))
  exact ⟨hlog.tail (.crc hcrc (by decide) (by decide +kernel)), rfl⟩

/-- What a fetch of one of the pairs leaves. -/
def twoPairsFetched (pair : ℕ × ℕ) : LfsFetched :=
  Id.run (lfsDirFetch forgetful.toLfsGeometry
    (contentReads forgetful.toLfsGeometry twoPairsDevice.data) ⟨0, (0, 0)⟩
    ⟨(0, 0), 0, 0, 0, 0, false, false, (0, 0)⟩ pair 0)

/-- What fetching a pair of the device yields. -/
theorem fetched_twoPairs {pair : ℕ × ℕ}
    (hfits : pair.1 < forgetful.blockCount ∧ pair.2 < forgetful.blockCount) :
    Fetched forgetful.toLfsGeometry twoPairsDevice.data (newerFirst twoPairsDevice.data pair)
      (twoPairsFetched pair) := by
  rw [twoPairsFetched, Id.run]
  exact fetch_finds hfits.1 hfits.2 _ _ _

/-- The entry of the first pair. -/
def firstEntry : LfsInfo := ⟨1, 2, 0x61 :: .replicate 255 0⟩

/-- The entry of the second pair. -/
def lastEntry : LfsInfo := ⟨1, 3, 0x62 :: .replicate 255 0⟩

variable {b : LfsFetched}

/-- The second pair lists its entry. -/
theorem lists_lastPair (hb : Fetched forgetful.toLfsGeometry twoPairsDevice.data
    (newerFirst twoPairsDevice.data (2, 3)) b) :
    (b.res = .ok 0 ∧ b.dir.count ≠ 0) ∧
      Lists forgetful.toLfsGeometry twoPairsDevice.data ⟨0, (0, 0)⟩ 255 b.dir [some lastEntry] := by
  have hend : (twoPairsFetched (2, 3)).dir.off = 28 := by decide +kernel
  obtain ⟨hpair, hres, hoff, hetag, hstate⟩ :=
    fetched_committed (by decide) committed_lastPair (fetched_twoPairs (by decide)) hend hb
  have hcount : b.dir.count = 1 := (congrArg DirState.count hstate).trans (by decide)
  have hsplit : b.dir.split = false := (congrArg DirState.split hstate).trans (by decide)
  have hentries : entries twoPairsDevice.data ⟨0, (0, 0)⟩ 255 b.dir lastPairTags
      = [some lastEntry] := by
    rw [entries, hpair, hcount]
    decide +kernel
  have hreadable : Readable forgetful.toLfsGeometry twoPairsDevice.data ⟨0, (0, 0)⟩ b.dir
      lastPairTags :=
    .of_committed hpair hoff hetag hcount committed_lastPair (by decide) (by decide) (by decide)
      (by decide)
  exact ⟨⟨by rw [hres, hcount]; rfl, by rw [hcount]; decide⟩, hentries ▸ .last hreadable hsplit⟩

/-- The first pair lists its own entry and then that of the second. -/
theorem lists_firstPair (hb : Fetched forgetful.toLfsGeometry twoPairsDevice.data
    (newerFirst twoPairsDevice.data (0, 1)) b) :
    b.res = .ok 0 ∧ Lists forgetful.toLfsGeometry twoPairsDevice.data ⟨0, (0, 0)⟩ 255 b.dir
      [some firstEntry, some lastEntry] := by
  have hend : (twoPairsFetched (0, 1)).dir.off = 39 := by decide +kernel
  obtain ⟨hpair, hres, hoff, hetag, hstate⟩ :=
    fetched_committed (by decide) committed_firstPair (fetched_twoPairs (by decide)) hend hb
  have hcount : b.dir.count = 1 := (congrArg DirState.count hstate).trans (by decide)
  have htail : b.dir.tail = (2, 3) := (congrArg DirState.tail hstate).trans (by decide)
  have hsplit : b.dir.split = true := (congrArg DirState.split hstate).trans (by decide)
  have hentries : entries twoPairsDevice.data ⟨0, (0, 0)⟩ 255 b.dir firstPairTags
      = [some firstEntry] := by
    rw [entries, hpair, hcount]
    decide +kernel
  have hreadable : Readable forgetful.toLfsGeometry twoPairsDevice.data ⟨0, (0, 0)⟩ b.dir
      firstPairTags :=
    .of_committed hpair hoff hetag hcount committed_firstPair (by decide) (by decide) (by decide)
      (by decide)
  have hlists : Lists forgetful.toLfsGeometry twoPairsDevice.data ⟨0, (0, 0)⟩ 255 b.dir
      (entries twoPairsDevice.data ⟨0, (0, 0)⟩ 255 b.dir firstPairTags ++ [some lastEntry]) := by
    refine .split hreadable hsplit ?_ ?_ ?_ <;> rw [htail]
    · decide
    · exact fun _ h => (lists_lastPair h).1
    · exact fun _ h => (lists_lastPair h).2
  rw [hentries] at hlists
  exact ⟨by rw [hres, hcount]; rfl, hlists⟩

/-- A directory is read to its end, across the tail, and from its start again. -/
theorem lfsDir_cursor_twoPairs : ∃ dir t,
    dirCalls forgetful.toLfsGeometry (bdReads forgetful) ⟨0, (0, 0)⟩ 255 3
        [.read, .read, .read, .read, .read, .tell, .rewind, .read]
        ⟨0, (twoPairsFetched (0, 1)).dir, 0, (0, 1)⟩ 0
        ⟨twoPairsDevice, ⟨lfsBlockNull, 0, 0, fun _ => 0⟩, ⟨lfsBlockNull, 0, 0, fun _ => 0⟩⟩
      = .ok ([.ok (.entry (some (.setName .cleared lfsTypeDir [0x2E, 0]))),
          .ok (.entry (some (.setName .cleared lfsTypeDir [0x2E, 0x2E, 0]))),
          .ok (.entry (some firstEntry)), .ok (.entry (some lastEntry)), .ok (.entry none),
          .ok (.pos 4), .ok .done,
          .ok (.entry (some (.setName .cleared lfsTypeDir [0x2E, 0])))], dir) t := by
  have hopen : OpensAt forgetful.toLfsGeometry twoPairsDevice.data ⟨0, (0, 0)⟩ 255 (0, 1)
      [some firstEntry, some lastEntry] :=
    ⟨by decide, fun _ hb => (lists_firstPair hb).1, fun _ hb => (lists_firstPair hb).2⟩
  have hfetched : Fetched forgetful.toLfsGeometry twoPairsDevice.data
      (newerFirst twoPairsDevice.data (0, 1)) (twoPairsFetched (0, 1)) :=
    fetched_twoPairs (by decide)
  have hlists := (lists_firstPair hfetched).2
  generalize (twoPairsFetched (0, 1)).dir = start at hlists ⊢
  obtain ⟨dir, t, hrun, -⟩ := lfsDir_cursor drives_forgetful readsSucceed_forgetful hopen
    (by decide) (by decide : [some firstEntry, some lastEntry].length < 3) (by decide)
    ⟨0, start, 0, (0, 1)⟩ hlists ⟨rfl, rfl, rfl⟩
    (s := ⟨twoPairsDevice, ⟨lfsBlockNull, 0, 0, fun _ => 0⟩, ⟨lfsBlockNull, 0, 0, fun _ => 0⟩⟩)
    ⟨rfl, fun h => absurd h (by decide)⟩ 0
    [.read, .read, .read, .read, .read, .tell, .rewind, .read]
  exact ⟨dir, t, hrun⟩

end Num487Boot
