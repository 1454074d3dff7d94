import Num487Boot.LfsPort
import Num487Boot.LfsUtil
import Num487Boot.LittleFs

/-!
# The Caching Block Device Operations of LittleFS

The layer at the bottom of `lfs.c`: reads go through a read cache and, where one is being
filled, through the program cache, which holds what is not yet on the device; programs are
collected in the program cache and flushed when it is full.

The device is whatever the callbacks of `struct lfs_config` make of it: a state `δ` and four
functions on it, each of which may fail. A cache buffer is a memory of its own. Sums and
differences of sizes are `uint32_t` where a caller could make them wrap.

The two loops of the source without a bound of their own run on fuel, two iterations for each
byte: one to fetch or prepare a cache, one to use it. Running out halts with
`LfsHalt.endless`.
-/

namespace Num487Boot

open Exec Memory

/-! ### Configuration -/

/-- `LFS_BLOCK_NULL` -/
def lfsBlockNull : ℕ := 2 ^ 32 - 1

/-- `LFS_BLOCK_INLINE` -/
def lfsBlockInline : ℕ := 2 ^ 32 - 2

/-- The sizes in `struct lfs_config`, as `lfs_init` asserts them, and small enough for sums of
them to stay within 32 bits. -/
structure LfsGeometry where
  readSize : ℕ
  progSize : ℕ
  blockSize : ℕ
  blockCount : ℕ
  cacheSize : ℕ
  lookaheadSize : ℕ
  read_pos : 0 < readSize
  prog_pos : 0 < progSize
  cache_pos : 0 < cacheSize
  read_dvd : readSize ∣ cacheSize
  prog_dvd : progSize ∣ cacheSize
  cache_dvd : cacheSize ∣ blockSize
  block_ge : 128 ≤ blockSize
  block_le : blockSize ≤ 2 ^ 30
  count_le : blockCount ≤ 2 ^ 31
  lookahead_pos : 0 < lookaheadSize
  lookahead_dvd : 8 ∣ lookaheadSize
  lookahead_le : lookaheadSize ≤ 2 ^ 28

/-- The callbacks in `struct lfs_config`: the error they return, the bytes a read leaves in
its buffer, and what they make of the device. -/
structure LfsDriver (δ : Type) where
  read : ℕ → ℕ → ℕ → δ → (ℤ × List UInt8) × δ
  prog : ℕ → ℕ → List UInt8 → δ → ℤ × δ
  erase : ℕ → δ → ℤ × δ
  sync : δ → ℤ × δ

/-- A geometry LittleFS accepts, with the block device callbacks over it. -/
structure LfsSetup (δ : Type) extends LfsGeometry where
  driver : LfsDriver δ

/-! ### Caches -/

/-- `lfs_cache_t` -/
structure LfsCache where
  block : ℕ
  off : ℕ
  size : ℕ
  buffer : ℕ → UInt8

/-- What a block operation works on: the device and the two caches it is given. -/
structure LfsBd (δ : Type) where
  dev : δ
  rcache : LfsCache
  pcache : LfsCache

/-- Why an operation ends early: an error code it returns, a failing `LFS_ASSERT`, a loop that
was cut off. -/
inductive LfsHalt
  | err (code : ℤ)
  | assert
  | endless
  deriving DecidableEq

/-- LittleFS code: it halts at a failed assertion or with the error it returns. -/
abbrev LfsProg (σ : Type) := EStateM LfsHalt σ

/-- `LFS_ASSERT` -/
def lfsAssert {σ : Type} (test : Prop) [Decidable test] : LfsProg σ Unit :=
  if test then pure () else throw .assert

/-- `if (err) return err;` -/
def lfsCheck {σ : Type} (err : ℤ) : LfsProg σ Unit :=
  if err = 0 then pure () else throw (.err err)

variable {δ : Type} (c : LfsSetup δ)

/-- `lfs_cache_drop` -/
def lfsCacheDrop (rcache : LfsCache) : LfsCache := { rcache with block := lfsBlockNull }

/-- `lfs_cache_zero` -/
def lfsCacheZero (pcache : LfsCache) : LfsCache :=
  { pcache with
    block := lfsBlockNull
    buffer := fun i => if i < c.cacheSize then 0xFF else pcache.buffer i }

/-- What a cache has to say about a read. -/
inductive Lookup
  /-- It holds the first bytes. -/
  | served (bytes : List UInt8)
  /-- It does not, and takes priority after so many. -/
  | before (diff : ℕ)

/-- The lookup in either cache in the loop of `lfs_bd_read`. -/
def LfsCache.lookup (cache : LfsCache) (block off diff : ℕ) : Lookup :=
  if block = cache.block ∧ off < cache.off + cache.size then
    if off ≥ cache.off then
      let diff := min diff (cache.size - (off - cache.off))
      .served (slice cache.buffer (off - cache.off) diff)
    else .before (min diff (cache.off - off))
  else .before diff

/-! ### Reading -/

/-- The call of `lfs->cfg->read` for the buffer of the caller. -/
def lfsCfgRead (block off size : ℕ) : LfsProg (LfsBd δ) (List UInt8) := do
  let s ← get
  let r := c.driver.read block off size s.dev
  modify fun s => { s with dev := r.2 }
  lfsCheck r.1.1
  pure r.1.2

/-- The part of a block `lfs_bd_read` loads into its read cache. -/
def rcacheSize (hint off : ℕ) : ℕ :=
  let stop : ℕ := min (lfsAlignup (u32 (off + hint)) c.readSize) c.blockSize
  min (u32 (stop - lfsAligndown off c.readSize)) c.cacheSize

/-- The read cache takes over a part of a block; its buffer is filled even by a read that
fails. -/
def loadRcache (hint block off : ℕ) : LfsProg (LfsBd δ) Unit := do
  lfsAssert (block < c.blockCount)
  let s ← get
  let start := lfsAligndown off c.readSize
  let size := rcacheSize c hint off
  let r := c.driver.read block start size s.dev
  modify fun s => { s with
    dev := r.2
    rcache := ⟨block, start, size, overlay s.rcache.buffer 0 r.1.2⟩ }
  lfsAssert (r.1.1 ≤ 0)
  lfsCheck r.1.1

/-- The loop of `lfs_bd_read`. A `pcache` of `none` is the null pointer. -/
def lfsBdReadLoop (pcache : Option LfsCache) (hint block : ℕ) :
    ℕ → ℕ → ℕ → LfsProg (LfsBd δ) (List UInt8)
  | 0, _, _ => throw .endless
  | fuel + 1, off, size =>
      if size = 0 then pure []
      else do
        let s ← get
        match pcache.elim (.before size) (·.lookup block off size) with
        | .served bytes => do
            let rest ← lfsBdReadLoop pcache hint block fuel (off + bytes.length)
              (size - bytes.length)
            pure (bytes ++ rest)
        | .before diff =>
            match s.rcache.lookup block off diff with
            | .served bytes => do
                let rest ← lfsBdReadLoop pcache hint block fuel (off + bytes.length)
                  (size - bytes.length)
                pure (bytes ++ rest)
            | .before diff =>
                if size ≥ hint ∧ off % c.readSize = 0 ∧ size ≥ c.readSize then do
                  -- bypass the cache
                  let diff := lfsAligndown diff c.readSize
                  let bytes ← lfsCfgRead c block off diff
                  let rest ← lfsBdReadLoop pcache hint block fuel (off + diff) (size - diff)
                  pure (bytes ++ rest)
                else do
                  loadRcache c hint block off
                  lfsBdReadLoop pcache hint block fuel off size

/-- `lfs_bd_read` -/
def lfsBdRead (pcache : Option LfsCache) (hint block off size : ℕ) :
    LfsProg (LfsBd δ) (List UInt8) :=
  if block ≥ c.blockCount ∨ u32 (off + size) > c.blockSize then throw (.err lfsErrCorrupt)
  else lfsBdReadLoop c pcache hint block (2 * size + 1) off size

/-- `memcmp` on buffers of one length -/
def memcmp : List UInt8 → List UInt8 → Ordering
  | x :: xs, y :: ys => (compare x y).then (memcmp xs ys)
  | _, _ => .eq

/-- The loop of `lfs_bd_cmp` from byte `i` on. -/
def lfsBdCmpLoop (pcache : Option LfsCache) (hint block off : ℕ) :
    ℕ → ℕ → List UInt8 → LfsProg (LfsBd δ) Ordering
  | 0, _, _ => throw .endless
  | fuel + 1, i, data =>
      if data = [] then pure .eq
      else do
        let diff := min data.length 8
        let dat ← lfsBdRead c pcache (u32 (hint - i)) block (off + i) diff
        let res := memcmp dat (data.take diff)
        if res ≠ .eq then pure res
        else lfsBdCmpLoop pcache hint block off fuel (i + diff) (data.drop diff)

/-- `LFS_CMP_EQ`, `LFS_CMP_LT` and `LFS_CMP_GT` are the `Ordering` of the device against the
buffer. -/
def lfsBdCmp (pcache : Option LfsCache) (hint block off : ℕ) (buffer : List UInt8) :
    LfsProg (LfsBd δ) Ordering :=
  lfsBdCmpLoop c pcache hint block off (buffer.length + 1) 0 buffer

/-- The loop of `lfs_bd_crc` from byte `i` on. -/
def lfsBdCrcLoop (pcache : Option LfsCache) (hint block off : ℕ) :
    ℕ → ℕ → ℕ → UInt32 → LfsProg (LfsBd δ) UInt32
  | 0, _, _, _ => throw .endless
  | fuel + 1, i, size, crc =>
      if size = 0 then pure crc
      else do
        let diff := min size 8
        let dat ← lfsBdRead c pcache (u32 (hint - i)) block (off + i) diff
        lfsBdCrcLoop pcache hint block off fuel (i + diff) (size - diff) (lfsCrc crc dat)

/-- `lfs_bd_crc` -/
def lfsBdCrc (pcache : Option LfsCache) (hint block off size : ℕ) (crc : UInt32) :
    LfsProg (LfsBd δ) UInt32 :=
  lfsBdCrcLoop c pcache hint block off (size + 1) 0 size crc

/-! ### Programming -/

/-- The call of `lfs->cfg->prog`. -/
def lfsCfgProg (block off : ℕ) (data : List UInt8) : LfsProg (LfsBd δ) Unit := do
  let s ← get
  let r := c.driver.prog block off data s.dev
  modify fun s => { s with dev := r.2 }
  lfsAssert (r.1 ≤ 0)
  lfsCheck r.1

/-- What `lfs_bd_flush` does to check the data on disk. -/
def validateProg (block off : ℕ) (data : List UInt8) : LfsProg (LfsBd δ) Unit := do
  modify fun s => { s with rcache := lfsCacheDrop s.rcache }
  let res ← lfsBdCmp c none data.length block off data
  if res ≠ .eq then throw (.err lfsErrCorrupt) else pure ()

/-- `lfs_bd_flush` -/
def lfsBdFlush (validate : Bool) : LfsProg (LfsBd δ) Unit := do
  let s ← get
  let pcache := s.pcache
  if pcache.block ≠ lfsBlockNull ∧ pcache.block ≠ lfsBlockInline then do
    lfsAssert (pcache.block < c.blockCount)
    let data := slice pcache.buffer 0 (lfsAlignup pcache.size c.progSize)
    lfsCfgProg c pcache.block pcache.off data
    if validate then validateProg c pcache.block pcache.off data else pure ()
    modify fun s => { s with pcache := lfsCacheZero c s.pcache }
  else pure ()

/-- `lfs_bd_sync` -/
def lfsBdSync (validate : Bool) : LfsProg (LfsBd δ) Unit := do
  modify fun s => { s with rcache := lfsCacheDrop s.rcache }
  lfsBdFlush c validate
  let s ← get
  let r := c.driver.sync s.dev
  modify fun s => { s with dev := r.2 }
  lfsAssert (r.1 ≤ 0)
  lfsCheck r.1

/-- `memcpy` into the program cache -/
def LfsCache.store (pcache : LfsCache) (off : ℕ) (data : List UInt8) : LfsCache :=
  { pcache with
    buffer := overlay pcache.buffer (off - pcache.off) data
    size := max pcache.size (off + data.length - pcache.off) }

/-- The cache is flushed out eagerly if it fills up. -/
def flushFull (validate : Bool) : LfsProg (LfsBd δ) Unit := do
  let s ← get
  if s.pcache.size = c.cacheSize then lfsBdFlush c validate else pure ()

/-- The loop of `lfs_bd_prog`. -/
def lfsBdProgLoop (validate : Bool) (block : ℕ) :
    ℕ → ℕ → List UInt8 → LfsProg (LfsBd δ) Unit
  | 0, _, _ => throw .endless
  | fuel + 1, off, data =>
      if data = [] then pure ()
      else do
        let s ← get
        let pcache := s.pcache
        if block = pcache.block ∧ off ≥ pcache.off ∧ off < pcache.off + c.cacheSize then do
          let diff := min data.length (c.cacheSize - (off - pcache.off))
          modify fun s => { s with pcache := s.pcache.store off (data.take diff) }
          flushFull c validate
          lfsBdProgLoop validate block fuel (off + diff) (data.drop diff)
        else do
          lfsAssert (pcache.block = lfsBlockNull)
          modify fun s => { s with
            pcache := { s.pcache with
              block := block, off := lfsAligndown off c.progSize, size := 0 } }
          lfsBdProgLoop validate block fuel off data

/-- `lfs_bd_prog` -/
def lfsBdProg (validate : Bool) (block off : ℕ) (data : List UInt8) :
    LfsProg (LfsBd δ) Unit := do
  lfsAssert (block = lfsBlockInline ∨ block < c.blockCount)
  lfsAssert (u32 (off + data.length) ≤ c.blockSize)
  lfsBdProgLoop c validate block (2 * data.length + 1) off data

/-- `lfs_bd_erase` -/
def lfsBdErase (block : ℕ) : LfsProg (LfsBd δ) Unit := do
  lfsAssert (block < c.blockCount)
  let s ← get
  let r := c.driver.erase block s.dev
  modify fun s => { s with dev := r.2 }
  lfsAssert (r.1 ≤ 0)
  lfsCheck r.1

end Num487Boot
