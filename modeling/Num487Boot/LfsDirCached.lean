import Num487Boot.LfsDirFetch
import Num487Boot.Lib.Yields

/-!
# Metadata through the Caches

The reads of the caching layer answer as the content of the blocks, so that the functions which
only read find through them what they find on the content.

* `lfsDirFetch_finds`: the fetch of any pair.
-/

namespace Num487Boot

open Exec Memory Relation

variable {δ : Type} {c : LfsSetup δ} {R : δ → BlockDevice → Prop} {d : BlockDevice}
  {pcache : LfsCache}

/-- A read cache that agrees with the device, and a program cache that is left alone. -/
def LfsBd.Serving (c : LfsSetup δ) (R : δ → BlockDevice → Prop) (d : BlockDevice)
    (pcache : LfsCache) (s : LfsBd δ) : Prop :=
  s.Backed c R (fun _ => True) d ∧ s.pcache = pcache

/-- A read through the caches yields what the content has. -/
theorem bdReads_yields (hc : c.Drives R) (hreads : c.ReadsSucceed R) {hint block off size : ℕ}
    (hsum : off + size < 2 ^ 32)
    (hhint : off + size ≤ c.blockSize → 0 < hint ∧ hint ≤ c.blockSize) :
    Yields (LfsBd.Serving c R d pcache) (bdReads c hint block off size)
      (contentReads c.toLfsGeometry d.data hint block off size) := by
  intro s hs
  rw [contentReads]
  by_cases hout : block ≥ c.blockCount ∨ off + size > c.blockSize
  · have hthrow : lfsBdRead c none hint block off size s = .error (.err lfsErrCorrupt) s := by
      have hu32 : u32 ((off : ℤ) + size) = off + size := by rw [u32]; omega
      rw [lfsBdRead, hu32, if_pos hout]
      rfl
    rw [if_pos hout]
    exact ⟨s, reported_error hthrow, hs⟩
  · rw [if_neg hout]
    have hin : off + size ≤ c.blockSize := by omega
    have hblock : block < c.blockCount := by omega
    have hnone : ∀ cache ∈ (none : Option LfsCache), block = cache.block → c.readSize ∣ cache.off :=
      fun cache h => absurd h (Option.not_mem_none cache)
    have hread := lfsBdRead_spec hc hblock hnone (hhint hin).1 (hhint hin).2 hs.1 (.inl trivial) hin
    obtain ⟨bytes, t, hrun, hend⟩ := ends_reported
      (hread.imp (fun _ _ h => h) fun _ _ h => ⟨h.2.1, h.1⟩)
    cases bytes with
    | error code => exact absurd hreads hend.2
    | ok bytes =>
        obtain ⟨rfl, ht, hpc⟩ := hend
        exact ⟨t, hrun, ht, hpc.trans hs.2⟩

section Programs

variable {x : TagScan} {tag : LfsTag}

/-- The reads of a scan. -/
theorem scanRead_yields (hc : c.Drives R) (hreads : c.ReadsSucceed R) {block off size : ℕ}
    (hoff : off ≤ c.blockSize + 4) (hsize : size ≤ 8) :
    Yields (LfsBd.Serving c R d pcache) (bdReads c c.blockSize block off size)
      (contentReads c.toLfsGeometry d.data c.blockSize block off size) := by
  have hbound := c.block_le
  exact bdReads_yields hc hreads (by omega) fun _ => ⟨c.block_pos, Nat.le_refl _⟩

/-- The checksum of a region is that of its content. -/
theorem bdCrc_yields (hc : c.Drives R) (hreads : c.ReadsSucceed R) {block off size : ℕ}
    (hoff : off ≤ c.blockSize) (crc : UInt32) :
    Yields (LfsBd.Serving c R d pcache) (bdCrc (bdReads c) c.blockSize block off size crc)
      (bdCrc (contentReads c.toLfsGeometry d.data) c.blockSize block off size crc) := by
  have hbound := c.block_le
  rw [bdCrc, bdCrc]
  suffices hloop : ∀ fuel i size crc, off + i ≤ c.blockSize →
      Yields (LfsBd.Serving c R d pcache)
        (bdCrcLoop (bdReads c) c.blockSize block off fuel i size crc)
        (bdCrcLoop (contentReads c.toLfsGeometry d.data) c.blockSize block off fuel i size crc) from
    hloop _ 0 size crc hoff
  intro fuel
  induction fuel with
  | zero => exact fun i size crc _ => .pure _
  | succ fuel ih =>
      intro i size crc hi
      rw [bdCrcLoop, bdCrcLoop]
      refine .ite (fun _ => .pure _) fun hsize => ?_
      have hrest : u32 ((c.blockSize : ℤ) - i) = c.blockSize - i := u32_sub (by omega) (by omega)
      rw [hrest]
      dsimp only
      refine (bdReads_yields hc hreads (by omega) fun hin => by omega).bind_id ?_
      cases hread : contentReads c.toLfsGeometry d.data (c.blockSize - i) block (off + i)
        (min size 8) with
      | error err => exact .pure _
      | ok dat =>
          have hin : off + i + min size 8 ≤ c.blockSize := by
            by_contra hout
            rw [contentReads_error (by omega)] at hread
            cases hread
          exact ih (i + min size 8) _ _ (by omega)

/-- A commit tag is judged alike. -/
theorem scanCrc_yields (hc : c.Drives R) (hreads : c.ReadsSucceed R)
    (hoff : x.off ≤ c.blockSize) :
    Yields (LfsBd.Serving c R d pcache) (scanCrc c.toLfsGeometry (bdReads c) tag x)
      (scanCrc c.toLfsGeometry (contentReads c.toLfsGeometry d.data) tag x) := by
  rw [scanCrc, scanCrc]
  refine (scanRead_yields hc hreads (by omega) (by omega)).bind_id ?_
  split
  · exact .pure _
  · exact .ite (fun _ => .pure _) (fun _ => .pure _)

/-- A tag that changes the directory is taken in alike. -/
theorem scanModify_yields (hc : c.Drives R) (hreads : c.ReadsSucceed R)
    (hoff : x.off ≤ c.blockSize) :
    Yields (LfsBd.Serving c R d pcache) (scanModify c.toLfsGeometry (bdReads c) tag x)
      (scanModify c.toLfsGeometry (contentReads c.toLfsGeometry d.data) tag x) := by
  have hdata : x.off + 4 ≤ c.blockSize + 4 := Nat.add_le_add_right hoff 4
  rw [scanModify, scanModify]
  refine .ite (fun _ => .ite (fun _ => .pure _) (fun _ => .pure _)) fun _ => ?_
  refine .ite (fun _ => .pure _) fun _ => ?_
  refine .ite (fun _ => ?_) fun _ => .ite (fun _ => ?_) (fun _ => .pure _)
  · refine (scanRead_yields hc hreads hdata (Nat.le_refl 8)).bind_id ?_
    split <;> exact .pure _
  · refine (scanRead_yields hc hreads hdata (Nat.le_refl 8)).bind_id ?_
    split
    · exact .ite (fun _ => .pure _) (fun _ => .pure _)
    · exact .pure _

/-- The match against no tag reads nothing. -/
theorem scanMatch_yields (tag : LfsTag) (x : TagScan) :
    Yields (LfsBd.Serving c R d pcache)
      (scanMatch 0xffffffff 0xffffffff (fun _ _ _ => (pure 0 : LfsProg (LfsBd δ) ℤ)) tag x)
      (scanMatch 0xffffffff 0xffffffff (fun _ _ _ => (pure 0 : Id ℤ)) tag x) := by
  rw [scanMatch, scanMatch]
  refine .ite (fun _ => ?_) (fun _ => .pure _)
  exact (Yields.pure _).bind_id (.ite (fun _ => .pure _) (fun _ => .pure _))

/-- A tag other than a commit is taken in alike. -/
theorem scanAttr_yields (hc : c.Drives R) (hreads : c.ReadsSucceed R)
    (hfits : x.off + lfsTagDsize tag ≤ c.blockSize) :
    Yields (LfsBd.Serving c R d pcache)
      (scanAttr c.toLfsGeometry (bdReads c) 0xffffffff 0xffffffff (fun _ _ _ => pure 0) tag x)
      (scanAttr c.toLfsGeometry (contentReads c.toLfsGeometry d.data) 0xffffffff 0xffffffff
        (fun _ _ _ => (pure 0 : Id ℤ)) tag x) := by
  have hdsize := four_le_lfsTagDsize tag
  rw [scanAttr, scanAttr]
  refine (bdCrc_yields hc hreads (by omega) _).bind_id ?_
  split
  split
  · exact .pure _
  · dsimp only
    refine (scanModify_yields hc hreads ?_).bind_id ?_
    · exact Nat.le_trans (Nat.le_add_right _ _) hfits
    generalize scanModify c.toLfsGeometry (contentReads c.toLfsGeometry d.data) tag _ = r
    obtain ⟨y, step⟩ := r
    exact .ite (fun _ => scanMatch_yields _ _) (fun _ => .pure _)

/-- The scan of `lfs_dir_fetch`, in the caches. -/
def bdFetchTag (c : LfsSetup δ) (x : TagScan) : LfsProg (LfsBd δ) (TagScan × ScanStep) :=
  scanTag c.toLfsGeometry (bdReads c) 0xffffffff 0xffffffff (fun _ _ _ => pure 0) x

/-- One round of the tag loop. -/
theorem bdFetchTag_yields (hc : c.Drives R) (hreads : c.ReadsSucceed R)
    (hoff : x.off + lfsTagDsize x.ptag ≤ c.blockSize) :
    Yields (LfsBd.Serving c R d pcache) (bdFetchTag c x)
      (fetchTag c.toLfsGeometry d.data x) := by
  rw [bdFetchTag, fetchTag, scanTag, scanTag]
  refine (scanRead_yields hc hreads (by omega) (by omega)).bind_id ?_
  split
  · exact .pure _
  · refine .ite (fun _ => .pure _) fun _ => ?_
    refine .ite (fun _ => .pure _) fun hfits => ?_
    refine .ite (fun _ => scanCrc_yields hc hreads hoff) fun _ => ?_
    exact scanAttr_yields hc hreads (not_lt.mp hfits)

/-- The tag loop, which stays in its block. -/
theorem fetchScan_yields (hc : c.Drives R) (hreads : c.ReadsSucceed R) {fuel : ℕ}
    {dir : LfsMdir} {p : LogPos} (h : Scanned c.toLfsGeometry (d.data dir.pair.1) dir p x)
    (hblock : dir.pair.1 < c.blockCount) :
    Yields (LfsBd.Serving c R d pcache)
      (scanLoop c.toLfsGeometry (bdReads c) 0xffffffff 0xffffffff (fun _ _ _ => pure 0) fuel x)
      (fetchScan c.toLfsGeometry d.data fuel x) := by
  induction fuel generalizing p x with
  | zero => exact .pure _
  | succ fuel ih =>
      have hplace := h.place.1
      have hbounds := h.logged.bounds
      have hoff := h.off_eq
      rw [← hplace] at h hblock
      have hstep := h.step hblock
      rw [ScanEnds, hplace] at hstep
      rw [hplace] at hblock
      rw [scanLoop, fetchScan, scanLoop]
      refine (bdFetchTag_yields hc hreads (by omega)).bind_id ?_
      rcases hstep with ⟨q, y, -, hy, hscan⟩ | ⟨y, -, hy, -⟩
      · rw [hy]
        exact ih hscan
      · rw [hy]
        exact .pure _

/-- The check whether the rest of the block is erased. -/
theorem checkErased_yields (hc : c.Drives R) (hreads : c.ReadsSucceed R)
    (hoff : x.dir.off ≤ c.blockSize) :
    Yields (LfsBd.Serving c R d pcache) (checkErased c.toLfsGeometry (bdReads c) x)
      (checkErased c.toLfsGeometry (contentReads c.toLfsGeometry d.data) x) := by
  rw [checkErased, checkErased]
  refine .ite (fun _ => ?_) (fun _ => .pure _)
  exact (bdCrc_yields hc hreads hoff _).bind_id (.pure _)

/-- The end of a fetch. -/
theorem fetchEnd_yields (hc : c.Drives R) (hreads : c.ReadsSucceed R)
    (hoff : x.dir.off ≤ c.blockSize) (gdisk : LfsGstate) :
    Yields (LfsBd.Serving c R d pcache) (fetchEnd c.toLfsGeometry (bdReads c) gdisk x)
      (fetchEnd c.toLfsGeometry (contentReads c.toLfsGeometry d.data) gdisk x) := by
  rw [fetchEnd, fetchEnd]
  refine (checkErased_yields hc hreads hoff).bind_id ?_
  split
  split <;> exact .pure _

variable (pcache) in
/-- The revision count of a block. -/
theorem readRev_yields (hc : c.Drives R) (hreads : c.ReadsSucceed R) (block : ℕ) :
    Yields (LfsBd.Serving c R d pcache) (readRev (bdReads c) block)
      (readRev (contentReads c.toLfsGeometry d.data) block) := by
  have hblock := c.block_ge
  rw [readRev, readRev]
  refine (bdReads_yields hc hreads (by omega) fun _ => ⟨by omega, by omega⟩).bind_id ?_
  split <;> exact .pure _

end Programs

section Fetch

variable {dir : LfsMdir} {x : TagScan}

/-- The last commit ends in the block. -/
theorem LastCommit.off_le {g : LfsGeometry} {mem : ℕ → UInt8} (h : LastCommit g mem dir) :
    dir.off ≤ g.blockSize := by
  obtain ⟨tags, hcommit, -⟩ := h.found
  exact hcommit.1.bounds.2.1

/-- What a fetch has found ends in the block, if it has found anything. -/
theorem Found.off_le {g : LfsGeometry} {mem : ℕ → UInt8} (h : Found g mem dir)
    (hoff : dir.off ≠ 0) : dir.off ≤ g.blockSize := by
  rw [Found, if_neg hoff] at h
  exact h.off_le

variable (pcache) in
/-- One round of the fetch. -/
theorem fetchBlock_yields (hc : c.Drives R) (hreads : c.ReadsSucceed R)
    (hblock : dir.pair.1 < c.blockCount) (hoff : dir.off = 0)
    (hrev : dir.rev = revision (d.data dir.pair.1)) {besttag : LfsTag}
    (hbest : besttag = 0xffffffff) (seed : UInt32) :
    Yields (LfsBd.Serving c R d pcache)
      (fetchBlock c.toLfsGeometry (bdReads c) 0xffffffff 0xffffffff (fun _ _ _ => pure 0) dir
        besttag seed)
      (fetchBlock c.toLfsGeometry (contentReads c.toLfsGeometry d.data) 0xffffffff 0xffffffff
        (fun _ _ _ => (pure 0 : Id ℤ)) dir besttag seed) := by
  rw [hbest]
  exact fetchScan_yields hc hreads (scanned_start hoff hrev seed) hblock

variable (dir) in
/-- The fetch, from the block with the newer revision on. -/
theorem fetchOrdered_yields (hc : c.Drives R) (hreads : c.ReadsSucceed R)
    (h₁ : dir.pair.1 < c.blockCount) (h₂ : dir.pair.2 < c.blockCount) (hoff : dir.off = 0)
    (hrev : dir.rev = revision (d.data dir.pair.1)) (gdisk : LfsGstate) (seed : UInt32) :
    Yields (LfsBd.Serving c R d pcache)
      (fetchOrdered c.toLfsGeometry (bdReads c) 0xffffffff 0xffffffff (fun _ _ _ => pure 0) gdisk
        dir (revision (d.data dir.pair.2)) seed)
      (fetchOrdered c.toLfsGeometry (contentReads c.toLfsGeometry d.data) 0xffffffff 0xffffffff
        (fun _ _ _ => (pure 0 : Id ℤ)) gdisk dir (revision (d.data dir.pair.2)) seed) := by
  obtain ⟨x, hx, hpair, -, hbest, hfound⟩ := fetchBlock_finds d.data dir h₁ hoff hrev rfl seed
  have hfirst := fetchBlock_yields pcache hc hreads h₁ hoff hrev rfl seed
  rw [hx] at hfirst
  rw [fetchOrdered, fetchOrdered, hx]
  refine hfirst.bind_id ?_
  show Yields _ (if x.dir.off ≠ 0 then _ else _) (if x.dir.off ≠ 0 then _ else _)
  refine .ite (fun h => fetchEnd_yields hc hreads (hfound.off_le h) gdisk) fun h => ?_
  have hother : (x.dir.other (revision (d.data dir.pair.2))).pair.1 = dir.pair.2 := by
    rw [LfsMdir.other, hpair]
    rfl
  have hnone : (x.dir.other (revision (d.data dir.pair.2))).off = 0 := not_not.mp h
  have hrev₂ : (x.dir.other (revision (d.data dir.pair.2))).rev
      = revision (d.data (x.dir.other (revision (d.data dir.pair.2))).pair.1) := by
    rw [hother]
    rfl
  rw [← hother] at h₂
  obtain ⟨y, hy, -, -, -, hfound₂⟩ := fetchBlock_finds d.data _ h₂ hnone hrev₂ hbest x.seed
  have hsecond := fetchBlock_yields pcache hc hreads h₂ hnone hrev₂ hbest x.seed
  rw [hy] at hsecond
  rw [hy]
  refine hsecond.bind_id ?_
  show Yields _ (if y.dir.off ≠ 0 then _ else _) (if y.dir.off ≠ 0 then _ else _)
  exact .ite (fun h => fetchEnd_yields hc hreads (hfound₂.off_le h) gdisk) (fun _ => .pure _)

/-- `lfs_dir_fetch` through the caches does what it does on the content. -/
theorem lfsDirFetch_yields (hc : c.Drives R) (hreads : c.ReadsSucceed R) {pair : ℕ × ℕ}
    (gdisk : LfsGstate) (dir : LfsMdir) (seed : UInt32) :
    Yields (LfsBd.Serving c R d pcache)
      (lfsDirFetch c.toLfsGeometry (bdReads c) gdisk dir pair seed)
      (lfsDirFetch c.toLfsGeometry (contentReads c.toLfsGeometry d.data) gdisk dir pair seed) := by
  have hsize := c.block_ge
  rw [lfsDirFetch, lfsDirFetch, lfsDirFetchmatch, lfsDirFetchmatch]
  refine .ite (fun _ => .pure _) fun hin => ?_
  have h₁ : pair.1 < c.blockCount := by omega
  have h₂ : pair.2 < c.blockCount := by omega
  have hrev : ∀ {block}, block < c.blockCount →
      Yields (LfsBd.Serving c R d pcache) (readRev (bdReads c) block)
        (.ok (some (revision (d.data block)))) := by
    intro block h
    have hanswers := readRev_yields (d := d) pcache hc hreads block
    rwa [readRev_content h] at hanswers
  rw [readRev_content h₁, readRev_content h₂]
  refine (hrev h₁).bind_id ((hrev h₂).bind_id ?_)
  refine .ite (fun _ => ?_) (fun _ => ?_)
  · exact fetchOrdered_yields { dir with
      pair := pair.swap, rev := revision (d.data pair.2), off := 0 } hc hreads h₂ h₁ rfl rfl
      gdisk seed
  · exact fetchOrdered_yields { dir with
      pair := pair, rev := revision (d.data pair.1), off := 0 } hc hreads h₁ h₂ rfl rfl gdisk
      seed

/-- **A fetch finds the last commit of a pair**, on any disk. -/
theorem lfsDirFetch_finds (hc : c.Drives R) (hreads : c.ReadsSucceed R) {pair : ℕ × ℕ}
    (h₁ : pair.1 < c.blockCount) (h₂ : pair.2 < c.blockCount) {s : LfsBd δ}
    (hs : s.Backed c R (fun _ => True) d) (gdisk : LfsGstate) (dir : LfsMdir) (seed : UInt32) :
    ∃ b t, lfsDirFetch c.toLfsGeometry (bdReads c) gdisk dir pair seed s = .ok b t ∧
      t.Backed c R (fun _ => True) d ∧ t.pcache = s.pcache ∧
      Fetched c.toLfsGeometry d.data (newerFirst d.data pair) b := by
  obtain ⟨t, hrun, ht, hpcache⟩ := lfsDirFetch_yields hc hreads gdisk dir seed s ⟨hs, rfl⟩
  exact ⟨_, t, hrun, ht, hpcache, fetch_finds h₁ h₂ gdisk dir seed⟩

end Fetch

/-- A directory with one empty file, in a commit of three tags. -/
def oneFile : List UInt8 :=
  [1, 0, 0, 0, 0xBF, 0xEF, 0xFF, 0xFF, 0x40, 0, 0, 1, 0x61, 0x50, 0x1F, 0xFC, 5, 0xA5, 0x3F, 0x20,
    0x55]

/-- A device with the block `oneFile` and erased cells after it. -/
def oneFileDevice : BlockDevice := .ofMem fun a => oneFile.getD a 0xFF

/-- The log of `oneFile` ends in its one commit. -/
theorem committed_oneFile : Committed forgetful.toLfsGeometry (oneFileDevice.data 0)
    ⟨21, 21, 0x500FFC04, [(0x40100000, 4), (0x00100001, 8), (0x500FFC04, 13)]⟩ := by
  have hcreate : TagAt forgetful.toLfsGeometry (oneFileDevice.data 0) .first 0x40100000 := by
    decide
  have hname : TagAt forgetful.toLfsGeometry (oneFileDevice.data 0)
      ⟨0, 8, 0x40100000, [(0x40100000, 4)]⟩ 0x00100001 := by
    decide
  have hcrc : TagAt forgetful.toLfsGeometry (oneFileDevice.data 0)
      ⟨0, 13, 0x00100001, [(0x40100000, 4), (0x00100001, 8)]⟩ 0x500FFC04 := by
    decide
  have hlog := ReflTransGen.tail (ReflTransGen.single (Accepts.attr hcreate (by decide)))
    (Accepts.attr hname (by decide))
  exact ⟨hlog.tail (.crc hcrc (by decide) (by decide +kernel)), rfl⟩

/-- The directory is found. -/
theorem lfsDirFetch_finds_oneFile : ∃ b t,
    lfsDirFetch forgetful.toLfsGeometry (bdReads forgetful) ⟨0, (0, 0)⟩
        ⟨(0, 0), 0, 0, 0, 0, false, false, (0, 0)⟩ (0, 1) 0
        ⟨oneFileDevice, ⟨lfsBlockNull, 0, 0, fun _ => 0⟩, ⟨lfsBlockNull, 0, 0, fun _ => 0⟩⟩
      = .ok b t ∧ b.dir.pair = (0, 1) ∧ 21 ≤ b.dir.off := by
  have h₁ : ((0, 1) : ℕ × ℕ).1 < forgetful.blockCount := by decide
  have h₂ : ((0, 1) : ℕ × ℕ).2 < forgetful.blockCount := by decide
  obtain ⟨b, t, hrun, -, -, hb⟩ := lfsDirFetch_finds drives_forgetful readsSucceed_forgetful h₁ h₂
    (s := ⟨oneFileDevice, ⟨lfsBlockNull, 0, 0, fun _ => 0⟩, ⟨lfsBlockNull, 0, 0, fun _ => 0⟩⟩)
    ⟨rfl, fun h => absurd h (by decide)⟩ ⟨0, (0, 0)⟩ ⟨(0, 0), 0, 0, 0, 0, false, false, (0, 0)⟩ 0
  have horder : newerFirst oneFileDevice.data (0, 1) = (0, 1) := by decide
  rw [horder] at hb
  refine ⟨b, t, hrun, ?_⟩
  cases hb with
  | newer hpair hdir => exact ⟨hpair, hdir.last _ committed_oneFile⟩
  | older hnone => exact absurd committed_oneFile (hnone _)
  | corrupt hnone => exact absurd committed_oneFile (hnone _)

end Num487Boot
