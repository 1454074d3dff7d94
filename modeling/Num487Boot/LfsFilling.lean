import Num487Boot.LfsCache

/-!
# Filling a Block

LittleFS writes a block of file data from its start, a piece at a time, through a program
cache it flushes whenever it is full, and checks what it flushed against the device. The
device may store the wrong bytes without saying so, as long as it stays inside the block.

## Main results

* `lfsBdFlush_spec`: a flush that succeeds has put exactly the cache on the device.
* `lfsBdProg_spec`: appending to a block that is being filled; a failure leaves the other
  blocks alone.
* `LfsBd.Filling.flush`: a block whose last flush succeeded holds what was written.
-/

namespace Num487Boot

open Exec Memory

variable {δ : Type} {c : LfsSetup δ} {R : δ → BlockDevice → Prop} {T : ℕ → Prop}

/-- A block of the device is neither of the two that stand for none. -/
theorem LfsGeometry.lt_null (g : LfsGeometry) {block : ℕ} (h : block < g.blockCount) :
    block ≠ lfsBlockNull ∧ block ≠ lfsBlockInline := by
  have := g.count_le
  rw [lfsBlockNull, lfsBlockInline]
  omega

namespace LfsCache

variable {rcache : LfsCache} {T' : ℕ → Prop} {d d' : BlockDevice}

/-- A cache that is right about more blocks is right about fewer. -/
theorem Mirrors.mono (h : rcache.Mirrors c T d) (hT : ∀ b, T' b → T b) : rcache.Mirrors c T' d :=
  fun hblock ht => h hblock (hT _ ht)

/-- A change of one block does not matter where the cache is not trusted with it. -/
theorem Mirrors.sameBut {block : ℕ} (h : rcache.Mirrors c T d) (hd : d.SameBut block d')
    (hT : ∀ b, T b → b ≠ block) : rcache.Mirrors c T d' := by
  intro hblock ht
  obtain ⟨hoff, hin, hbuffer⟩ := h hblock ht
  refine ⟨hoff, hin, fun k hk => ?_⟩
  rw [hbuffer k hk, (hd _ (hT _ ht)).1]

/-- A cache that was dropped agrees with everything. -/
theorem mirrors_drop (rcache : LfsCache) (c : LfsSetup δ) (T : ℕ → Prop) (d : BlockDevice) :
    (lfsCacheDrop rcache).Mirrors c T d :=
  fun hblock _ => absurd rfl (c.lt_null hblock).1

end LfsCache

/-- How an operation that writes to one block ends early: the device went wrong, the other blocks
are as they were, and so is what the read cache holds of them. -/
def WriteFails (c : LfsSetup δ) (R : δ → BlockDevice → Prop) (T : ℕ → Prop) (d₀ : BlockDevice)
    (block : ℕ) (e : LfsHalt) (t : LfsBd δ) : Prop :=
  ¬ c.Reliable R ∧ e.Reports ∧
    ∃ d, R t.dev d ∧ d₀.SameBut block d ∧ t.rcache.Mirrors c (fun b => T b ∧ b ≠ block) d

/-! ### Flushing -/

/-- The device programs some bytes where it was told to, or fails. -/
theorem lfsCfgProg_spec (hc : c.Drives R) {d : BlockDevice} {s : LfsBd δ} {block off : ℕ}
    {data : List UInt8} (hdev : R s.dev d) (hin : c.InBlock c.progSize block off data.length)
    (herased : ∀ k < data.length, d.erased block (off + k) = true)
    (hmirrors : s.rcache.Mirrors c (fun b => T b ∧ b ≠ block) d) :
    Ends (fun _ t => ∃ bytes : List UInt8, bytes.length = data.length ∧
        (c.Reliable R → bytes = data) ∧ t = { s with dev := t.dev } ∧
        R t.dev (d.program block off bytes))
      (WriteFails c R T d block) (lfsCfgProg c block off data s) := by
  obtain ⟨hneg, hok, d', hdev', hsame⟩ := hc.prog hdev hin herased
  rw [lfsCfgProg, bind_of_ok (get_apply _), bind_of_ok (modify_apply _ _), lfsAssert, if_pos hneg,
    bind_of_ok (pure_apply _ _)]
  refine ends_lfsCheck hneg (fun h => ?_) fun hfail => ?_
  · by_cases hrel : c.Reliable R
    · exact ⟨data, rfl, fun _ => rfl, rfl, (hrel.prog hdev hin herased).2⟩
    · obtain ⟨bytes, hlen, hbytes⟩ := hok h
      exact ⟨bytes, hlen, fun h => absurd h hrel, rfl, hbytes⟩
  · have hlt : (c.driver.prog block off data s.dev).1 < 0 := hfail
    exact ⟨fun hrel => Int.ne_of_lt hlt (hrel.prog hdev hin herased).1, hfail, d', hdev', hsame,
      hmirrors.sameBut hsame fun _ h => h.2⟩

/-- The data on disk is checked. -/
theorem validateProg_spec (hc : c.Drives R) (hreads : c.ReadsSucceed R) {d : BlockDevice}
    {s : LfsBd δ} {block off : ℕ} {data : List UInt8} (hdev : R s.dev d)
    (hin : c.InBlock c.progSize block off data.length) :
    Ends (fun _ t => slice (d.data block) off data.length = data ∧ t.Backed c R (fun _ => True) d ∧
        t.pcache = s.pcache)
      (fun e t => slice (d.data block) off data.length ≠ data ∧ e.Reports ∧
        t.Backed c R (fun _ => True) d) (validateProg c block off data s) := by
  rw [validateProg, bind_of_ok (modify_apply _ _)]
  have hback : LfsBd.Backed c R (fun _ => True) d { s with rcache := lfsCacheDrop s.rcache } :=
    ⟨hdev, LfsCache.mirrors_drop s.rcache c _ d⟩
  have hlen : data.length ≤ c.blockSize := by
    have := hin.2.2.2.2
    omega
  have hnone : ∀ cache ∈ (none : Option LfsCache), block = cache.block → c.readSize ∣ cache.off :=
    fun _ h => by cases h
  have hcmp := lfsBdCmp_spec hc hin.1 hnone hlen hback (.inl trivial) (Nat.le_refl _) hin.2.2.2.2
  refine (hcmp.imp (fun _ _ h => h) fun _ _ h => absurd hreads h.1).bind ?_
  rintro _ t ⟨rfl, ht, hpc⟩
  have hsame : (slice (seen none d block) off data.length).length = data.length :=
    length_slice _ _ _
  split
  · rename_i hne
    have hneg : lfsErrCorrupt < 0 := by decide
    exact ⟨fun h => hne ((memcmp_eq_iff hsame).mpr h), hneg, ht⟩
  · rename_i heq
    exact ⟨(memcmp_eq_iff hsame).mp (not_not.mp heq), ht, hpc⟩

/-- **A flush that succeeds has put the cache on the device.** -/
theorem lfsBdFlush_spec (hc : c.Drives R) (hreads : c.ReadsSucceed R) {d : BlockDevice}
    {s : LfsBd δ} {block : ℕ} {data : List UInt8} (hdev : R s.dev d)
    (hblock : block < c.blockCount) (hcache : s.pcache.block = block)
    (hoff : c.progSize ∣ s.pcache.off) (hpos : 0 < s.pcache.size)
    (hend : s.pcache.off + s.pcache.size ≤ c.blockSize)
    (herased : ∀ o, s.pcache.off ≤ o → o < c.blockSize → d.erased block o = true)
    (hmirrors : s.rcache.Mirrors c (fun b => T b ∧ b ≠ block) d)
    (hdata : slice s.pcache.buffer 0 (lfsAlignup s.pcache.size c.progSize) = data) :
    Ends (fun _ t => R t.dev (d.program block s.pcache.off data) ∧
        t.rcache.Mirrors c (fun _ => True) (d.program block s.pcache.off data) ∧
        t.pcache = lfsCacheZero c s.pcache)
      (WriteFails c R T d block) (lfsBdFlush c true s) := by
  have hbound := c.block_le
  have hprog := c.prog_le_block
  -- the units the cache is flushed in
  have hup : s.pcache.size ≤ lfsAlignup s.pcache.size c.progSize :=
    le_lfsAlignup c.prog_pos (by omega)
  have hup' : lfsAlignup s.pcache.size c.progSize ≤ c.blockSize - s.pcache.off :=
    lfsAlignup_le c.prog_pos (by omega) (Nat.dvd_sub c.prog_dvd_block hoff) (by omega)
  have hlen : data.length = lfsAlignup s.pcache.size c.progSize := by rw [← hdata, length_slice]
  have hin : c.InBlock c.progSize block s.pcache.off data.length :=
    ⟨hblock, hoff, hlen ▸ dvd_lfsAlignup _ _, by omega, by omega⟩
  rw [lfsBdFlush, bind_of_ok (get_apply _), if_pos (hcache ▸ c.lt_null hblock), hcache, lfsAssert,
    if_pos hblock, bind_of_ok (pure_apply _ _), hdata]
  refine (lfsCfgProg_spec hc hdev hin (fun k hk => herased _ (by omega) (by omega))
    hmirrors).bind ?_
  rintro _ t ⟨bytes, hbytes, hrel, ht, hdevt⟩
  have hsame := d.sameBut_program block s.pcache.off bytes
  have hdata' : slice ((d.program block s.pcache.off bytes).data block) s.pcache.off data.length
      = bytes := by
    rw [BlockDevice.program_data, ← hbytes, slice_overlay]
  rw [if_pos rfl]
  have hvalid := (validateProg_spec (s := t) hc hreads hdevt hin).imp (fun _ _ h => h) fun e u hu =>
    show WriteFails c R T d block e u from
      ⟨fun h => hu.1 (hdata'.trans (hrel h)), hu.2.1, _, hu.2.2.dev, hsame,
        hu.2.2.rcache.mono fun _ _ => trivial⟩
  refine hvalid.bind fun _ u hu => ?_
  obtain ⟨heq, hback, hpc⟩ := hu
  obtain rfl : bytes = data := hdata'.symm.trans heq
  have hpcs : u.pcache = s.pcache := hpc.trans (by rw [ht])
  exact ⟨hback.dev, hback.rcache, congrArg (lfsCacheZero c) hpcs⟩

/-! ### Filling -/

/-- Of the bytes `w` of a block, the first `m` are on the device `d`, and what follows them
there is erased. The device differs from `d₀` at most in this block, which the read cache is
trusted with once something of it was flushed. -/
structure LfsBd.Partly (c : LfsSetup δ) (R : δ → BlockDevice → Prop) (T : ℕ → Prop)
    (d₀ : BlockDevice) (block : ℕ) (w : List UInt8) (m : ℕ) (d : BlockDevice) (s : LfsBd δ) :
    Prop where
  dev : R s.dev d
  same : d₀.SameBut block d
  le : m ≤ w.length
  aligned : c.cacheSize ∣ m
  flushed : slice (d.data block) 0 m = w.take m
  erased : ∀ o, m ≤ o → o < c.blockSize → d.erased block o = true
  rcache : s.rcache.Mirrors c (fun b => T b ∧ (b = block → 0 < m)) d

/-- The program cache holds the bytes of `w` from the `m`-th on, with room for more. -/
structure LfsCache.HoldsFrom (pcache : LfsCache) (c : LfsSetup δ) (block : ℕ) (w : List UInt8)
    (m : ℕ) : Prop where
  block_eq : pcache.block = block
  off_eq : pcache.off = m
  size_eq : m + pcache.size = w.length
  size_lt : pcache.size < c.cacheSize
  buffer_eq : slice pcache.buffer 0 pcache.size = w.drop m

/-- The block is being filled from its start, so far with the bytes `w`. -/
def LfsBd.Filling (c : LfsSetup δ) (R : δ → BlockDevice → Prop) (T : ℕ → Prop)
    (d₀ : BlockDevice) (block : ℕ) (w : List UInt8) (s : LfsBd δ) : Prop :=
  ∃ m d, s.Partly c R T d₀ block w m d ∧
    (s.pcache.block = lfsBlockNull ∧ m = w.length ∨
      s.pcache.HoldsFrom c block w m ∧ 0 < s.pcache.size)

section Filling

variable {d₀ d : BlockDevice} {block : ℕ} {w : List UInt8} {s : LfsBd δ}

/-- A full cache is flushed. -/
theorem LfsBd.Partly.flush (hc : c.Drives R) (hreads : c.ReadsSucceed R)
    (hblock : block < c.blockCount) {m : ℕ} (hs : s.Partly c R T d₀ block w m d)
    (hcache : s.pcache.block = block) (hoff : s.pcache.off = m) (hpos : 0 < s.pcache.size)
    (hsize : m + s.pcache.size = w.length) (hw : w.length ≤ c.blockSize)
    (hbuffer : slice s.pcache.buffer 0 s.pcache.size = w.drop m) :
    Ends (fun _ t => ∃ d', R t.dev d' ∧ d₀.SameBut block d' ∧
        slice (d'.data block) 0 w.length = w ∧
        (∀ o, m + lfsAlignup s.pcache.size c.progSize ≤ o → o < c.blockSize →
          d'.erased block o = true) ∧
        t.rcache.Mirrors c (fun _ => True) d' ∧ t.pcache = lfsCacheZero c s.pcache)
      (WriteFails c R T d₀ block) (lfsBdFlush c true s) := by
  have hflush := lfsBdFlush_spec hc hreads hs.dev hblock hcache
    (hoff ▸ Nat.dvd_trans c.prog_dvd hs.aligned) hpos (by omega) (hoff ▸ hs.erased)
    (hs.rcache.mono fun b hb => ⟨hb.1, fun h => absurd h hb.2⟩) rfl
  have hbound := c.block_le
  have hprog := c.prog_le_block
  have hup : s.pcache.size ≤ lfsAlignup s.pcache.size c.progSize :=
    le_lfsAlignup c.prog_pos (by omega)
  rw [hoff] at hflush
  refine hflush.imp (fun _ t ht => ⟨_, ht.1, ?_, ?_, fun o ho hlt => ?_, ht.2⟩) fun e t ht => ?_
  · exact hs.same.trans (d.sameBut_program block m _)
  · have hhead : slice (overlay (d.data block) m
        (slice s.pcache.buffer 0 (lfsAlignup s.pcache.size c.progSize))) 0 m = w.take m := by
      rw [← hs.flushed]
      exact slice_congr fun k hk => overlay_apply_of_lt (by omega)
    rw [BlockDevice.program_data, ← hsize, slice_append, hhead, Nat.zero_add,
      slice_overlay_slice hup, hbuffer, List.take_append_drop]
  · have hout : ¬ (block = block ∧ m ≤ o ∧
        o < m + (slice s.pcache.buffer 0 (lfsAlignup s.pcache.size c.progSize)).length) := by
      rw [length_slice]
      omega
    rw [BlockDevice.program_erased, decide_eq_false hout, hs.erased o (by omega) hlt]
    rfl
  · obtain ⟨hrel, hreports, d', hdev, hsame, hmirrors⟩ := ht
    exact ⟨hrel, hreports, d', hdev, hs.same.trans hsame, hmirrors⟩

/-- Storing the next bytes in the cache. -/
theorem LfsCache.HoldsFrom.store {pcache : LfsCache} {m : ℕ} (h : pcache.HoldsFrom c block w m)
    (data : List UInt8) :
    (pcache.store w.length data).block = block ∧ (pcache.store w.length data).off = m ∧
      m + (pcache.store w.length data).size = (w ++ data).length ∧
      (pcache.store w.length data).size = pcache.size + data.length ∧
      slice (pcache.store w.length data).buffer 0 (pcache.store w.length data).size
        = (w ++ data).drop m := by
  have hsize := h.size_eq
  have hoff := h.off_eq
  have hnew : (pcache.store w.length data).size = pcache.size + data.length := by
    have hstored : (pcache.store w.length data).size
        = max pcache.size (w.length + data.length - pcache.off) := rfl
    omega
  refine ⟨h.block_eq, hoff, by rw [hnew, List.length_append]; omega, hnew, ?_⟩
  have hindex : w.length - pcache.off = pcache.size := by omega
  have hhead : slice (overlay pcache.buffer pcache.size data) 0 pcache.size
      = slice pcache.buffer 0 pcache.size :=
    slice_congr fun k hk => overlay_apply_of_lt (by omega)
  rw [hnew, LfsCache.store, hindex, slice_append, hhead, h.buffer_eq, Nat.zero_add, slice_overlay,
    List.drop_append_of_le_length (by omega)]

/-- More bytes to write do not change what was flushed. -/
theorem LfsBd.Partly.append {m : ℕ} (hs : s.Partly c R T d₀ block w m d) (pcache : LfsCache)
    (data : List UInt8) :
    LfsBd.Partly c R T d₀ block (w ++ data) m d { s with pcache := pcache } where
  dev := hs.dev
  same := hs.same
  le := by
    have := hs.le
    rw [List.length_append]
    omega
  aligned := hs.aligned
  flushed := by rw [List.take_append_of_le_length hs.le, hs.flushed]
  erased := hs.erased
  rcache := hs.rcache

/-- One round of the loop of `lfs_bd_prog` on a prepared cache: it takes what fits, and is
flushed if it is full. -/
theorem LfsBd.Partly.progRound (hc : c.Drives R) (hreads : c.ReadsSucceed R)
    (hblock : block < c.blockCount) {m : ℕ} {piece : List UInt8}
    (hs : s.Partly c R T d₀ block w m d) (hheld : s.pcache.HoldsFrom c block w m)
    (hpos : 0 < piece.length) (hpiece : piece.length ≤ c.cacheSize - s.pcache.size)
    (hw : (w ++ piece).length ≤ c.blockSize) :
    Ends (fun _ t => t.Filling c R T d₀ block (w ++ piece)) (WriteFails c R T d₀ block)
      (flushFull c true { s with pcache := s.pcache.store w.length piece }) := by
  obtain ⟨hb, hoff, hsize, hgrown, hbuffer⟩ := hheld.store piece
  have hpart := hs.append (s.pcache.store w.length piece) piece
  have hlt := hheld.size_lt
  have hsome : 0 < (s.pcache.store w.length piece).size := by omega
  rw [flushFull, bind_of_ok (get_apply _)]
  split
  · rename_i h
    have hfull : (s.pcache.store w.length piece).size = c.cacheSize := h
    have hflush := hpart.flush hc hreads hblock hb hoff hsome hsize hw hbuffer
    refine hflush.imp (fun _ t ht => ?_) fun _ _ h => h
    obtain ⟨d', hdev, hsame, hdata, herased, hmirrors, hzero⟩ := ht
    have hunit : lfsAlignup (s.pcache.store w.length piece).size c.progSize = c.cacheSize := by
      have hbound := c.block_le
      have hle := c.prog_le_block
      have hcache := c.cache_le_block
      rw [hfull]
      exact lfsAlignup_of_dvd c.prog_pos (by omega) c.prog_dvd
    rw [hunit] at herased
    refine ⟨_, d', ⟨hdev, hsame, Nat.le_refl _, ?_, ?_, ?_, hmirrors.mono fun _ _ => trivial⟩,
      .inl ⟨by rw [hzero]; rfl, rfl⟩⟩
    · rw [← hsize, hfull]
      exact Nat.dvd_add hs.aligned (Nat.dvd_refl _)
    · rw [hdata, List.take_length]
    · rw [← hsize, hfull]
      exact herased
  · rename_i h
    have hroom : (s.pcache.store w.length piece).size ≠ c.cacheSize := h
    have hless : (s.pcache.store w.length piece).size < c.cacheSize := by omega
    exact ⟨m, d, hpart, .inr ⟨⟨hb, hoff, hsize, hless, hbuffer⟩, hsome⟩⟩

/-- The loop of `lfs_bd_prog`, with fuel for a preparation and a copy of every byte to come. -/
theorem lfsBdProgLoop_spec (hc : c.Drives R) (hreads : c.ReadsSucceed R)
    (hblock : block < c.blockCount) (fuel : ℕ) (w data : List UInt8) (s : LfsBd δ)
    (hw : w.length + data.length ≤ c.blockSize)
    (hs : s.Filling c R T d₀ block w ∧ 2 * data.length < fuel ∨
      (∃ m d, s.Partly c R T d₀ block w m d ∧ s.pcache.HoldsFrom c block w m) ∧ data ≠ [] ∧
        2 * data.length ≤ fuel) :
    Ends (fun _ t => t.Filling c R T d₀ block (w ++ data)) (WriteFails c R T d₀ block)
      (lfsBdProgLoop c true block fuel w.length data s) := by
  induction fuel generalizing w data s with
  | zero =>
      rcases hs with ⟨-, hfuel⟩ | ⟨-, hne, hfuel⟩
      · omega
      · have := List.length_pos_iff.mpr hne
        omega
  | succ fuel ih =>
      rw [lfsBdProgLoop]
      by_cases hdata : data = []
      · rcases hs with ⟨hs, -⟩ | ⟨-, hne, -⟩
        · rw [if_pos hdata, hdata, List.append_nil]
          exact hs
        · exact absurd hdata hne
      have hpos := List.length_pos_iff.mpr hdata
      -- either the cache is prepared or it is free
      have hcases : (∃ m d, s.Partly c R T d₀ block w m d ∧ s.pcache.HoldsFrom c block w m) ∨
          (∃ d, s.Partly c R T d₀ block w w.length d) ∧ s.pcache.block = lfsBlockNull ∧
            2 * data.length ≤ fuel := by
        rcases hs with ⟨⟨m, d, hpart, ⟨hnull, rfl⟩ | ⟨hheld, -⟩⟩, hfuel⟩ | ⟨hheld, -, -⟩
        · exact .inr ⟨⟨d, hpart⟩, hnull, by omega⟩
        · exact .inl ⟨m, d, hpart, hheld⟩
        · exact .inl hheld
      have hfuel : 2 * data.length ≤ fuel + 1 := by
        rcases hs with ⟨-, hfuel⟩ | ⟨-, -, hfuel⟩ <;> omega
      rw [if_neg hdata, bind_of_ok (get_apply _)]
      rcases hcases with ⟨m, d, hpart, hheld⟩ | ⟨⟨d, hpart⟩, hnull, hmore⟩
      · have hsize := hheld.size_eq
        have hoff := hheld.off_eq
        have hlt := hheld.size_lt
        have hroom : c.cacheSize - (w.length - s.pcache.off) = c.cacheSize - s.pcache.size := by
          omega
        have hin : block = s.pcache.block ∧ w.length ≥ s.pcache.off ∧
            w.length < s.pcache.off + c.cacheSize :=
          ⟨hheld.block_eq.symm, by omega, by omega⟩
        rw [if_pos hin, hroom, bind_of_ok (modify_apply _ _)]
        generalize hdiff : min data.length (c.cacheSize - s.pcache.size) = diff
        have htake : (data.take diff).length = diff := by
          rw [List.length_take]
          omega
        have hgrown : (w ++ data.take diff).length ≤ c.blockSize := by
          rw [List.length_append]
          omega
        have hround := hpart.progRound hc hreads hblock hheld (by omega) (by omega) hgrown
        refine hround.bind fun _ t ht => ?_
        have hdrop : (data.drop diff).length = data.length - diff := List.length_drop
        have hrest := ih (w ++ data.take diff) (data.drop diff) t
          (by rw [List.length_append]; omega) (.inl ⟨ht, by omega⟩)
        rwa [List.append_assoc, List.take_append_drop, List.length_append, htake] at hrest
      · have hout : ¬ (block = s.pcache.block ∧ w.length ≥ s.pcache.off ∧
            w.length < s.pcache.off + c.cacheSize) := fun h =>
          (c.lt_null hblock).1 (h.1.trans hnull)
        have hstart : lfsAligndown w.length c.progSize = w.length :=
          lfsAligndown_of_dvd (Nat.dvd_trans c.prog_dvd hpart.aligned)
        rw [if_neg hout, lfsAssert, if_pos hnull, bind_of_ok (pure_apply _ _),
          bind_of_ok (modify_apply _ _), hstart]
        have hprepared : slice s.pcache.buffer 0 0 = w.drop w.length := by
          rw [List.drop_length]
          rfl
        exact ih w data _ hw (.inr ⟨⟨w.length, d, ⟨hpart.dev, hpart.same, hpart.le, hpart.aligned,
          hpart.flushed, hpart.erased, hpart.rcache⟩, ⟨rfl, rfl, rfl, c.cache_pos, hprepared⟩⟩,
          hdata, hmore⟩)

/-- **Appending to a block that is being filled.** -/
theorem lfsBdProg_spec (hc : c.Drives R) (hreads : c.ReadsSucceed R)
    (hblock : block < c.blockCount) {data : List UInt8} (hs : s.Filling c R T d₀ block w)
    (hw : w.length + data.length ≤ c.blockSize) :
    Ends (fun _ t => t.Filling c R T d₀ block (w ++ data)) (WriteFails c R T d₀ block)
      (lfsBdProg c true block w.length data s) := by
  have hbound := c.block_le
  have hsum : u32 ((w.length : ℤ) + data.length) = w.length + data.length := by rw [u32]; omega
  rw [lfsBdProg, hsum, lfsAssert, if_pos (.inr hblock), bind_of_ok (pure_apply _ _), lfsAssert,
    if_pos hw, bind_of_ok (pure_apply _ _)]
  exact lfsBdProgLoop_spec hc hreads hblock _ w data s hw (.inl ⟨hs, by omega⟩)

/-- An erased block is filled from its start. -/
theorem lfsBdErase_spec (hc : c.Drives R) (hblock : block < c.blockCount) (hdev : R s.dev d₀)
    (hmirrors : s.rcache.Mirrors c (fun b => T b ∧ b ≠ block) d₀)
    (hpcache : s.pcache.block = lfsBlockNull) :
    Ends (fun _ t => t.Filling c R T d₀ block [] ∧ t = { s with dev := t.dev })
      (fun e t => WriteFails c R T d₀ block e t ∧ t = { s with dev := t.dev })
      (lfsBdErase c block s) := by
  obtain ⟨hneg, hok, d', hdev', hsame⟩ := hc.erase hdev hblock
  rw [lfsBdErase, lfsAssert, if_pos hblock, bind_of_ok (pure_apply _ _),
    bind_of_ok (get_apply _), bind_of_ok (modify_apply _ _), lfsAssert, if_pos hneg,
    bind_of_ok (pure_apply _ _)]
  refine ends_lfsCheck hneg (fun h => ⟨⟨0, _, ⟨hok h, d₀.sameBut_erase block, Nat.zero_le _,
    Nat.dvd_zero _, rfl, fun o _ _ => ?_, ?_⟩, .inl ⟨hpcache, rfl⟩⟩, rfl⟩) fun hfail => ?_
  · rw [BlockDevice.erase_erased, decide_eq_true rfl, Bool.true_or]
  · have hout : ∀ b, T b ∧ (b = block → 0 < 0) → b ≠ block := fun b hb h =>
      Nat.lt_irrefl 0 (hb.2 h)
    exact (hmirrors.mono fun b hb => ⟨hb.1, hout b hb⟩).sameBut (d₀.sameBut_erase block) hout
  · have hlt : (c.driver.erase block s.dev).1 < 0 := hfail
    exact ⟨⟨fun hrel => Int.ne_of_lt hlt (hrel.erase hdev hblock), hfail, d', hdev', hsame,
      hmirrors.sameBut hsame fun _ h => h.2⟩, rfl⟩

/-- **What was written is on the device** after the last flush. -/
theorem LfsBd.Filling.flush (hc : c.Drives R) (hreads : c.ReadsSucceed R)
    (hblock : block < c.blockCount) (hs : s.Filling c R T d₀ block w)
    (hw : w.length ≤ c.blockSize) :
    Ends (fun _ t => ∃ d, R t.dev d ∧ d₀.SameBut block d ∧ slice (d.data block) 0 w.length = w ∧
        t.rcache.Mirrors c (fun b => T b ∧ (b = block → w ≠ [])) d ∧
        t.pcache.block = lfsBlockNull)
      (WriteFails c R T d₀ block) (lfsBdFlush c true s) := by
  obtain ⟨m, d, hpart, ⟨hnull, rfl⟩ | ⟨hheld, hsize⟩⟩ := hs
  · -- the last flush was an eager one
    have hout : ¬ (s.pcache.block ≠ lfsBlockNull ∧ s.pcache.block ≠ lfsBlockInline) :=
      fun h => h.1 hnull
    rw [lfsBdFlush, bind_of_ok (get_apply _), if_neg hout]
    have hdata : slice (d.data block) 0 w.length = w := by rw [hpart.flushed, List.take_length]
    exact ⟨d, hpart.dev, hpart.same, hdata,
      hpart.rcache.mono fun b hb => ⟨hb.1, fun h => List.length_pos_iff.mpr (hb.2 h)⟩, hnull⟩
  · have hflush := hpart.flush hc hreads hblock hheld.block_eq hheld.off_eq hsize hheld.size_eq hw
      hheld.buffer_eq
    refine hflush.imp (fun _ t ht => ?_) fun _ _ h => h
    obtain ⟨d', hdev, hsame, hdata, -, hmirrors, hzero⟩ := ht
    exact ⟨d', hdev, hsame, hdata, hmirrors.mono fun _ _ => trivial, by rw [hzero]; rfl⟩

/-! ### Reading while a block is filled -/

/-- A program cache shows the other blocks as the device has them. -/
theorem seen_other {cache : LfsCache} (h : block ≠ cache.block) :
    seen (some cache) d block = d.data block :=
  funext fun _ => if_neg fun hholds => h hholds.1

/-- The program cache is about the block that is being filled, or about none. -/
theorem LfsBd.Filling.pcache_block (hs : s.Filling c R T d₀ block w) :
    s.pcache.block = lfsBlockNull ∨ s.pcache.block = block ∧ c.readSize ∣ s.pcache.off := by
  obtain ⟨m, d, hpart, ⟨hnull, -⟩ | ⟨hheld, -⟩⟩ := hs
  · exact .inl hnull
  · exact .inr ⟨hheld.block_eq, hheld.off_eq ▸ Nat.dvd_trans c.read_dvd hpart.aligned⟩

/-- A block that is being filled is seen as it was written. As long as nothing of it was
flushed, the program cache holds all of it. -/
theorem LfsBd.Filling.backed (hblock : block < c.blockCount) (hs : s.Filling c R T d₀ block w)
    (hT : T block) :
    ∃ d T', s.Backed c R T' d ∧ d₀.SameBut block d ∧ (∀ b, b ≠ block → T b → T' b) ∧
      slice (seen (some s.pcache) d block) 0 w.length = w ∧
      (T' block ∨ Held (some s.pcache) block 0 w.length) ∧
      ∀ t : LfsBd δ, t.Backed c R T' d → t.pcache = s.pcache → t.Filling c R T d₀ block w := by
  obtain ⟨m, d, hpart, hcase⟩ := hs
  refine ⟨d, fun b => T b ∧ (b = block → 0 < m), ⟨hpart.dev, hpart.rcache⟩, hpart.same,
    fun b hb hb' => ⟨hb', fun h => absurd h hb⟩, ?_, ?_, ?_⟩
  · rcases hcase with ⟨hnull, rfl⟩ | ⟨hheld, -⟩
    · rw [seen_other fun h => (c.lt_null hblock).1 (h.trans hnull), hpart.flushed, List.take_length]
    · have hoff := hheld.off_eq
      have hhead : slice (seen (some s.pcache) d block) 0 m = w.take m := by
        rw [← hpart.flushed]
        refine slice_congr fun k hk => if_neg fun hholds => ?_
        have := hholds.2.1
        omega
      have htail : slice s.pcache.buffer (m - s.pcache.off) s.pcache.size
          = slice (seen (some s.pcache) d block) m s.pcache.size :=
        slice_served (fun k hk => ⟨hheld.block_eq.symm, by omega, by omega⟩)
          fun o ho => (if_pos ho).symm
      rw [hoff, Nat.sub_self, hheld.buffer_eq] at htail
      rw [← hheld.size_eq, slice_append, hhead, Nat.zero_add, ← htail, List.take_append_drop]
  · rcases Nat.eq_zero_or_pos m with rfl | hm
    · refine .inr fun k hk => ?_
      rcases hcase with ⟨-, hzero⟩ | ⟨hheld, -⟩
      · omega
      · have hoff := hheld.off_eq
        have hsize := hheld.size_eq
        exact ⟨s.pcache, rfl, hheld.block_eq.symm, by omega, by omega⟩
    · exact .inl ⟨hT, fun _ => hm⟩
  · rintro t ⟨hdev, hrcache⟩ hpc
    refine ⟨m, d, ⟨hdev, hpart.same, hpart.le, hpart.aligned, hpart.flushed, hpart.erased, hrcache⟩,
      ?_⟩
    rwa [hpc]

end Filling

end Num487Boot
