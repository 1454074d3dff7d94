import Num487Boot.LfsBlock

/-!
# What the Caches Show

The caching operations of LittleFS over any device whose callbacks act as a block device,
failing whenever they like. What a caller sees of a block is the device with the program
cache laid over it (`seen`); the read cache must agree with the device on every block it is
trusted with (`LfsCache.Mirrors`).

## Main results

* `lfsBdRead_spec`: a read returns what is seen, or the error of the device; it never runs
  out of fuel, and changes neither the device nor the program cache.
* `lfsBdCmp_spec`, `lfsBdCrc_spec`: a comparison is `memcmp` on what is seen, a CRC is
  `lfs_crc` of it.
-/

namespace Num487Boot

open Exec Memory

/-! ### Block devices -/

namespace BlockDevice

/-- A program of erased bytes. -/
def program (d : BlockDevice) (block off : ℕ) (bytes : List UInt8) : BlockDevice where
  data b := if b = block then overlay (d.data b) off bytes else d.data b
  erased b o := d.erased b o && !(b = block ∧ off ≤ o ∧ o < off + bytes.length : Bool)
  erased_data b o h := by
    rw [Bool.and_eq_true, Bool.not_eq_true', decide_eq_false_iff_not] at h
    obtain ⟨herased, hout⟩ := h
    by_cases hb : b = block
    · rw [if_pos hb]
      by_cases hlt : o < off
      · rw [overlay_apply_of_lt hlt]
        exact d.erased_data b o herased
      · rw [overlay_apply_of_le (by omega)]
        exact d.erased_data b o herased
    · rw [if_neg hb]
      exact d.erased_data b o herased

/-- The device after an erase of `block`. -/
def erase (d : BlockDevice) (block : ℕ) : BlockDevice where
  data b o := if b = block then 0xFF else d.data b o
  erased b o := b = block || d.erased b o
  erased_data b o h := by
    by_cases hb : b = block
    · rw [if_pos hb]
    · rw [if_neg hb]
      rw [decide_eq_false hb, Bool.false_or] at h
      exact d.erased_data b o h

/-- The programmed block holds the bytes. -/
theorem program_data (d : BlockDevice) (block off : ℕ) (bytes : List UInt8) :
    (d.program block off bytes).data block = overlay (d.data block) off bytes := if_pos rfl

/-- What was programmed is no longer erased. -/
theorem program_erased (d : BlockDevice) (block off : ℕ) (bytes : List UInt8) (b o : ℕ) :
    (d.program block off bytes).erased b o
      = (d.erased b o && !decide (b = block ∧ off ≤ o ∧ o < off + bytes.length)) := rfl

/-- What was erased is. -/
theorem erase_erased (d : BlockDevice) (block b o : ℕ) :
    (d.erase block).erased b o = (decide (b = block) || d.erased b o) := rfl

/-- The devices agree on every other block. -/
def SameBut (block : ℕ) (d d' : BlockDevice) : Prop :=
  ∀ b, b ≠ block → d'.data b = d.data b ∧ d'.erased b = d.erased b

variable {d d' d'' : BlockDevice} {block : ℕ}

/-- A device agrees with itself. -/
theorem SameBut.refl (block : ℕ) (d : BlockDevice) : SameBut block d d :=
  fun _ _ => ⟨rfl, rfl⟩

/-- Through a device between. -/
theorem SameBut.trans (h : SameBut block d d') (h' : SameBut block d' d'') :
    SameBut block d d'' :=
  fun b hb => ⟨(h' b hb).1.trans (h b hb).1, (h' b hb).2.trans (h b hb).2⟩

/-- A program touches its block only. -/
theorem sameBut_program (d : BlockDevice) (block off : ℕ) (bytes : List UInt8) :
    SameBut block d (d.program block off bytes) := by
  intro b hb
  refine ⟨if_neg hb, funext fun o => ?_⟩
  have hout : ¬ (b = block ∧ off ≤ o ∧ o < off + bytes.length) := fun h => hb h.1
  rw [program_erased, decide_eq_false hout, Bool.not_false, Bool.and_true]

/-- An erase touches its block only. -/
theorem sameBut_erase (d : BlockDevice) (block : ℕ) : SameBut block d (d.erase block) := by
  intro b hb
  refine ⟨funext fun o => if_neg hb, funext fun o => ?_⟩
  rw [erase_erased, decide_eq_false hb, Bool.false_or]

end BlockDevice

/-! ### Drivers -/

variable {δ : Type} {c : LfsSetup δ} {R : δ → BlockDevice → Prop}

/-- A transfer in units of the device, inside a block of it. -/
def LfsGeometry.InBlock (g : LfsGeometry) (unit block off size : ℕ) : Prop :=
  block < g.blockCount ∧ unit ∣ off ∧ unit ∣ size ∧ 0 < size ∧ off + size ≤ g.blockSize

/-- The callbacks act as a block device on the states that `R` relates to one. Called as
LittleFS promises, they return zero or a negative error.
* A read returns the bytes or an error, and changes nothing; a sync changes nothing.
* A program stores as many bytes as it was given, but not always the right ones; if it reports
  an error, anything may have become of its block.
* An erase erases its block or reports an error, with the same freedom. -/
structure LfsSetup.Drives (c : LfsSetup δ) (R : δ → BlockDevice → Prop) : Prop where
  read : ∀ {s d block off size}, R s d → c.InBlock c.readSize block off size →
    (c.driver.read block off size s).1.1 ≤ 0 ∧ R (c.driver.read block off size s).2 d ∧
      ((c.driver.read block off size s).1.1 = 0 →
        (c.driver.read block off size s).1.2 = slice (d.data block) off size)
  prog : ∀ {s d block off data}, R s d → c.InBlock c.progSize block off data.length →
    (∀ k < data.length, d.erased block (off + k) = true) →
    (c.driver.prog block off data s).1 ≤ 0 ∧
      ((c.driver.prog block off data s).1 = 0 → ∃ bytes : List UInt8,
        bytes.length = data.length ∧
          R (c.driver.prog block off data s).2 (d.program block off bytes)) ∧
      ∃ d', R (c.driver.prog block off data s).2 d' ∧ d.SameBut block d'
  erase : ∀ {s d block}, R s d → block < c.blockCount →
    (c.driver.erase block s).1 ≤ 0 ∧
      ((c.driver.erase block s).1 = 0 → R (c.driver.erase block s).2 (d.erase block)) ∧
      ∃ d', R (c.driver.erase block s).2 d' ∧ d.SameBut block d'
  sync : ∀ {s d}, R s d → (c.driver.sync s).1 ≤ 0 ∧ R (c.driver.sync s).2 d

/-- The device stores what it is told to, and reports no error. -/
structure LfsSetup.Reliable (c : LfsSetup δ) (R : δ → BlockDevice → Prop) : Prop where
  prog : ∀ {s d block off data}, R s d → c.InBlock c.progSize block off data.length →
    (∀ k < data.length, d.erased block (off + k) = true) →
    (c.driver.prog block off data s).1 = 0 ∧
      R (c.driver.prog block off data s).2 (d.program block off data)
  erase : ∀ {s d block}, R s d → block < c.blockCount → (c.driver.erase block s).1 = 0
  sync : ∀ {s d}, R s d → (c.driver.sync s).1 = 0

/-- No read of the device fails. -/
def LfsSetup.ReadsSucceed (c : LfsSetup δ) (R : δ → BlockDevice → Prop) : Prop :=
  ∀ s d block off size, R s d → c.InBlock c.readSize block off size →
    (c.driver.read block off size s).1.1 = 0

/-- An early end that reports an error: no assertion failed and no loop was cut off. -/
def LfsHalt.Reports : LfsHalt → Prop
  | .err code => code < 0
  | _ => False

/-- How a read ends early: the device failed, and neither it nor the program cache changed. -/
def ReadFails (c : LfsSetup δ) (R : δ → BlockDevice → Prop) (d : BlockDevice)
    (pcache : LfsCache) (e : LfsHalt) (t : LfsBd δ) : Prop :=
  ¬ c.ReadsSucceed R ∧ e.Reports ∧ R t.dev d ∧ t.pcache = pcache

/-- An error code is passed on. -/
theorem ends_lfsCheck {σ : Type} {err : ℤ} {s : σ} {Q : Unit → σ → Prop} {E : LfsHalt → σ → Prop}
    (hneg : err ≤ 0) (hok : err = 0 → Q () s) (hfail : (LfsHalt.err err).Reports → E (.err err) s) :
    Ends Q E ((lfsCheck err : LfsProg σ Unit) s) := by
  rw [lfsCheck]
  split
  · rename_i h
    exact hok h
  · rename_i h
    have hlt : err < 0 := by omega
    exact hfail hlt

/-! ### Sizes -/

namespace LfsGeometry

variable (g : LfsGeometry)

/-- A block is a number of read units. -/
theorem read_dvd_block : g.readSize ∣ g.blockSize := Nat.dvd_trans g.read_dvd g.cache_dvd

/-- A block is a number of program units. -/
theorem prog_dvd_block : g.progSize ∣ g.blockSize := Nat.dvd_trans g.prog_dvd g.cache_dvd

/-- A block is not empty. -/
theorem block_pos : 0 < g.blockSize := Nat.lt_of_lt_of_le (by decide) g.block_ge

/-- A cache is no larger than a block. -/
theorem cache_le_block : g.cacheSize ≤ g.blockSize := Nat.le_of_dvd g.block_pos g.cache_dvd

/-- A read unit is no larger than a block. -/
theorem read_le_block : g.readSize ≤ g.blockSize := Nat.le_of_dvd g.block_pos g.read_dvd_block

/-- A program unit is no larger than a block. -/
theorem prog_le_block : g.progSize ≤ g.blockSize := Nat.le_of_dvd g.block_pos g.prog_dvd_block

end LfsGeometry

/-- The part of a block that is loaded starts at or before the byte asked for, ends after it,
and stays in the block. -/
theorem rcacheSize_spec {hint off : ℕ} (hpos : 0 < hint) (hhint : hint ≤ c.blockSize)
    (hoff : off < c.blockSize) :
    c.readSize ∣ rcacheSize c hint off ∧ off < lfsAligndown off c.readSize + rcacheSize c hint off ∧
      lfsAligndown off c.readSize + rcacheSize c hint off ≤ c.blockSize := by
  have hread := c.read_pos
  have hle := c.read_le_block
  have hbound := c.block_le
  have hcache := Nat.le_of_dvd c.cache_pos c.read_dvd
  have hstart := lfsAligndown_le off c.readSize
  have hnext := lt_lfsAligndown_add hread off
  -- where the part would end without a limit on its size
  obtain ⟨stop, hstop⟩ : ∃ stop, min (lfsAlignup (off + hint) c.readSize) c.blockSize = stop :=
    ⟨_, rfl⟩
  have hup := le_lfsAlignup (a := off + hint) hread (by omega)
  have hdvd : c.readSize ∣ stop := by
    rcases Nat.le_total (lfsAlignup (off + hint) c.readSize) c.blockSize with h | h
    · rw [← hstop, Nat.min_eq_left h]
      exact dvd_lfsAlignup _ _
    · rw [← hstop, Nat.min_eq_right h]
      exact c.read_dvd_block
  have hsize : rcacheSize c hint off = min (stop - lfsAligndown off c.readSize) c.cacheSize := by
    have hsum : u32 ((off : ℤ) + hint) = off + hint := by rw [u32]; omega
    rw [rcacheSize, hsum, hstop, u32_sub (by omega) (by omega)]
  have hpart : c.readSize ∣ stop - lfsAligndown off c.readSize :=
    Nat.dvd_sub hdvd (dvd_lfsAligndown off c.readSize)
  rw [hsize]
  refine ⟨?_, by omega, by omega⟩
  rcases Nat.le_total (stop - lfsAligndown off c.readSize) c.cacheSize with h | h
  · rwa [Nat.min_eq_left h]
  · rw [Nat.min_eq_right h]
    exact c.read_dvd

/-! ### What a caller sees -/

/-- The cache holds the byte. -/
def LfsCache.Holds (cache : LfsCache) (block o : ℕ) : Prop :=
  block = cache.block ∧ cache.off ≤ o ∧ o < cache.off + cache.size

instance (cache : LfsCache) (block o : ℕ) : Decidable (cache.Holds block o) :=
  inferInstanceAs (Decidable (_ ∧ _))

/-- A block as it is seen through a program cache. -/
def seen (pcache : Option LfsCache) (d : BlockDevice) (block : ℕ) : ℕ → UInt8 := fun o =>
  match pcache with
  | none => d.data block o
  | some cache => if cache.Holds block o then cache.buffer (o - cache.off) else d.data block o

/-- A program cache holds every byte of the range. -/
def Held (pcache : Option LfsCache) (block off size : ℕ) : Prop :=
  ∀ k < size, ∃ cache ∈ pcache, cache.Holds block (off + k)

/-- A part of what the program cache may hold. -/
theorem Held.part {pcache : Option LfsCache} {block off size n m : ℕ}
    (h : Held pcache block off size) (hle : n + m ≤ size) : Held pcache block (off + n) m := by
  intro k hk
  have hheld := h (n + k) (by omega)
  rwa [← Nat.add_assoc] at hheld

/-- Where a read cache may be trusted it agrees with the device. -/
def LfsCache.Mirrors (rcache : LfsCache) (c : LfsSetup δ) (T : ℕ → Prop) (d : BlockDevice) :
    Prop :=
  rcache.block < c.blockCount → T rcache.block →
    c.readSize ∣ rcache.off ∧ rcache.off + rcache.size ≤ c.blockSize ∧
      ∀ k < rcache.size, rcache.buffer k = d.data rcache.block (rcache.off + k)

/-- The device behind the callbacks, and a read cache that agrees with it on the blocks of
`T`. -/
structure LfsBd.Backed (c : LfsSetup δ) (R : δ → BlockDevice → Prop) (T : ℕ → Prop)
    (d : BlockDevice) (s : LfsBd δ) : Prop where
  dev : R s.dev d
  rcache : s.rcache.Mirrors c T d

section Lookup

variable {cache : LfsCache} {block off diff : ℕ}

/-- A cache serves the first of its bytes that were asked for. -/
theorem LfsCache.lookup_served {bytes : List UInt8} (hpos : 0 < diff)
    (h : cache.lookup block off diff = .served bytes) :
    ∃ n, 0 < n ∧ n ≤ diff ∧ bytes = slice cache.buffer (off - cache.off) n ∧
      ∀ k < n, cache.Holds block (off + k) := by
  rw [LfsCache.lookup] at h
  split at h
  · rename_i hin
    split at h
    · rename_i hge
      injection h with h
      refine ⟨min diff (cache.size - (off - cache.off)), by omega, Nat.min_le_left _ _, h.symm,
        fun k hk => ⟨hin.1, by omega, by omega⟩⟩
    · cases h
  · cases h

/-- Otherwise it holds none of the bytes up to its priority. -/
theorem LfsCache.lookup_before {n : ℕ} (hpos : 0 < diff)
    (h : cache.lookup block off diff = .before n) :
    0 < n ∧ n ≤ diff ∧ (∀ k < n, ¬ cache.Holds block (off + k)) ∧
      (n = diff ∨ block = cache.block ∧ off + n = cache.off) := by
  rw [LfsCache.lookup] at h
  split at h
  · rename_i hin
    split at h
    · cases h
    · injection h with h
      refine ⟨by omega, by omega, fun k hk hholds => ?_, by omega⟩
      have := hholds.2.1
      omega
  · rename_i hout
    injection h with h
    refine ⟨by omega, by omega, fun k hk hholds => hout ⟨hholds.1, ?_⟩, by omega⟩
    have := hholds.2.2
    omega

/-- A cache that holds a byte serves it. -/
theorem LfsCache.Holds.lookup_served (h : cache.Holds block off) (diff : ℕ) :
    ∃ bytes, cache.lookup block off diff = .served bytes :=
  ⟨_, by rw [LfsCache.lookup, if_pos ⟨h.1, h.2.2⟩, if_pos h.2.1]⟩

end Lookup

/-! ### Loading -/

/-- The device is read, or fails. -/
theorem lfsCfgRead_spec (hc : c.Drives R) {T : ℕ → Prop} {d : BlockDevice} {s : LfsBd δ}
    {block off size : ℕ} (hs : s.Backed c R T d) (hin : c.InBlock c.readSize block off size) :
    Ends (fun bytes t => bytes = slice (d.data block) off size ∧ t.Backed c R T d ∧
        t.pcache = s.pcache)
      (ReadFails c R d s.pcache)
      (lfsCfgRead c block off size s) := by
  obtain ⟨hneg, hdev, hbytes⟩ := hc.read hs.dev hin
  rw [lfsCfgRead, bind_of_ok (get_apply _), bind_of_ok (modify_apply _ _)]
  by_cases hok : (c.driver.read block off size s.dev).1.1 = 0
  · rw [lfsCheck, if_pos hok]
    exact ⟨hbytes hok, ⟨hdev, hs.rcache⟩, rfl⟩
  · have hlt : (c.driver.read block off size s.dev).1.1 < 0 := by omega
    rw [lfsCheck, if_neg hok]
    exact ⟨fun hreads => hok (hreads _ _ _ _ _ hs.dev hin), hlt, hdev, rfl⟩

/-- The read cache takes over the part around a byte, or the device fails. -/
theorem loadRcache_spec (hc : c.Drives R) {T : ℕ → Prop} {d : BlockDevice} {s : LfsBd δ}
    {hint block off : ℕ} (hs : s.Backed c R T d) (hblock : block < c.blockCount)
    (hpos : 0 < hint) (hhint : hint ≤ c.blockSize) (hoff : off < c.blockSize) :
    Ends (fun _ t => t.Backed c R T d ∧ t.rcache.Holds block off ∧ t.pcache = s.pcache)
      (ReadFails c R d s.pcache)
      (loadRcache c hint block off s) := by
  obtain ⟨hdvd, hafter, hin⟩ := rcacheSize_spec hpos hhint hoff
  have hstart := lfsAligndown_le off c.readSize
  have hpart : c.InBlock c.readSize block (lfsAligndown off c.readSize) (rcacheSize c hint off) :=
    ⟨hblock, dvd_lfsAligndown off c.readSize, hdvd, by omega, hin⟩
  obtain ⟨hneg, hdev, hbytes⟩ := hc.read hs.dev hpart
  rw [loadRcache, lfsAssert, if_pos hblock, bind_of_ok (pure_apply _ _),
    bind_of_ok (get_apply _), bind_of_ok (modify_apply _ _), lfsAssert, if_pos hneg,
    bind_of_ok (pure_apply _ _)]
  refine ends_lfsCheck hneg (fun hok => ?_) fun hfail =>
    ⟨fun hreads => Int.ne_of_lt hfail (hreads _ _ _ _ _ hs.dev hpart), hfail, hdev, rfl⟩
  refine ⟨⟨hdev, fun _ _ => ⟨dvd_lfsAligndown _ _, hin, fun k hk => ?_⟩⟩,
    ⟨rfl, hstart, hafter⟩, rfl⟩
  have hk' : k < (slice (d.data block) (lfsAligndown off c.readSize)
      (rcacheSize c hint off)).length := by rwa [length_slice]
  show overlay s.rcache.buffer 0 _ k = _
  rw [hbytes hok, overlay_zero_apply hk', getElem_slice]

/-! ### Reading -/

section Read

variable {T : ℕ → Prop} {d : BlockDevice} {pcache : Option LfsCache} {hint block : ℕ}

/-- What serves the first bytes of a read shows what is seen. -/
theorem slice_served {cache : LfsCache} {off n : ℕ} {f : ℕ → UInt8}
    (hholds : ∀ k < n, cache.Holds block (off + k))
    (hbuffer : ∀ o, cache.Holds block o → cache.buffer (o - cache.off) = f o) :
    slice cache.buffer (off - cache.off) n = slice f off n := by
  refine List.ext_getElem (by simp) fun k hk _ => ?_
  rw [length_slice] at hk
  have hk' := hholds k hk
  have hindex : off - cache.off + k = off + k - cache.off := by
    have := (hholds 0 (by omega)).2.1
    omega
  rw [getElem_slice, getElem_slice, hindex, hbuffer _ hk']

/-- The rest of the loop, after its first bytes. -/
theorem ends_readRest {x : LfsProg (LfsBd δ) (List UInt8)} {s t : LfsBd δ} {f : ℕ → UInt8}
    {off n size : ℕ} (hn : n ≤ size) (hst : t.pcache = s.pcache)
    (hx : Ends (fun bytes u => bytes = slice f (off + n) (size - n) ∧ u.Backed c R T d ∧
        u.pcache = t.pcache) (ReadFails c R d t.pcache) (x t)) :
    Ends (fun bytes u => bytes = slice f off size ∧ u.Backed c R T d ∧ u.pcache = s.pcache)
      (ReadFails c R d s.pcache)
      ((do let rest ← x; pure (slice f off n ++ rest)) t) := by
  rw [hst] at hx
  refine hx.bind fun rest u hu => ⟨?_, hu.2⟩
  have hsplit : size = n + (size - n) := by omega
  rw [hu.1, hsplit, slice_append, Nat.add_sub_cancel_left]

/-- The program cache serves what is seen. -/
theorem pcache_served {off size : ℕ} {bytes : List UInt8} (hpos : 0 < size)
    (h : pcache.elim (.before size) (·.lookup block off size) = .served bytes) :
    ∃ n, 0 < n ∧ n ≤ size ∧ bytes = slice (seen pcache d block) off n := by
  cases pcache with
  | none => cases h
  | some cache =>
      obtain ⟨n, hn, hle, hbytes, hholds⟩ := LfsCache.lookup_served hpos h
      exact ⟨n, hn, hle, hbytes.trans (slice_served hholds fun o ho => (if_pos ho).symm)⟩

/-- Up to the priority of the program cache the device is seen. -/
theorem pcache_before {off size n : ℕ} (hpos : 0 < size)
    (halign : ∀ cache ∈ pcache, block = cache.block → c.readSize ∣ cache.off)
    (h : pcache.elim (.before size) (·.lookup block off size) = .before n) :
    0 < n ∧ n ≤ size ∧ (∀ k < n, seen pcache d block (off + k) = d.data block (off + k)) ∧
      (n = size ∨ c.readSize ∣ off + n) := by
  cases pcache with
  | none =>
      injection h with h
      exact ⟨by omega, by omega, fun _ _ => rfl, .inl h.symm⟩
  | some cache =>
      obtain ⟨hn, hle, hout, hlimit⟩ := LfsCache.lookup_before hpos h
      refine ⟨hn, hle, fun k hk => if_neg (hout k hk), ?_⟩
      rcases hlimit with hall | ⟨hb, hcache⟩
      · exact .inl hall
      · exact .inr (hcache ▸ halign cache rfl hb)

/-- A program cache that holds every byte leaves nothing to the others. -/
theorem not_held_of_before {off size n : ℕ} (hpos : 0 < size)
    (h : pcache.elim (.before size) (·.lookup block off size) = .before n) :
    ¬ Held pcache block off size := by
  intro hheld
  obtain ⟨cache, rfl, hholds⟩ := hheld 0 hpos
  obtain ⟨bytes, hserved⟩ := hholds.lookup_served size
  cases hserved.symm.trans h

/-- A read that bypasses the cache takes at least one unit. -/
theorem bypass_pos {off size n : ℕ} (halign : off % c.readSize = 0) (hsize : c.readSize ≤ size)
    (hpos : 0 < n) (hlimit : n = size ∨ c.readSize ∣ off + n) :
    0 < lfsAligndown n c.readSize := by
  have hle : c.readSize ≤ n := by
    rcases hlimit with rfl | hdvd
    · exact hsize
    · exact Nat.le_of_dvd hpos ((Nat.dvd_add_right (Nat.dvd_of_mod_eq_zero halign)).mp hdvd)
  exact Nat.lt_of_lt_of_le c.read_pos (le_lfsAligndown (Nat.dvd_refl _) hle)

/-- The loop of `lfs_bd_read`, with fuel for a load and a copy of every byte to come. -/
theorem lfsBdReadLoop_spec (hc : c.Drives R) (hblock : block < c.blockCount)
    (halign : ∀ cache ∈ pcache, block = cache.block → c.readSize ∣ cache.off) (hpos : 0 < hint)
    (hhint : hint ≤ c.blockSize) (fuel off size : ℕ) (s : LfsBd δ) (hs : s.Backed c R T d)
    (hT : T block ∨ Held pcache block off size) (hoff : off + size ≤ c.blockSize)
    (hfuel : 2 * size < fuel ∨ 0 < size ∧ 2 * size ≤ fuel ∧ s.rcache.Holds block off) :
    Ends (fun bytes t => bytes = slice (seen pcache d block) off size ∧ t.Backed c R T d ∧
        t.pcache = s.pcache)
      (ReadFails c R d s.pcache)
      (lfsBdReadLoop c pcache hint block fuel off size s) := by
  induction fuel generalizing off size s with
  | zero => omega
  | succ fuel ih =>
      rw [lfsBdReadLoop]
      by_cases hsize : size = 0
      · rw [if_pos hsize, hsize]
        exact ⟨rfl, hs, rfl⟩
      have hsize' : 0 < size := by omega
      rw [if_neg hsize, bind_of_ok (get_apply _)]
      -- bytes that were served leave fuel for the rest
      have hserved : ∀ n, 0 < n → n ≤ size → ∀ bytes : List UInt8,
          bytes = slice (seen pcache d block) off n →
          Ends (fun bytes t => bytes = slice (seen pcache d block) off size ∧ t.Backed c R T d ∧
              t.pcache = s.pcache)
            (ReadFails c R d s.pcache)
            ((do
              let rest ← lfsBdReadLoop c pcache hint block fuel (off + bytes.length)
                (size - bytes.length)
              pure (bytes ++ rest)) s) := by
        rintro n hn hle _ rfl
        rw [length_slice]
        have hT' : T block ∨ Held pcache block (off + n) (size - n) :=
          hT.imp_right fun h => h.part (by omega)
        exact ends_readRest hle rfl (ih (off + n) (size - n) s hs hT' (by omega) (by omega))
      cases hp : pcache.elim (.before size) (·.lookup block off size) with
      | served bytes =>
          obtain ⟨n, hn, hle, hbytes⟩ := pcache_served (d := d) hsize' hp
          exact hserved n hn hle bytes hbytes
      | before diff =>
          obtain ⟨hdiff, hdiffle, hseen, hlimit⟩ := pcache_before (d := d) hsize' halign hp
          have htrust : T block := hT.resolve_right (not_held_of_before hsize' hp)
          dsimp only
          cases hr : s.rcache.lookup block off diff with
          | served bytes =>
              obtain ⟨n, hn, hle, hbytes, hholds⟩ := LfsCache.lookup_served hdiff hr
              refine hserved n hn (by omega) bytes (hbytes.trans ?_)
              have hdata : slice s.rcache.buffer (off - s.rcache.off) n
                  = slice (d.data block) off n := by
                refine slice_served hholds fun o ho => ?_
                have hk := (hs.rcache (ho.1 ▸ hblock) (ho.1 ▸ htrust)).2.2 (o - s.rcache.off)
                have hindex : s.rcache.off + (o - s.rcache.off) = o := by
                  have := ho.2.1
                  omega
                rw [hk (by have := ho.2; omega), hindex, ho.1]
              rw [hdata]
              exact slice_congr fun k hk => (hseen k (by omega)).symm
          | before n =>
              obtain ⟨hn, hnle, hout, hrlimit⟩ := LfsCache.lookup_before hdiff hr
              have hmiss : ¬ s.rcache.Holds block off := hout 0 hn
              dsimp only
              split
              · -- the device is read past the cache
                rename_i hbypass
                have hlimit' : n = size ∨ c.readSize ∣ off + n := by
                  rcases hrlimit with rfl | ⟨hb, hend⟩
                  · exact hlimit
                  · exact .inr (hend ▸ (hs.rcache (hb ▸ hblock) (hb ▸ htrust)).1)
                have hpart := bypass_pos hbypass.2.1 hbypass.2.2 hn hlimit'
                have hpartle := lfsAligndown_le n c.readSize
                have hin : c.InBlock c.readSize block off (lfsAligndown n c.readSize) :=
                  ⟨hblock, Nat.dvd_of_mod_eq_zero hbypass.2.1, dvd_lfsAligndown n c.readSize, hpart,
                    by omega⟩
                have hread := lfsCfgRead_spec hc hs hin
                refine hread.bind fun bytes t ht => ?_
                obtain ⟨rfl, ht, hpc⟩ := ht
                have hrest := ih (off + lfsAligndown n c.readSize)
                  (size - lfsAligndown n c.readSize) t ht (.inl htrust) (by omega) (by omega)
                have hfirst : slice (d.data block) off (lfsAligndown n c.readSize)
                    = slice (seen pcache d block) off (lfsAligndown n c.readSize) :=
                  slice_congr fun k hk => (hseen k (by omega)).symm
                rw [hfirst]
                exact ends_readRest (by omega) hpc hrest
              · -- only a miss brings the loop here, so the fuel is there for a load
                have hmore : 2 * size ≤ fuel := by
                  rcases hfuel with h | ⟨-, -, hhit⟩
                  · omega
                  · exact absurd hhit hmiss
                have hoff' : off < c.blockSize := by omega
                refine (loadRcache_spec hc hs hblock hpos hhint hoff').bind fun _ t ht => ?_
                have hrest := ih off size t ht.1 hT hoff (.inr ⟨hsize', hmore, ht.2.1⟩)
                rwa [ht.2.2] at hrest

/-- **A read returns what is seen**, or the error of the device. -/
theorem lfsBdRead_spec (hc : c.Drives R) (hblock : block < c.blockCount)
    (halign : ∀ cache ∈ pcache, block = cache.block → c.readSize ∣ cache.off) (hpos : 0 < hint)
    (hhint : hint ≤ c.blockSize) {off size : ℕ} {s : LfsBd δ} (hs : s.Backed c R T d)
    (hT : T block ∨ Held pcache block off size) (hoff : off + size ≤ c.blockSize) :
    Ends (fun bytes t => bytes = slice (seen pcache d block) off size ∧ t.Backed c R T d ∧
        t.pcache = s.pcache)
      (ReadFails c R d s.pcache)
      (lfsBdRead c pcache hint block off size s) := by
  have hbound := c.block_le
  have hsum : u32 ((off : ℤ) + size) = off + size := by rw [u32]; omega
  rw [lfsBdRead, hsum, if_neg (by omega)]
  exact lfsBdReadLoop_spec hc hblock halign hpos hhint _ off size s hs hT hoff (.inl (by omega))

/-! ### Comparing and checking -/

/-- A comparison is decided by the first part, and by the second if that is equal. -/
theorem memcmp_append {xs xs' : List UInt8} (hlen : xs.length = xs'.length) (ys ys' : List UInt8) :
    memcmp (xs ++ ys) (xs' ++ ys') = (memcmp xs xs').then (memcmp ys ys') := by
  induction xs generalizing xs' with
  | nil =>
      obtain rfl : xs' = [] := List.length_eq_zero_iff.mp hlen.symm
      rfl
  | cons x xs ih =>
      obtain ⟨x', xs', rfl⟩ := List.exists_cons_of_length_eq_add_one hlen.symm
      rw [List.length_cons, List.length_cons, Nat.add_right_cancel_iff] at hlen
      rw [List.cons_append, List.cons_append, memcmp, memcmp, ih hlen, Ordering.then_assoc]

/-- Buffers of one length compare equal only if they are. -/
theorem memcmp_eq_iff {xs ys : List UInt8} (hlen : xs.length = ys.length) :
    memcmp xs ys = .eq ↔ xs = ys := by
  induction xs generalizing ys with
  | nil =>
      obtain rfl : ys = [] := List.length_eq_zero_iff.mp hlen.symm
      exact iff_of_true rfl rfl
  | cons x xs ih =>
      obtain ⟨y, ys, rfl⟩ := List.exists_cons_of_length_eq_add_one hlen.symm
      rw [List.length_cons, List.length_cons, Nat.add_right_cancel_iff] at hlen
      rw [memcmp, Ordering.then_eq_eq, ih hlen, Std.compare_eq_iff_eq, List.cons.injEq]

/-- **A comparison is `memcmp`** on what is seen. -/
theorem lfsBdCmp_spec (hc : c.Drives R) (hblock : block < c.blockCount)
    (halign : ∀ cache ∈ pcache, block = cache.block → c.readSize ∣ cache.off)
    (hhint : hint ≤ c.blockSize) {off : ℕ} {buffer : List UInt8} {s : LfsBd δ}
    (hs : s.Backed c R T d) (hT : T block ∨ Held pcache block off buffer.length)
    (hlen : buffer.length ≤ hint) (hoff : off + buffer.length ≤ c.blockSize) :
    Ends (fun res t => res = memcmp (slice (seen pcache d block) off buffer.length) buffer ∧
        t.Backed c R T d ∧ t.pcache = s.pcache)
      (ReadFails c R d s.pcache)
      (lfsBdCmp c pcache hint block off buffer s) := by
  have hbound := c.block_le
  suffices hloop : ∀ fuel i (data : List UInt8) (s : LfsBd δ), s.Backed c R T d →
      data.length < fuel → i + data.length ≤ hint → i + data.length ≤ buffer.length →
      Ends (fun res t => res = memcmp (slice (seen pcache d block) (off + i) data.length) data ∧
          t.Backed c R T d ∧ t.pcache = s.pcache)
        (ReadFails c R d s.pcache)
        (lfsBdCmpLoop c pcache hint block off fuel i data s) from
    hloop _ 0 buffer s hs (by omega) (by omega) (by omega)
  intro fuel
  induction fuel with
  | zero => intro i data s _ hfuel; omega
  | succ fuel ih =>
      intro i data s hs hfuel hle hin
      rw [lfsBdCmpLoop]
      by_cases hdata : data = []
      · rw [if_pos hdata, hdata]
        exact ⟨rfl, hs, rfl⟩
      have hpos : 0 < data.length := List.length_pos_iff.mpr hdata
      rw [if_neg hdata]
      -- the loop compares the next chunk and goes on if it is equal
      have hrest : u32 ((hint : ℤ) - i) = hint - i := u32_sub (by omega) (by omega)
      have hchunk : off + i + min data.length 8 ≤ c.blockSize := by omega
      have hT' : T block ∨ Held pcache block (off + i) (min data.length 8) :=
        hT.imp_right fun h => h.part (by omega)
      rw [hrest]
      refine (lfsBdRead_spec hc hblock halign (by omega) (by omega) hs hT' hchunk).bind ?_
      rintro _ t ⟨rfl, ht, hpc⟩
      have hsplit : memcmp (slice (seen pcache d block) (off + i) data.length) data
          = (memcmp (slice (seen pcache d block) (off + i) (min data.length 8))
              (data.take (min data.length 8))).then
            (memcmp (slice (seen pcache d block) (off + (i + min data.length 8))
              (data.drop (min data.length 8)).length) (data.drop (min data.length 8))) := by
        have hsize : data.length = min data.length 8 + (data.drop (min data.length 8)).length := by
          rw [List.length_drop]
          omega
        have hchunklen : (slice (seen pcache d block) (off + i) (min data.length 8)).length
            = (data.take (min data.length 8)).length := by
          rw [length_slice, List.length_take]
          omega
        rw [← memcmp_append hchunklen, List.take_append_drop, ← Nat.add_assoc, ← slice_append,
          ← hsize]
      rw [hsplit]
      by_cases hne : memcmp (slice (seen pcache d block) (off + i) (min data.length 8))
          (data.take (min data.length 8)) = .eq
      · rw [if_neg (not_not_intro hne), hne, Ordering.eq_then]
        have hnext := ih (i + min data.length 8) (data.drop (min data.length 8)) t ht
          (by rw [List.length_drop]; omega) (by rw [List.length_drop]; omega)
          (by rw [List.length_drop]; omega)
        rwa [hpc] at hnext
      · rw [if_pos hne]
        refine ⟨?_, ht, hpc⟩
        cases hcmp : memcmp (slice (seen pcache d block) (off + i) (min data.length 8))
            (data.take (min data.length 8)) with
        | lt => rfl
        | eq => exact absurd hcmp hne
        | gt => rfl

/-- **A CRC over a block** is `lfs_crc` of what is seen. -/
theorem lfsBdCrc_spec (hc : c.Drives R) (hblock : block < c.blockCount)
    (halign : ∀ cache ∈ pcache, block = cache.block → c.readSize ∣ cache.off)
    (hhint : hint ≤ c.blockSize) {off size : ℕ} {s : LfsBd δ} (hs : s.Backed c R T d)
    (hT : T block ∨ Held pcache block off size) (hlen : size ≤ hint)
    (hoff : off + size ≤ c.blockSize) (crc : UInt32) :
    Ends (fun res t => res = lfsCrc crc (slice (seen pcache d block) off size) ∧
        t.Backed c R T d ∧ t.pcache = s.pcache)
      (ReadFails c R d s.pcache)
      (lfsBdCrc c pcache hint block off size crc s) := by
  have hbound := c.block_le
  suffices hloop : ∀ fuel i n crc (s : LfsBd δ), s.Backed c R T d → n < fuel → i + n ≤ hint →
      i + n ≤ size →
      Ends (fun res t => res = lfsCrc crc (slice (seen pcache d block) (off + i) n) ∧
          t.Backed c R T d ∧ t.pcache = s.pcache)
        (ReadFails c R d s.pcache)
        (lfsBdCrcLoop c pcache hint block off fuel i n crc s) from
    hloop _ 0 size crc s hs (by omega) (by omega) (by omega)
  intro fuel
  induction fuel with
  | zero => intro i n crc s _ hfuel; omega
  | succ fuel ih =>
      intro i n crc s hs hfuel hle hin
      rw [lfsBdCrcLoop]
      by_cases hn : n = 0
      · rw [if_pos hn, hn]
        exact ⟨rfl, hs, rfl⟩
      have hrest : u32 ((hint : ℤ) - i) = hint - i := u32_sub (by omega) (by omega)
      have hchunk : off + i + min n 8 ≤ c.blockSize := by omega
      have hT' : T block ∨ Held pcache block (off + i) (min n 8) :=
        hT.imp_right fun h => h.part (by omega)
      rw [if_neg hn, hrest]
      refine (lfsBdRead_spec hc hblock halign (by omega) (by omega) hs hT' hchunk).bind ?_
      rintro _ t ⟨rfl, ht, hpc⟩
      have hsplit : n = min n 8 + (n - min n 8) := by omega
      have hnext := ih (i + min n 8) (n - min n 8)
        (lfsCrc crc (slice (seen pcache d block) (off + i) (min n 8))) t ht (by omega)
        (by omega) (by omega)
      rw [← lfsCrc_append, ← Nat.add_assoc, ← slice_append, ← hsplit, hpc] at hnext
      exact hnext

end Read

end Num487Boot
