import Num487Boot.IdleChip

/-!
# Block Transfers

`w25q128jv_read_block` converts its block number with `block2page`,
`w25q128jv_write_block` with `sector2page`: it writes to the sector of that number. The two
functions address the same bytes for block 0 only, and the other calls that meet their
purpose are those that do nothing.

## Main results

* `BlockTransfers.reads_back`: what the two functions are for.
* `settles_writeBlock`, `settles_readBlock`: what they do.
* `blockTransfers_iff`: for which blocks and offsets the one is the other.
-/

namespace Num487Boot

open Exec Memory

namespace W25q128jv

variable {mem ram : ℕ → UInt8} {pbuf : ℕ} {blockNum offset bytes : UInt32}

/-- The device address of a byte of a block. -/
def blockAddress (blockNum offset : UInt32) : ℕ := blockNum.toNat * 65536 + offset.toNat

/-- What the block functions are for: nothing is touched for an offset outside the block;
otherwise the write programs, and the read delivers, the bytes of the one range. -/
structure BlockTransfers (blockNum offset bytes : UInt32) : Prop where
  outside : 65536 ≤ offset.toNat → ∀ (pbuf : ℕ) (s : Bus),
    writeBlock pbuf blockNum offset bytes s = .ok () s ∧
      readBlock pbuf blockNum offset bytes s = .ok () s
  writes : offset.toNat < 65536 → ∀ (pbuf : ℕ) (mem ram : ℕ → UInt8),
    Settles (Ready mem ram) (writeBlock pbuf blockNum offset bytes)
      fun _ => Ready (merge (· &&& ·) mem (blockAddress blockNum offset)
        (slice ram pbuf (unitLength 65536 offset.toNat bytes.toNat))) ram
  reads : offset.toNat < 65536 → ∀ (pbuf : ℕ) (mem ram : ℕ → UInt8),
    Settles (Ready mem ram) (readBlock pbuf blockNum offset bytes)
      fun _ => Ready mem (overlay ram pbuf (slice mem (blockAddress blockNum offset)
        (unitLength 65536 offset.toNat bytes.toNat)))
  /-- On an erased range the read after the write returns what was written, and no byte
  outside the range has changed. -/
  reads_back : offset.toNat < 65536 → ∀ (pbuf qbuf : ℕ) (mem ram : ℕ → UInt8),
    let base := blockAddress blockNum offset
    let n := unitLength 65536 offset.toNat bytes.toNat
    (∀ i < n, mem (base + i) = 0xFF) →
    Settles (Ready mem ram)
      (do writeBlock pbuf blockNum offset bytes; readBlock qbuf blockNum offset bytes)
      fun _ t => (∀ i < n, t.ram (qbuf + i) = ram (pbuf + i)) ∧
        ∀ j, j < base ∨ base + n ≤ j → t.chip.mem j = mem j

/-! ### What the two functions do -/

/-- The first page of a block, for a block of the chip. -/
theorem toNat_block2page (hblock : blockNum.toNat < 256) :
    (block2page blockNum).toNat * 256 = blockNum.toNat * 65536 := by
  rw [block2page, UInt32.toNat_div, UInt32.toNat_mul, toNat_blockSize,
    toNat_pageSize]
  omega

/-- A block write lands in the sector with the number of the block. -/
theorem settles_writeBlock (hblock : blockNum.toNat < 256) (hofs : offset.toNat < 65536) :
    Settles (Ready mem ram) (writeBlock pbuf blockNum offset bytes)
      fun _ => Ready (merge (· &&& ·) mem (blockNum.toNat * 4096 + offset.toNat)
        (slice ram pbuf (unitLength 65536 offset.toNat bytes.toNat))) ram := by
  have hend : blockNum.toNat * 4096 + blockSize.toNat ≤ 2 ^ 24 := by
    rw [toNat_blockSize]
    omega
  exact settles_writeUnit (by decide) (toNat_sector2page (by omega)) hend hofs

/-- `w25q128jv_read_block` on an idle chip delivers the bytes of its block. -/
theorem settles_readBlock (hblock : blockNum.toNat < 256) (hofs : offset.toNat < 65536) :
    Settles (Ready mem ram) (readBlock pbuf blockNum offset bytes)
      fun _ => Ready mem (overlay ram pbuf (slice mem (blockAddress blockNum offset)
        (unitLength 65536 offset.toNat bytes.toNat))) := by
  have hend : blockNum.toNat * 65536 + blockSize.toNat ≤ 2 ^ 24 := by
    rw [toNat_blockSize]
    omega
  exact settles_readUnit (by decide) (toNat_block2page hblock) hend hofs

/-- An offset outside the block: neither function does anything. -/
theorem blocks_outside (hofs : 65536 ≤ offset.toNat) (s : Bus) :
    writeBlock pbuf blockNum offset bytes s = .ok () s ∧
      readBlock pbuf blockNum offset bytes s = .ok () s := by
  have hout : offset ≥ blockSize := UInt32.le_iff_toNat_le.mpr hofs
  exact ⟨overUnit_outside hout .., overUnit_outside hout ..⟩

/-! ### Reading back -/

/-- A write and a read of one range, on any functions that keep to it. -/
theorem settles_readBack {write read : Spi Unit} {base n qbuf : ℕ}
    (hwrite : Settles (Ready mem ram) write
      fun _ => Ready (merge (· &&& ·) mem base (slice ram pbuf n)) ram)
    (hread : ∀ mem', Settles (Ready mem' ram) read
      fun _ => Ready mem' (overlay ram qbuf (slice mem' base n)))
    (herased : ∀ i < n, mem (base + i) = 0xFF) :
    Settles (Ready mem ram) (do write; read) fun _ t =>
      (∀ i < n, t.ram (qbuf + i) = ram (pbuf + i)) ∧
        ∀ j, j < base ∨ base + n ≤ j → t.chip.mem j = mem j := by
  have hlen : (slice ram pbuf n).length = n := length_slice ..
  have hback : slice (merge (· &&& ·) mem base (slice ram pbuf n)) base n = slice ram pbuf n := by
    rw [merge_eq_overlay (b := 0xFF) (fun x => UInt8.neg_one_and) (by rwa [hlen])]
    have hread := slice_overlay mem base (slice ram pbuf n)
    rwa [hlen] at hread
  refine Triple.bind hwrite fun _ => (hread _).conseq (fun _ h => h) fun _ t ht => ⟨?_, ?_⟩
  · intro i hi
    rw [ht.ram_eq, hback, overlay_apply (by rwa [hlen]), getElem_slice]
  · intro j hj
    rw [ht.mem_eq]
    rcases hj with hj | hj
    · exact merge_apply_of_lt hj
    · exact merge_apply_of_le (by rwa [hlen])

/-! ### The two addresses -/

/-- With an offset outside the block, the functions do what they should: nothing. -/
theorem blockTransfers_of_outside (hofs : 65536 ≤ offset.toNat) :
    BlockTransfers blockNum offset bytes where
  outside _ _ s := blocks_outside hofs s
  writes hin := absurd hin (Nat.not_lt.mpr hofs)
  reads hin := absurd hin (Nat.not_lt.mpr hofs)
  reads_back hin := absurd hin (Nat.not_lt.mpr hofs)

/-- The block functions do what they should on block 0, whose first sector is sector 0. -/
theorem blockTransfers_zero (hblock : blockNum.toNat = 0) :
    BlockTransfers blockNum offset bytes := by
  have hwrites (hin : offset.toNat < 65536) (pbuf : ℕ) (mem ram : ℕ → UInt8) :
      Settles (Ready mem ram) (writeBlock pbuf blockNum offset bytes)
        fun _ => Ready (merge (· &&& ·) mem (blockAddress blockNum offset)
          (slice ram pbuf (unitLength 65536 offset.toNat bytes.toNat))) ram := by
    have h : Settles (Ready mem ram) (writeBlock pbuf blockNum offset bytes) _ :=
      settles_writeBlock (show blockNum.toNat < 256 by omega) hin
    rwa [hblock, Nat.zero_mul, ← Nat.zero_mul 65536, ← hblock] at h
  have hreads (hin : offset.toNat < 65536) (pbuf : ℕ) (mem ram : ℕ → UInt8) :
      Settles (Ready mem ram) (readBlock pbuf blockNum offset bytes) _ :=
    settles_readBlock (show blockNum.toNat < 256 by omega) hin
  exact {
    outside := fun hout _ s => blocks_outside hout s
    writes := hwrites
    reads := hreads
    reads_back := fun hin pbuf qbuf mem ram herased =>
      settles_readBack (hwrites hin pbuf mem ram) (fun mem' => hreads hin qbuf mem' ram) herased }

/-- From block 1 on, the last byte of the range of a block write keeps its value. -/
theorem not_blockTransfers (hblock : blockNum.toNat < 256) (hpos : 0 < blockNum.toNat)
    (hofs : offset.toNat < 65536) : ¬ BlockTransfers blockNum offset bytes := by
  intro h
  let s : Bus := ⟨⟨fun _ => 0xFF, false, 0, fun _ => 0⟩, none, fun _ => 0, []⟩
  have hs : Ready (fun _ => 0xFF) (fun _ => 0) s := ⟨rfl, rfl, rfl, rfl⟩
  have hn := unitLength_pos hofs bytes.toNat
  obtain ⟨n, hlen⟩ : ∃ n, unitLength 65536 offset.toNat bytes.toNat = n + 1 :=
    Nat.exists_eq_succ_of_ne_zero (Nat.ne_of_gt hn)
  obtain ⟨⟨⟩, t, hrun, ht⟩ := (h.writes hofs 0 _ _).returns hs
  have hwrites : Settles (Ready (fun _ => 0xFF) fun _ => 0)
      (writeBlock 0 blockNum offset bytes) _ := settles_writeBlock hblock hofs
  obtain ⟨⟨⟩, t', hrun', ht'⟩ := hwrites.returns hs
  obtain rfl : t = t' := by
    rw [hrun] at hrun'
    cases hrun'
    rfl
  -- the byte is cleared for the one, and past the end of the range for the other
  have hcleared := congrFun ht.mem_eq (blockAddress blockNum offset + n)
  have hkept := congrFun ht'.mem_eq (blockAddress blockNum offset + n)
  rw [merge_apply (by rw [length_slice, hlen]; omega), getElem_slice] at hcleared
  rw [merge_apply_of_le (by rw [length_slice, hlen, blockAddress]; omega)] at hkept
  rw [hcleared] at hkept
  revert hkept
  decide

/-- **Block transfers.** The two functions keep to the range of the block if and only if the
block is block 0 or they have nothing to do. -/
theorem blockTransfers_iff (hblock : blockNum.toNat < 256) :
    BlockTransfers blockNum offset bytes ↔ blockNum.toNat = 0 ∨ 65536 ≤ offset.toNat := by
  constructor
  · intro h
    by_contra hcond
    exact not_blockTransfers hblock (by omega) (by omega) h
  · rintro (hzero | hout)
    · exact blockTransfers_zero hzero
    · exact blockTransfers_of_outside hout

/-- Twenty bytes around the end of a page of block 0. -/
theorem blockTransfers_iff_acrossPages : BlockTransfers 0 250 20 :=
  (blockTransfers_iff (by decide)).mpr (.inl rfl)

/-- One byte for block 1 is written elsewhere. -/
theorem block_one_misses : ¬ BlockTransfers 1 0 1 :=
  not_blockTransfers (by decide) (by decide) (by decide)

end W25q128jv

end Num487Boot
