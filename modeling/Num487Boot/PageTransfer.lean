import Num487Boot.SectorTransfer

/-!
# Page Transfers

`w25q128jv_write_page` and `w25q128jv_read_page` clamp their byte count to the page of the
offset, in a different order. The read compares with the page size before it adds the offset,
and covers the same bytes for every count. The write adds first: a sum that wraps around in
`uint32_t` is small again and passes both clamps, and the count goes out on the bus as it is.

## Main results

* `loadsWithin_writePage`: a write looks at as many bytes of its buffer as it goes by.
* `pageTransfers_of_sum`, `not_pageTransfers_of_wrap`: the counts whose sum with the offset fits
  in 32 bits, and the others.
* `pageTransfers_iff`: the two together.
-/

namespace Num487Boot

open Exec Memory

namespace W25q128jv

/-! ### What is loaded from the buffer -/

/-- Buses that agree on the chip and the instructions, and on the `n` bytes of the memory from
`pbuf` on. -/
structure AgreeOn (pbuf n : ℕ) (s t : Bus) : Prop where
  chip : s.chip = t.chip
  selected : s.selected = t.selected
  received : s.received = t.received
  ram : ∀ i < n, s.ram (pbuf + i) = t.ram (pbuf + i)

/-- Of the memory, `x` looks at the `n` bytes from `pbuf` on at most: whatever the others are,
it does the same on the bus. -/
def LoadsWithin {α : Type} (pbuf n : ℕ) (x : Spi α) : Prop :=
  Coupled (AgreeOn pbuf n) x (fun _ => AgreeOn pbuf n) (AgreeOn pbuf n)

section LoadsWithin

variable {pbuf n k m : ℕ}

/-- `/CS` low loads nothing. -/
theorem loadsWithin_csEnable : LoadsWithin pbuf n csEnable :=
  .modify fun _ _ h => ⟨h.chip, by rw [Bus.select, Bus.select, h.chip], h.received, h.ram⟩

/-- `/CS` high loads nothing. -/
theorem loadsWithin_csDisable : LoadsWithin pbuf n csDisable := by
  refine .modify fun s t h => ?_
  rw [Bus.deselect, Bus.deselect, ← h.selected]
  split
  · exact ⟨by rw [h.chip], rfl, by rw [h.received], h.ram⟩
  · exact h

/-- A byte the driver has at hand is not loaded. -/
theorem loadsWithin_spi (b : UInt8) : LoadsWithin pbuf n (spi b) := by
  intro s t h
  have hout : s.output = t.output := by rw [Bus.output, Bus.output, h.selected, h.chip]
  exact ⟨hout, congrArg Chip.tick h.chip, congrArg (Option.map (Instruction.push · b)) h.selected,
    h.received, h.ram⟩

/-- The write enable instruction loads nothing. -/
theorem loadsWithin_writeEnable : LoadsWithin pbuf n writeEnable :=
  .bind loadsWithin_csEnable fun _ => .bind (loadsWithin_spi _) fun _ => loadsWithin_csDisable

/-- The poll loop loads nothing. -/
theorem loadsWithin_pollBusy (fuel : ℕ) : LoadsWithin pbuf n (pollBusy fuel) := by
  induction fuel with
  | zero => exact fun _ _ h => ⟨rfl, h⟩
  | succ fuel ih =>
      exact .bind (loadsWithin_spi _) fun _ => .ite (fun _ => ih) fun _ => .pure fun _ _ h => h

/-- The wait for the chip loads nothing. -/
theorem loadsWithin_waitForBusy : LoadsWithin pbuf n waitForBusy := by
  refine .bind loadsWithin_csEnable fun _ => .bind (loadsWithin_spi _) fun _ => fun s t h => ?_
  rw [bind_of_ok (get_apply s), bind_of_ok (get_apply t), h.chip]
  exact Coupled.bind (loadsWithin_pollBusy _) (fun _ => loadsWithin_csDisable) s t h

/-- The address loads nothing. -/
theorem loadsWithin_spiAddress (addr : UInt32) : LoadsWithin pbuf n (spiAddress addr) :=
  .bind (loadsWithin_spi _) fun _ => .bind (loadsWithin_spi _) fun _ =>
    .bind (loadsWithin_spi _) fun _ => .pure fun _ _ h => h

/-- The send loop, in a window that holds what is left to send. -/
theorem loadsWithin_spiSend (h : k + m ≤ n) : LoadsWithin pbuf n (spiSend (pbuf + k) m) := by
  induction m generalizing k with
  | zero => exact .pure fun _ _ h => h
  | succ m ih =>
      have hload : LoadsWithin pbuf n (ramLoad (pbuf + k)) := fun s t hst =>
        ⟨hst.ram k (by omega), hst⟩
      have hrest : LoadsWithin pbuf n (spiSend (pbuf + k + 1) m) := by
        rw [Nat.add_assoc]
        exact ih (by omega)
      exact .bind hload fun b => .bind (loadsWithin_spi b) fun _ => hrest

/-- A page write loads as many bytes as its clamps leave. -/
theorem loadsWithin_writePage {offset bytes : UInt32} (pageNum : UInt32)
    (h : (writePageBytes offset bytes).toNat ≤ n) :
    LoadsWithin pbuf n (writePage pbuf pageNum offset bytes) := by
  have hsend : LoadsWithin pbuf n (spiSend (pbuf + 0) (writePageBytes offset bytes).toNat) :=
    loadsWithin_spiSend (by omega)
  exact .bind loadsWithin_writeEnable fun _ => .bind loadsWithin_waitForBusy fun _ =>
    .bind loadsWithin_csEnable fun _ => .bind (loadsWithin_spi _) fun _ =>
    .bind (loadsWithin_spiAddress _) fun _ => .bind hsend fun _ =>
    .bind loadsWithin_csDisable fun _ => loadsWithin_waitForBusy

end LoadsWithin

/-! ### Both functions -/

/-- Both functions cover the same bytes of page `pageNum`, whatever state the chip is in: the
write sends each of them once, in page programs inside the page, and the read asks for each of
them once and stores as many bytes, which on a chip that is not busy are the bytes of the array.
Neither touches its buffer beyond what is left of the page. -/
structure PageTransfers (pbuf : ℕ) (pageNum offset bytes : UInt32) : Prop where
  loads : LoadsWithin pbuf (256 - offset.toNat) (writePage pbuf pageNum offset bytes)
  sends : ∀ s : Bus, s.selected = none →
    ∃ t, writePage pbuf pageNum offset bytes s = .ok () t ∧
      SendsRange pbuf (pageNum.toNat * 256 + offset.toNat)
        (pageLength offset.toNat bytes.toNat) s t
  stores : ∀ s : Bus, s.selected = none →
    ∃ t, readPage pbuf pageNum offset bytes s = .ok () t ∧
      StoresRange pbuf (pageNum.toNat * 256 + offset.toNat)
        (pageLength offset.toNat bytes.toNat) s t ∧
      (s.chip.busy = 0 → ∀ i < pageLength offset.toNat bytes.toNat,
        t.ram (pbuf + i) = s.chip.mem (pageNum.toNat * 256 + offset.toNat + i))

variable {pageNum offset bytes : UInt32}

/-- What a read stores when the chip is not busy. -/
theorem readPage_of_idle (pbuf : ℕ) (bytes : UInt32) {s t : Bus} (hsel : s.selected = none)
    (hidle : s.chip.busy = 0) (hpage : pageNum.toNat < 65536) (hofs : offset.toNat < 256)
    (hrun : readPage pbuf pageNum offset bytes s = .ok () t) {i : ℕ}
    (hi : i < pageLength offset.toNat bytes.toNat) :
    t.ram (pbuf + i) = s.chip.mem (pageNum.toNat * 256 + offset.toNat + i) := by
  have hready : Ready s.chip.mem s.ram s := ⟨rfl, hidle, hsel, rfl⟩
  have hreads : Settles (Ready s.chip.mem s.ram) (readPage pbuf pageNum offset bytes) _ :=
    settles_readPage hpage hofs
  obtain ⟨⟨⟩, u, hrun', hu⟩ := hreads.returns hready
  obtain rfl : t = u := by
    rw [hrun] at hrun'
    exact (EStateM.Result.ok.inj hrun').2
  have hi' : i < (slice s.chip.mem (pageNum.toNat * 256 + offset.toNat)
      (pageLength offset.toNat bytes.toNat)).length := by rwa [length_slice]
  rw [hu.ram_eq, overlay_apply hi', getElem_slice hi']

/-- A sum that fits in 32 bits passes both clamps as a count inside the page. -/
theorem pageTransfers_of_sum (pbuf : ℕ) (hpage : pageNum.toNat < 65536)
    (hofs : offset.toNat < 256) (hsum : bytes.toNat + offset.toNat < 2 ^ 32) :
    PageTransfers pbuf pageNum offset bytes where
  loads := by
    refine loadsWithin_writePage pageNum ?_
    rw [toNat_writePageBytes hofs hsum]
    exact pageLength_le _ _
  sends s hsel := sendsRange_writePage pbuf hsel hpage hofs hsum
  stores s hsel := by
    obtain ⟨t, hrun, ht⟩ := storesRange_readPage pbuf bytes hsel hpage hofs
    exact ⟨t, hrun, ht, fun hidle _ hi => readPage_of_idle pbuf bytes hsel hidle hpage hofs hrun hi⟩

/-- A sum that wraps around: the write sends all of its count, which no page holds. -/
theorem not_pageTransfers_of_wrap (pbuf : ℕ) (pageNum : UInt32) (hofs : offset.toNat < 256)
    (hsum : 2 ^ 32 ≤ bytes.toNat + offset.toNat) : ¬ PageTransfers pbuf pageNum offset bytes := by
  intro h
  have hsel : idleBus.selected = none := rfl
  obtain ⟨t, hrun, -, -, es, hes, -, hsent⟩ := h.sends idleBus hsel
  obtain ⟨u, es', wel, hrun', -, -, hes', -, hsent'⟩ :=
    writePage_programs pbuf pageNum offset bytes hsel
  obtain rfl : t = u := by
    rw [hrun] at hrun'
    exact (EStateM.Result.ok.inj hrun').2
  obtain rfl : es = es' := List.append_cancel_left (hes.symm.trans hes')
  have hlen := congrArg List.length (hsent.symm.trans hsent')
  rw [List.length_map, List.length_map, List.length_range, List.length_range,
    writePageBytes_of_wrap hofs hsum] at hlen
  have hle := pageLength_le offset.toNat bytes.toNat
  omega

/-- **Page transfers.** For every page, every offset in it and every byte count, the two
functions cover the same bytes of the page exactly when the sum of byte count and offset fits
in 32 bits. -/
theorem pageTransfers_iff (pbuf : ℕ) (pageNum offset bytes : UInt32)
    (hpage : pageNum.toNat < 65536) (hofs : offset.toNat < 256) :
    PageTransfers pbuf pageNum offset bytes ↔ bytes.toNat + offset.toNat < 2 ^ 32 := by
  constructor
  · intro h
    by_contra hsum
    exact not_pageTransfers_of_wrap pbuf pageNum hofs (by omega) h
  · exact pageTransfers_of_sum pbuf hpage hofs

/-- The last page, from its last byte, with the largest byte count that is safe there. -/
theorem pageTransfers_lastByte : PageTransfers 0 65535 255 4294967040 :=
  (pageTransfers_iff 0 65535 255 4294967040 (by decide) (by decide)).mpr (by decide)

/-- The largest byte count, one byte into a page. -/
theorem not_pageTransfers_largest : ¬ PageTransfers 0 0 1 4294967295 :=
  not_pageTransfers_of_wrap 0 0 (by decide) (by decide)

end W25q128jv

end Num487Boot
