import Num487Boot.BusTraffic

/-!
# Sector Transfers, Page by Page

`w25q128jv_write_sector` and `w25q128jv_read_sector` hand the rest of their byte count to a
page function that clamps it to its page, and count down by what is left of the page. The
two clamps agree: the page programs of a sector write send each byte once, in order, to its
address, and never across a page; a sector read asks for the bytes of its range and stores as
many. They are the bytes of the array unless the chip is busy at the call: a write waits for the
chip, a read does not.

## Main results

* `doesPage_sends`, `doesPage_stores`: one page of a transfer.
* `doesPage_busy`: one page of a read on a chip that is busy at the call.
* `sectorTransfers_iff`: the two functions, for every sector, offset and byte count, and every
  state of the chip.
-/

namespace Num487Boot

open Exec Memory

namespace W25q128jv

/-! ### What is programmed by an instruction -/

/-- The bytes a page program sends, each with its device address. -/
def programs (i : Instruction) : List (ℕ × UInt8) :=
  match i.bytes with
  | op :: a₂ :: a₁ :: a₀ :: data =>
      if op = Instr.pageProgram then (List.range' (norAddress a₂ a₁ a₀) data.length).zip data
      else []
  | _ => []

/-- The device addresses a fast read asks for, one for each byte after the dummy byte. -/
def fetches (i : Instruction) : List ℕ :=
  match i.bytes with
  | op :: a₂ :: a₁ :: a₀ :: _ :: data =>
      if op = Instr.fastRead then List.range' (norAddress a₂ a₁ a₀) data.length else []
  | _ => []

/-- A page program that does not cross a page boundary. -/
def InOnePage (i : Instruction) : Prop :=
  ∃ a₂ a₁ a₀ data, i.bytes = Instr.pageProgram :: a₂ :: a₁ :: a₀ :: data ∧
    norAddress a₂ a₁ a₀ % 256 + data.length ≤ 256

/-- Write enables and status reads program nothing. -/
theorem Housekeeping.programs_eq_nil {i : Instruction} (h : Housekeeping i) : programs i = [] := by
  rcases h with h | ⟨k, h⟩
  · simp [programs, h]
  · rw [programs, h]
    split
    · rename_i op _ _ _ _ heq
      obtain rfl : Instr.readStatusReg1 = op := (List.cons.inj heq).1
      rfl
    · rfl

/-- A page program sends its data to consecutive addresses. -/
theorem programs_page (addr : UInt32) (data : List UInt8) (busy wel : Bool) :
    programs ⟨Instr.pageProgram :: (addressBytes addr ++ data), busy, wel⟩ =
      (List.range' (addr.toNat % 2 ^ 24) data.length).zip data := by
  rw [← norAddress_addressBytes]
  rfl

/-- A page program stays in its page when the page has room for the data. -/
theorem inOnePage_page {addr : UInt32} {data : List UInt8} {busy wel : Bool}
    (h : addr.toNat % 2 ^ 24 % 256 + data.length ≤ 256) :
    InOnePage ⟨Instr.pageProgram :: (addressBytes addr ++ data), busy, wel⟩ := by
  rw [← norAddress_addressBytes] at h
  exact ⟨_, _, _, data, rfl, h⟩

/-- A fast read asks for an address with each byte after the dummy. -/
theorem fetches_page (addr : UInt32) (d : UInt8) (data : List UInt8) (busy wel : Bool) :
    fetches ⟨Instr.fastRead :: (addressBytes addr ++ d :: data), busy, wel⟩ =
      List.range' (addr.toNat % 2 ^ 24) data.length := by
  rw [← norAddress_addressBytes]
  rfl

/-- The bytes from `pbuf` on with the addresses from `base` on. -/
theorem zip_slice (ram : ℕ → UInt8) (base pbuf n : ℕ) :
    (List.range' base n).zip (slice ram pbuf n) =
      (List.range n).map fun i => (base + i, ram (pbuf + i)) := by
  apply List.ext_getElem (by simp)
  intro k _ _
  simp [slice]

/-! ### Writing -/

/-- From `s` to `t` exactly `n` bytes were sent, each once and in order: the byte at `pbuf + i`
of the memory to the device address `base + i`. -/
def SendsRange (pbuf base n : ℕ) (s t : Bus) : Prop :=
  t.selected = none ∧ t.ram = s.ram ∧ ∃ es, t.received = s.received ++ es ∧
    (∀ i ∈ es, Housekeeping i ∨ InOnePage i) ∧
    es.flatMap programs = (List.range n).map fun i => (base + i, s.ram (pbuf + i))

variable {s : Bus} {start total pbuf : ℕ}

/-- Nothing sent yet. -/
theorem sendsRange_zero (hsel : s.selected = none) : SendsRange pbuf start 0 s s :=
  ⟨hsel, rfl, [], (List.append_nil _).symm, by simp, rfl⟩

/-- Two adjacent ranges are one. -/
theorem sendsRange_append {t u : Bus} {m n : ℕ} (h : SendsRange pbuf start m s t)
    (h' : SendsRange (pbuf + m) (start + m) n t u) : SendsRange pbuf start (m + n) s u := by
  obtain ⟨-, hram, es, hes, hkind, hsent⟩ := h
  obtain ⟨hsel, hram', es', hes', hkind', hsent'⟩ := h'
  refine ⟨hsel, hram'.trans hram, es ++ es', by rw [hes', hes, List.append_assoc],
    fun i hi => ?_, ?_⟩
  · rcases List.mem_append.mp hi with hi | hi
    · exact hkind i hi
    · exact hkind' i hi
  · rw [List.flatMap_append, hsent, hsent', hram, List.range_add, List.map_append, List.map_map]
    simp [Function.comp_def, Nat.add_assoc]

/-- `w25q128jv_write_page` on any chip: one page program, of the bytes it goes by. -/
theorem writePage_programs (pbuf : ℕ) (pageNum ofs bytes : UInt32) (hsel : s.selected = none) :
    ∃ t es wel, writePage pbuf pageNum ofs bytes s = .ok () t ∧ t.selected = none ∧
      t.ram = s.ram ∧ t.received = s.received ++ es ∧
      (∀ i ∈ es, Housekeeping i ∨
        i = ⟨Instr.pageProgram :: (addressBytes (pageNum * pageSize + ofs) ++
          slice s.ram pbuf (writePageBytes ofs bytes).toNat), false, wel⟩) ∧
      es.flatMap programs = (List.range (writePageBytes ofs bytes).toNat).map
        fun i => ((pageNum * pageSize + ofs).toNat % 2 ^ 24 + i, s.ram (pbuf + i)) := by
  have hissues : Issues (writePage pbuf pageNum ofs bytes) s.ram _ :=
    issues_writePage pbuf pageNum ofs bytes
  obtain ⟨before, after, c', hrun, hothers, -⟩ := hissues s.chip s.received
  have hsame : s = ⟨s.chip, none, s.ram, s.received⟩ := by rw [← hsel]
  rw [← hsame] at hrun
  have hnone : ∀ es : List Instruction, (∀ j ∈ es, Housekeeping j) → es.flatMap programs = [] :=
    fun es hes => List.flatMap_eq_nil_iff.mpr fun j hj => (hes j hj).programs_eq_nil
  refine ⟨_, _, decide (s.chip.busy = 0), hrun, rfl, rfl, rfl, fun i hi => ?_, ?_⟩
  · rcases List.mem_append.mp hi with hi | hi
    · exact .inl (hothers i (List.mem_append_left _ hi))
    rcases List.mem_cons.mp hi with rfl | hi
    · exact .inr rfl
    · exact .inl (hothers i (List.mem_append_right _ hi))
  · rw [List.flatMap_append, List.flatMap_cons,
      hnone before fun j hj => hothers j (List.mem_append_left _ hj),
      hnone after fun j hj => hothers j (List.mem_append_right _ hj), List.nil_append,
      List.append_nil, programs_page, length_slice, zip_slice]

/-- One page: the page program sends what is left of the bytes in its page. -/
theorem sendsRange_writePage (pbuf : ℕ) {pageNum ofs bytes : UInt32} (hsel : s.selected = none)
    (hpage : pageNum.toNat < 65536) (hofs : ofs.toNat < 256)
    (hsum : bytes.toNat + ofs.toNat < 2 ^ 32) :
    ∃ t, writePage pbuf pageNum ofs bytes s = .ok () t ∧
      SendsRange pbuf (pageNum.toNat * 256 + ofs.toNat) (pageLength ofs.toNat bytes.toNat)
        s t := by
  obtain ⟨t, es, wel, hrun, hnone, hram, hes, hkind, hsent⟩ :=
    writePage_programs pbuf pageNum ofs bytes hsel
  have haddr := toNat_pageAddress hpage hofs
  have hle := pageLength_le ofs.toNat bytes.toNat
  rw [toNat_writePageBytes hofs hsum] at hkind hsent
  rw [haddr] at hsent
  refine ⟨t, hrun, hnone, hram, es, hes, fun i hi => ?_, hsent⟩
  rcases hkind i hi with hi | rfl
  · exact .inl hi
  · refine .inr (inOnePage_page ?_)
    rw [haddr, length_slice]
    omega

/-- `w25q128jv_write_page` sends the part of the range that lies in its page. -/
theorem doesPage_sends (s : Bus) (pbuf : ℕ) (hend : start + total ≤ 2 ^ 24)
    (htotal : total ≤ 65536) :
    DoesPage writePage (fun k => SendsRange pbuf start k s) start total pbuf := by
  intro k pageNum ofs bytes haddr hofs hpos hk t ht
  have hpage : pageNum.toNat < 65536 := by omega
  have hsum : bytes.toNat + ofs.toNat < 2 ^ 32 := by omega
  obtain ⟨u, hrun, hu⟩ := sendsRange_writePage (pbuf + k) ht.1 hpage hofs hsum
  rw [hrun]
  rw [haddr, pageLength_of_pos hpos] at hu
  exact sendsRange_append ht hu

/-! ### Reading -/

/-- From `s` to `t` the `n` device addresses from `base` on were asked for, each once and in
order, and exactly `n` bytes were stored, from `pbuf` on. -/
def StoresRange (pbuf base n : ℕ) (s t : Bus) : Prop :=
  t.selected = none ∧ (∃ data, t.ram = overlay s.ram pbuf data ∧ data.length = n) ∧
    ∃ es, t.received = s.received ++ es ∧ es.flatMap fetches = List.range' base n

/-- Nothing stored yet. -/
theorem storesRange_zero (hsel : s.selected = none) : StoresRange pbuf start 0 s s :=
  ⟨hsel, ⟨[], (overlay_nil _ _).symm, rfl⟩, [], (List.append_nil _).symm, rfl⟩

/-- Two adjacent ranges are one. -/
theorem storesRange_append {t u : Bus} {m n : ℕ} (h : StoresRange pbuf start m s t)
    (h' : StoresRange (pbuf + m) (start + m) n t u) : StoresRange pbuf start (m + n) s u := by
  obtain ⟨-, ⟨data, hram, hlen⟩, es, hes, hasked⟩ := h
  obtain ⟨hsel, ⟨data', hram', hlen'⟩, es', hes', hasked'⟩ := h'
  refine ⟨hsel, ⟨data ++ data', ?_, ?_⟩, es ++ es', ?_, ?_⟩
  · rw [hram', hram, ← hlen, overlay_append]
  · rw [List.length_append, hlen, hlen']
  · rw [hes', hes, List.append_assoc]
  · rw [List.flatMap_append, hasked, hasked', List.range'_append_1]

/-- One page: one fast read, of what is left of the bytes in the page. -/
theorem storesRange_readPage (pbuf : ℕ) {pageNum ofs : UInt32} (bytes : UInt32)
    (hsel : s.selected = none) (hpage : pageNum.toNat < 65536) (hofs : ofs.toNat < 256) :
    ∃ t, readPage pbuf pageNum ofs bytes s = .ok () t ∧
      StoresRange pbuf (pageNum.toNat * 256 + ofs.toNat) (pageLength ofs.toNat bytes.toNat)
        s t := by
  obtain ⟨c', data, busy, wel, hrun, hlen, -⟩ :=
    readPage_apply pbuf pageNum ofs bytes s.chip s.ram s.received
  have hsame : s = ⟨s.chip, none, s.ram, s.received⟩ := by rw [← hsel]
  have hn := toNat_readPageBytes hofs bytes
  rw [← hsame, hn] at hrun
  refine ⟨_, hrun, rfl, ⟨data, rfl, hlen.trans hn⟩, _, rfl, ?_⟩
  rw [List.flatMap_singleton, fetches_page, toNat_pageAddress hpage hofs, List.length_replicate]

/-- `w25q128jv_read_page` stores the part of the range that lies in its page. -/
theorem doesPage_stores (s : Bus) (pbuf : ℕ) (hend : start + total ≤ 2 ^ 24) :
    DoesPage readPage (fun k => StoresRange pbuf start k s) start total pbuf := by
  intro k pageNum ofs bytes haddr hofs hpos hk t ht
  have hpage : pageNum.toNat < 65536 := by omega
  obtain ⟨u, hrun, hu⟩ := storesRange_readPage (pbuf + k) bytes ht.1 hpage hofs
  rw [hrun]
  rw [haddr, pageLength_of_pos hpos] at hu
  exact storesRange_append ht hu

/-! ### The sector functions -/

variable {sectorNum offset bytes : UInt32}

/-- A sector is a number of pages. -/
theorem sectorSize_pages : sectorSize.toNat ≤ 65536 ∧ sectorSize.toNat % 256 = 0 := by decide

/-- The sectors of the chip end far below where a page number could wrap around. -/
theorem sector_end (hsector : sectorNum.toNat < 4096) :
    sectorNum.toNat * 4096 + sectorSize.toNat ≤ 2 ^ 40 := by
  rw [toNat_sectorSize]
  omega

/-- The bytes of a transfer stay inside their sector. -/
theorem unitLength_sector (offset bytes : ℕ) : unitLength 4096 offset bytes ≤ 4096 - offset :=
  Nat.min_le_right _ _

/-- A sector write sends its range. -/
theorem writeSector_sends (pbuf : ℕ) (bytes : UInt32) (hsel : s.selected = none)
    (hsector : sectorNum.toNat < 4096) (hin : offset.toNat < 4096) :
    ∃ t, writeSector pbuf sectorNum offset bytes s = .ok () t ∧
      SendsRange pbuf (sectorNum.toNat * 4096 + offset.toNat)
        (unitLength 4096 offset.toNat bytes.toNat) s t := by
  have hle := unitLength_sector offset.toNat bytes.toNat
  have hend : sectorNum.toNat * 4096 + offset.toNat +
      unitLength 4096 offset.toNat bytes.toNat ≤ 2 ^ 24 := by omega
  have hdoes := doesPage_sends s pbuf hend (by omega)
  obtain ⟨⟨⟩, t, hrun, ht⟩ := (settles_overUnit sectorSize_pages (toNat_sector2page hsector)
    (sector_end hsector) hin hdoes).returns (sendsRange_zero hsel)
  exact ⟨t, hrun, ht⟩

/-- A sector read stores its range. -/
theorem readSector_stores (pbuf : ℕ) (bytes : UInt32) (hsel : s.selected = none)
    (hsector : sectorNum.toNat < 4096) (hin : offset.toNat < 4096) :
    ∃ t, readSector pbuf sectorNum offset bytes s = .ok () t ∧
      StoresRange pbuf (sectorNum.toNat * 4096 + offset.toNat)
        (unitLength 4096 offset.toNat bytes.toNat) s t := by
  have hle := unitLength_sector offset.toNat bytes.toNat
  have hend : sectorNum.toNat * 4096 + offset.toNat +
      unitLength 4096 offset.toNat bytes.toNat ≤ 2 ^ 24 := by omega
  have hdoes := doesPage_stores s pbuf hend
  obtain ⟨⟨⟩, t, hrun, ht⟩ := (settles_overUnit sectorSize_pages (toNat_sector2page hsector)
    (sector_end hsector) hin hdoes).returns (storesRange_zero hsel)
  exact ⟨t, hrun, ht⟩

/-- The first byte a sector read stores on a busy chip is not one of the array. -/
theorem doesPage_busy (pbuf : ℕ) (hbusy : s.chip.busy ≠ 0) :
    DoesPage readPage (fun k t => t.selected = none ∧ (k = 0 → t.chip = s.chip) ∧
      (0 < k → t.ram pbuf = 0xFF)) start total pbuf := by
  intro k pageNum ofs bytes haddr hofs hpos hk t ⟨hsel, hchip, hram⟩
  obtain ⟨c', data, busy, wel, hrun, hlen, hignored⟩ :=
    readPage_apply (pbuf + k) pageNum ofs bytes t.chip t.ram t.received
  have hsame : t = ⟨t.chip, none, t.ram, t.received⟩ := by rw [← hsel]
  have hdata : data.length = min bytes.toNat (256 - ofs.toNat) := by
    rw [hlen, toNat_readPageBytes hofs, pageLength_of_pos hpos]
  rw [← hsame] at hrun
  rw [hrun]
  refine ⟨rfl, fun hzero => by omega, fun _ => ?_⟩
  rcases Nat.eq_zero_or_pos k with rfl | hk'
  · have h₀ : 0 < data.length := by omega
    have hff := hignored (by rw [hchip rfl]; exact hbusy) _ (List.getElem_mem h₀)
    exact (overlay_apply h₀).trans hff
  · exact (overlay_apply_of_lt (by omega)).trans (hram hk')

/-- On a busy chip the first byte a read stores is not one of the array. -/
theorem readSector_busy (pbuf : ℕ) (bytes : UInt32) (hsel : s.selected = none)
    (hbusy : s.chip.busy ≠ 0) (hsector : sectorNum.toNat < 4096) (hin : offset.toNat < 4096) :
    ∃ t, readSector pbuf sectorNum offset bytes s = .ok () t ∧ t.ram pbuf = 0xFF := by
  obtain ⟨⟨⟩, t, hrun, -, -, ht⟩ := (settles_overUnit sectorSize_pages
    (toNat_sector2page hsector) (sector_end hsector) hin (doesPage_busy pbuf hbusy)).returns
      ⟨hsel, fun _ => rfl, fun h => absurd h (Nat.lt_irrefl 0)⟩
  exact ⟨t, hrun, ht (unitLength_pos hin _)⟩

/-- What the sector functions are for, called on `s`: both return. They do nothing for an offset
outside the sector. Otherwise the write sends each byte of its range once to its address, in page
programs that stay inside a page, and nothing else but write enables and status reads; and the
read asks for each byte of its range once, stores into its range of the memory only, and stores
the bytes of the array. -/
structure SectorTransfers (s : Bus) (pbuf : ℕ) (sectorNum offset bytes : UInt32) : Prop where
  outside : 4096 ≤ offset.toNat → writeSector pbuf sectorNum offset bytes s = .ok () s ∧
    readSector pbuf sectorNum offset bytes s = .ok () s
  writes : offset.toNat < 4096 → ∃ t, writeSector pbuf sectorNum offset bytes s = .ok () t ∧
    SendsRange pbuf (sectorNum.toNat * 4096 + offset.toNat)
      (unitLength 4096 offset.toNat bytes.toNat) s t
  reads : offset.toNat < 4096 → ∃ t, readSector pbuf sectorNum offset bytes s = .ok () t ∧
    (∃ es, t.received = s.received ++ es ∧ es.flatMap fetches =
      List.range' (sectorNum.toNat * 4096 + offset.toNat)
        (unitLength 4096 offset.toNat bytes.toNat)) ∧
    (∀ j, j < pbuf ∨ pbuf + unitLength 4096 offset.toNat bytes.toNat ≤ j → t.ram j = s.ram j) ∧
    ∀ i < unitLength 4096 offset.toNat bytes.toNat,
      t.ram (pbuf + i) = s.chip.mem (sectorNum.toNat * 4096 + offset.toNat + i)

/-- Whatever state the chip is in, all but the stored bytes are as they should be; and these are
when the chip is idle. -/
theorem sectorTransfers_split (s : Bus) (hsel : s.selected = none) (pbuf : ℕ)
    (sectorNum offset bytes : UInt32) (hsector : sectorNum.toNat < 4096) :
    let base := sectorNum.toNat * 4096 + offset.toNat
    let n := unitLength 4096 offset.toNat bytes.toNat
    (4096 ≤ offset.toNat → writeSector pbuf sectorNum offset bytes s = .ok () s ∧
      readSector pbuf sectorNum offset bytes s = .ok () s) ∧
    (offset.toNat < 4096 →
      (∃ t, writeSector pbuf sectorNum offset bytes s = .ok () t ∧ SendsRange pbuf base n s t) ∧
      ∃ t, readSector pbuf sectorNum offset bytes s = .ok () t ∧
        (∃ es, t.received = s.received ++ es ∧ es.flatMap fetches = List.range' base n) ∧
        (∀ j, j < pbuf ∨ pbuf + n ≤ j → t.ram j = s.ram j) ∧
        (s.chip.busy = 0 → ∀ i < n, t.ram (pbuf + i) = s.chip.mem (base + i))) := by
  intro base n
  constructor
  · intro hout
    have hout : offset ≥ sectorSize := UInt32.le_iff_toNat_le.mpr hout
    exact ⟨overUnit_outside hout .., overUnit_outside hout ..⟩
  · intro hin
    refine ⟨writeSector_sends pbuf bytes hsel hsector hin, ?_⟩
    obtain ⟨t, hrun, -, ⟨data, hram, hlen⟩, hasked⟩ :=
      readSector_stores pbuf bytes hsel hsector hin
    refine ⟨t, hrun, hasked, fun j hj => ?_, fun hidle i hi => ?_⟩
    · rw [hram]
      rcases hj with hj | hj
      · exact overlay_apply_of_lt hj
      · exact overlay_apply_of_le (by rw [hlen]; exact hj)
    · have hready : Ready s.chip.mem s.ram s := ⟨rfl, hidle, hsel, rfl⟩
      have hreads : Settles (Ready s.chip.mem s.ram) (readSector pbuf sectorNum offset bytes) _ :=
        settles_readSector hsector hin
      obtain ⟨⟨⟩, u, hrun', hu⟩ := hreads.returns hready
      rw [hrun] at hrun'
      cases hrun'
      have hi' : i < (slice s.chip.mem base n).length := by rwa [length_slice]
      rw [hu.ram_eq]
      exact (overlay_apply hi').trans (getElem_slice hi')

/-- On an idle chip, or with nothing to transfer, both functions do what they should. -/
theorem sectorTransfers_of_idle (hsel : s.selected = none) (pbuf : ℕ) (bytes : UInt32)
    (hsector : sectorNum.toNat < 4096) (h : s.chip.busy = 0 ∨ 4096 ≤ offset.toNat) :
    SectorTransfers s pbuf sectorNum offset bytes := by
  obtain ⟨hout, hin⟩ := sectorTransfers_split s hsel pbuf sectorNum offset bytes hsector
  refine ⟨hout, fun hofs => (hin hofs).1, fun hofs => ?_⟩
  obtain ⟨-, t, hrun, hasked, hram, hstored⟩ := hin hofs
  exact ⟨t, hrun, hasked, hram, hstored (h.resolve_right (Nat.not_le.mpr hofs))⟩

/-- The bus with `mem` in the array of the chip. -/
def withArray (s : Bus) (mem : ℕ → UInt8) : Bus :=
  { s with chip := { s.chip with mem := mem } }

/-- On a busy chip the first byte read is `0xFF`, whatever the array holds. -/
theorem not_sectorTransfers_busy (pbuf : ℕ) (bytes : UInt32) (hsel : s.selected = none)
    (hbusy : s.chip.busy ≠ 0) (hsector : sectorNum.toNat < 4096) (hin : offset.toNat < 4096)
    (hmem : s.chip.mem (sectorNum.toNat * 4096 + offset.toNat) ≠ 0xFF) :
    ¬ SectorTransfers s pbuf sectorNum offset bytes := by
  intro h
  obtain ⟨t, hrun, -, -, hstored⟩ := h.reads hin
  obtain ⟨u, hrun', hff⟩ := readSector_busy pbuf bytes hsel hbusy hsector hin
  rw [hrun] at hrun'
  cases hrun'
  have hfirst := hstored 0 (unitLength_pos hin _)
  rw [Nat.add_zero, Nat.add_zero, hff] at hfirst
  exact hmem hfirst.symm

/-- **Sector transfers.** For every sector, every offset and byte count, and every state of the
chip: the sector functions do what they are for, whatever the array holds, if and only if the
chip is not busy at the call or the offset is outside the sector. -/
theorem sectorTransfers_iff (s : Bus) (hsel : s.selected = none) (pbuf : ℕ)
    (sectorNum offset bytes : UInt32) (hsector : sectorNum.toNat < 4096) :
    (∀ mem, SectorTransfers (withArray s mem) pbuf sectorNum offset bytes) ↔
      s.chip.busy = 0 ∨ 4096 ≤ offset.toNat := by
  constructor
  · intro h
    by_contra hnot
    obtain ⟨hbusy, hin⟩ := not_or.mp hnot
    exact not_sectorTransfers_busy (s := withArray s fun _ => 0) pbuf bytes hsel hbusy hsector
      (Nat.not_le.mp hin) (by simp [withArray]) (h fun _ => 0)
  · intro h mem
    exact sectorTransfers_of_idle (s := withArray s mem) hsel pbuf bytes hsector h

/-- An idle chip. -/
def idleBus : Bus :=
  ⟨⟨fun _ => 0xFF, false, 0, fun _ => 0⟩, none, fun j => j.toUInt8, []⟩

/-- Twenty bytes around the end of a page. -/
theorem sectorTransfers_iff_acrossPages : SectorTransfers idleBus 0 1 250 20 :=
  (sectorTransfers_iff idleBus rfl 0 1 250 20 (by decide)).mpr (.inl rfl) fun _ => 0xFF

/-- A chip that is still busy with the end of an operation the master no longer knows of, as
after a reset of the MCU, and with zeros in its array. -/
def chipMidErase : Bus :=
  ⟨⟨fun _ => 0, false, 1, fun _ => 0⟩, none, fun j => j.toUInt8, []⟩

/-- The first byte read from it is not the one of the array. -/
theorem not_sectorTransfers_chipMidErase : ¬ SectorTransfers chipMidErase 0 1 250 20 :=
  not_sectorTransfers_busy 0 20 rfl (by decide) (by decide) (by decide) (by decide)

end W25q128jv

end Num487Boot
