import Num487Boot.W25q128jv

/-!
# The Driver on an Idle Chip

What the functions of `w25q128jv.c` do when they find the chip idle, whatever its write
enable latch and its busy times to come. `Ready mem ram` are the states between two calls:
the array holds `mem`, the memory of the MCU holds `ram`, the chip is idle and `/CS` high.

## Main results

* `settles_waitForBusy`: the poll loop ends on every chip, and leaves it idle.
* `toNat_writePageBytes`, `toNat_readPageBytes`: the clamps of the page functions.
* `settles_eraseSector`, `settles_writePage`, `settles_readPage`: the array and the memory
  after the primitive operations.
* `settles_overUnit`: the `do`-`while` loops of the sector and block functions cover the
  bytes asked for, each once and in order, for any operation on pages.
* `settles_writeSector`, `settles_readSector`: its two instances.
-/

namespace Num487Boot

open Exec Memory

namespace W25q128jv

variable {c : Chip} {i : Instruction} {ram mem : ℕ → UInt8}

/-! ### One byte on the bus -/

/-- `/CS` low. -/
theorem settles_csEnable :
    Settles (Bus.Is c none ram) csEnable
      fun _ => Bus.Is c (some ⟨[], c.busy ≠ 0, c.wel⟩) ram := by
  rintro s ⟨rfl, -, rfl⟩
  exact ⟨rfl, rfl, rfl⟩

/-- An instruction that starts on an idle chip. -/
theorem settles_csEnable_idle (hc : c.busy = 0) :
    Settles (Bus.Is c none ram) csEnable fun _ => Bus.Is c (some ⟨[], false, c.wel⟩) ram := by
  have hidle : decide (c.busy ≠ 0) = false := by simp [hc]
  rw [← hidle]
  exact settles_csEnable

/-- `/CS` high. -/
theorem settles_csDisable :
    Settles (Bus.Is c (some i) ram) csDisable fun _ => Bus.Is (c.execute i) none ram := by
  rintro s ⟨rfl, hsel, rfl⟩
  have hdeselect : s.deselect
      = { s with chip := s.chip.execute i, selected := none, received := s.received ++ [i] } := by
    rw [Bus.deselect, hsel]
  show Bus.Is _ _ _ s.deselect
  rw [hdeselect]
  exact ⟨rfl, rfl, rfl⟩

/-- The end of an instruction that only reads. -/
theorem settles_csDisable_read {op : UInt8} {args : List UInt8} {busy wel : Bool}
    (h : op = Instr.readStatusReg1 ∨ op = Instr.fastRead) :
    Settles (Bus.Is c (some ⟨op :: args, busy, wel⟩) ram) csDisable
      fun _ => Bus.Is c none ram := by
  intro s hs
  have hend := settles_csDisable s hs
  rwa [Chip.execute_read h] at hend

/-- One byte out and one back. -/
theorem settles_spi (b : UInt8) :
    Settles (Bus.Is c (some i) ram) (spi b)
      fun v s => v = c.output i ∧ Bus.Is c.tick (some (i.push b)) ram s := by
  rintro s ⟨rfl, hsel, rfl⟩
  have hout : s.output = s.chip.output i := by rw [Bus.output, hsel]
  have hnext : s.selected.map (·.push b) = some (i.push b) := by rw [hsel]; rfl
  exact ⟨hout, rfl, hnext, rfl⟩

/-- On an idle chip no time passes that matters. -/
theorem settles_spi_idle (hc : c.busy = 0) (b : UInt8) :
    Settles (Bus.Is c (some i) ram) (spi b)
      fun v s => v = c.output i ∧ Bus.Is c (some (i.push b)) ram s := by
  intro s hs
  have h := settles_spi b s hs
  rwa [Chip.tick_of_idle hc] at h

/-! ### Runs of bytes -/

/-- The three address bytes, as they go out. -/
def addressBytes (addr : UInt32) : List UInt8 :=
  [((addr &&& 0xFF0000) >>> 16).toUInt8, ((addr &&& 0xFF00) >>> 8).toUInt8,
    (addr &&& 0xFF).toUInt8]

/-- The chip puts the address together again. -/
theorem norAddress_addressBytes (addr : UInt32) :
    norAddress ((addr &&& 0xFF0000) >>> 16).toUInt8 ((addr &&& 0xFF00) >>> 8).toUInt8
      (addr &&& 0xFF).toUInt8 = addr.toNat % 2 ^ 24 := by
  have hbyte : ∀ n k : ℕ, (n >>> k &&& 255) = n / 2 ^ k % 256 := fun n k => by
    have hmask : 255 = 2 ^ 8 - 1 := rfl
    rw [hmask, Nat.and_two_pow_sub_one_eq_mod, Nat.shiftRight_eq_div_pow]
  have h₂ : ((addr &&& 0xFF0000) >>> 16).toUInt8.toNat = addr.toNat / 2 ^ 16 % 256 := by
    simp [Nat.shiftRight_and_distrib, hbyte]
  have h₁ : ((addr &&& 0xFF00) >>> 8).toUInt8.toNat = addr.toNat / 2 ^ 8 % 256 := by
    simp [Nat.shiftRight_and_distrib, hbyte]
  have h₀ : (addr &&& 0xFF).toUInt8.toNat = addr.toNat % 256 := by
    have h := hbyte addr.toNat 0
    rw [Nat.shiftRight_zero, Nat.pow_zero, Nat.div_one] at h
    have hmod : (addr.toNat &&& 255) % 256 = addr.toNat % 256 := by rw [h, Nat.mod_mod]
    exact hmod
  rw [norAddress, h₂, h₁, h₀]
  omega

variable {bytes : List UInt8} {busy wel : Bool}

/-- The three address bytes. -/
theorem settles_spiAddress (hc : c.busy = 0) (addr : UInt32) :
    Settles (Bus.Is c (some ⟨bytes, busy, wel⟩) ram) (spiAddress addr)
      fun _ => Bus.Is c (some ⟨bytes ++ addressBytes addr, busy, wel⟩) ram := by
  refine Triple.bind (settles_spi_idle hc _) fun _ => Triple.lift fun _ => ?_
  refine Triple.bind (settles_spi_idle hc _) fun _ => Triple.lift fun _ => ?_
  refine Triple.bind (settles_spi_idle hc _) fun _ => Triple.lift fun _ => ?_
  exact Triple.pure fun s hs => by simpa [Instruction.push, addressBytes] using hs

/-- A byte of the MCU's memory. -/
theorem settles_ramLoad (pbuf : ℕ) {sel : Option Instruction} :
    Settles (Bus.Is c sel ram) (ramLoad pbuf)
      fun v s => v = ram pbuf ∧ Bus.Is c sel ram s := by
  rintro s ⟨hchip, hsel, rfl⟩
  exact ⟨rfl, hchip, hsel, rfl⟩

/-- A byte into the MCU's memory. -/
theorem settles_ramStore (pbuf : ℕ) (b : UInt8) {sel : Option Instruction} :
    Settles (Bus.Is c sel ram) (ramStore pbuf b)
      fun _ => Bus.Is c sel (Function.update ram pbuf b) :=
  Triple.modify fun _ hs => ⟨hs.1, hs.2.1, by rw [hs.2.2]⟩

/-- A run of bytes from the MCU's memory. -/
theorem settles_spiSend (hc : c.busy = 0) (pbuf n : ℕ) :
    Settles (Bus.Is c (some ⟨bytes, busy, wel⟩) ram) (spiSend pbuf n)
      fun _ => Bus.Is c (some ⟨bytes ++ slice ram pbuf n, busy, wel⟩) ram := by
  induction n generalizing pbuf bytes with
  | zero => exact Triple.pure fun s hs => by simpa using hs
  | succ n ih =>
      refine Triple.bind (settles_ramLoad pbuf) fun b => Triple.lift fun hb => ?_
      subst hb
      refine Triple.bind (settles_spi_idle hc _) fun _ => Triple.lift fun _ => ?_
      have htail := @ih (bytes ++ [ram pbuf]) (pbuf + 1)
      rwa [List.append_assoc, List.singleton_append, ← slice_succ] at htail

/-- A fast read delivers the array from its address on. -/
theorem settles_spiReceive (hc : c.busy = 0) {a₂ a₁ a₀ d : UInt8} {before : List UInt8}
    (pbuf n : ℕ) (hn : norAddress a₂ a₁ a₀ + before.length + n ≤ 2 ^ 24) :
    Settles
      (Bus.Is c (some ⟨Instr.fastRead :: a₂ :: a₁ :: a₀ :: d :: before, false, wel⟩) ram)
      (spiReceive pbuf n)
      fun _ s => ∃ after,
        Bus.Is c (some ⟨Instr.fastRead :: a₂ :: a₁ :: a₀ :: d :: after, false, wel⟩)
          (overlay ram pbuf (slice c.mem (norAddress a₂ a₁ a₀ + before.length) n)) s := by
  induction n generalizing pbuf ram before with
  | zero => exact Triple.pure fun s hs => ⟨before, by simpa using hs⟩
  | succ n ih =>
      refine Triple.bind (settles_spi_idle hc _) fun b => Triple.lift fun hb => ?_
      rw [Chip.output_fastRead, Nat.mod_eq_of_lt (by omega)] at hb
      subst hb
      refine Triple.bind (settles_ramStore pbuf _) fun _ => ?_
      have htail := @ih (Function.update ram pbuf (c.mem (norAddress a₂ a₁ a₀ + before.length)))
        (before ++ [dummyByte]) (pbuf + 1) (by simp; omega)
      rwa [List.length_append, List.length_singleton, ← Nat.add_assoc, overlay_update,
        ← slice_succ] at htail

/-! ### Busy polling -/

/-- As many polls as the chip stays busy for, and one more, are enough. -/
theorem settles_pollBusy {args : List UInt8} :
    Settles (Bus.Is c (some ⟨Instr.readStatusReg1 :: args, busy, wel⟩) ram)
      (pollBusy (c.busy + 1))
      fun _ s => ∃ args',
        Bus.Is c.settled (some ⟨Instr.readStatusReg1 :: args', busy, wel⟩) ram s := by
  induction hn : c.busy generalizing c args with
  | zero =>
      refine Triple.bind (settles_spi _) fun v => Triple.lift fun hv => ?_
      have hidle : ¬ v &&& 0x01 ≠ 0 := by
        rw [hv, Chip.output_status, Chip.status_busy]
        exact not_not.mpr hn
      rw [if_neg hidle, Chip.tick_of_idle hn, Chip.settled_of_idle hn]
      exact Triple.pure fun s hs => ⟨args ++ [dummyByte], hs⟩
  | succ n ih =>
      refine Triple.bind (settles_spi _) fun v => Triple.lift fun hv => ?_
      have hbusy : v &&& 0x01 ≠ 0 := by
        rw [hv, Chip.output_status, Chip.status_busy]
        omega
      rw [if_pos hbusy, ← Chip.settled_tick]
      exact ih (by rw [Chip.tick, hn]; rfl)

/-- **The poll loop ends**, on every chip, and leaves it idle. -/
theorem settles_waitForBusy :
    Settles (Bus.Is c none ram) waitForBusy fun _ => Bus.Is c.settled none ram := by
  refine Triple.bind settles_csEnable fun _ => ?_
  refine Triple.bind (settles_spi _) fun _ => Triple.lift fun _ => ?_
  refine Triple.bind Triple.get fun s => ?_
  rintro t ⟨hs, rfl⟩
  rw [hs.1]
  refine Triple.bind settles_pollBusy (fun _ => Triple.exists fun args => ?_) s hs
  rw [Chip.settled_tick]
  exact settles_csDisable_read (.inl rfl)

/-- An idle chip takes the write enable instruction. -/
theorem settles_writeEnable (hc : c.busy = 0) :
    Settles (Bus.Is c none ram) writeEnable
      fun _ => Bus.Is { c with wel := true } none ram := by
  refine Triple.bind (settles_csEnable_idle hc) fun _ => ?_
  refine Triple.bind (settles_spi_idle hc _) fun _ => Triple.lift fun _ => ?_
  exact settles_csDisable

/-! ### The counts of the source -/

/-- When a count is positive as an `int32_t`. -/
theorem toInt32_pos (u : UInt32) : u.toInt32 > 0 ↔ 0 < u.toNat ∧ u.toNat < 2 ^ 31 := by
  have htoInt : u.toInt32.toInt
      = if 2 * u.toNat < 2 ^ 32 then (u.toNat : Int) else (u.toNat : Int) - 2 ^ 32 :=
    BitVec.toInt_eq_toNat_cond u.toBitVec
  have hlt := u.toNat_lt
  rw [gt_iff_lt, Int32.lt_iff_toInt_lt, Int32.toInt_zero, htoInt]
  split <;> omega

/-- What is left of a page after an offset in it. -/
theorem toNat_pageSize_sub {offset : UInt32} (hofs : offset.toNat < 256) :
    (pageSize - offset).toNat = 256 - offset.toNat := by
  have hle : offset ≤ pageSize := by
    rw [UInt32.le_iff_toNat_le, toNat_pageSize]
    omega
  rw [UInt32.toNat_sub_of_le _ _ hle, toNat_pageSize]

/-- The comparison of `bytes + offset` with `bound`, when the sum does not wrap around. -/
theorem add_gt_iff {bytes offset bound : UInt32} (h : bytes.toNat + offset.toNat < 2 ^ 32) :
    bytes + offset > bound ↔ bound.toNat < bytes.toNat + offset.toNat := by
  rw [gt_iff_lt, UInt32.lt_iff_toNat_lt, UInt32.toNat_add, Nat.mod_eq_of_lt h]

/-- The test for zero, on the number. -/
theorem eq_zero_iff_toNat (bytes : UInt32) : bytes = 0 ↔ bytes.toNat = 0 :=
  UInt32.toNat_inj.symm

/-- One step of the count of a page loop, as long as the count stays positive. -/
theorem toInt32_sub_pos {left ofs : UInt32} (hofs : ofs.toNat < 256) (hle : left.toNat ≤ 65536) :
    (left - (pageSize - ofs)).toInt32 > 0 ↔ 256 - ofs.toNat < left.toNat := by
  rw [toInt32_pos, UInt32.toNat_sub, toNat_pageSize_sub hofs]
  omega

/-- The bytes an operation on a page covers from `offset` on: those asked for, when there are
any and the page holds them all, and what is left of the page otherwise. -/
def pageLength (offset bytes : ℕ) : ℕ :=
  if 1 ≤ bytes ∧ bytes ≤ 256 - offset then bytes else 256 - offset

/-- A positive count is cut at the end of the page. -/
theorem pageLength_of_pos {bytes : ℕ} (h : 0 < bytes) (offset : ℕ) :
    pageLength offset bytes = min bytes (256 - offset) := by
  rw [pageLength]
  split <;> omega

/-- No operation goes past the end of its page. -/
theorem pageLength_le (offset bytes : ℕ) : pageLength offset bytes ≤ 256 - offset := by
  rw [pageLength]
  split <;> omega

/-- What is left of the page passes the second clamp of both functions. -/
theorem pageSize_sub_add {offset : UInt32} (hofs : offset.toNat < 256) :
    ¬ pageSize - offset + offset > pageSize := by
  have hrest := toNat_pageSize_sub hofs
  rw [add_gt_iff (by omega), hrest, toNat_pageSize]
  omega

/-- The clamps of the write, when the sum does not wrap around. -/
theorem toNat_writePageBytes {offset bytes : UInt32} (hofs : offset.toNat < 256)
    (hsum : bytes.toNat + offset.toNat < 2 ^ 32) :
    (writePageBytes offset bytes).toNat = pageLength offset.toNat bytes.toNat := by
  have hclamp : bytes + offset > pageSize ↔ 256 < bytes.toNat + offset.toNat := add_gt_iff hsum
  rw [pageLength]
  by_cases hin : 1 ≤ bytes.toNat ∧ bytes.toNat ≤ 256 - offset.toNat
  · have hpass : ¬ bytes + offset > pageSize := by
      rw [hclamp]
      omega
    have hpos : bytes ≠ 0 := by
      rw [Ne, eq_zero_iff_toNat]
      omega
    simp only [writePageBytes, hpass, hpos, or_false, if_false, if_pos hin]
  · have hout : bytes + offset > pageSize ∨ bytes = 0 := by
      rw [hclamp, eq_zero_iff_toNat]
      omega
    simp only [writePageBytes, if_pos hout, if_neg (pageSize_sub_add hofs), if_neg hin,
      toNat_pageSize_sub hofs]

/-- A sum that wraps around passes both clamps of `w25q128jv_write_page`. -/
theorem writePageBytes_of_wrap {offset bytes : UInt32} (hofs : offset.toNat < 256)
    (hsum : 2 ^ 32 ≤ bytes.toNat + offset.toNat) : writePageBytes offset bytes = bytes := by
  have hpass : ¬ bytes + offset > pageSize := by
    rw [gt_iff_lt, UInt32.lt_iff_toNat_lt, UInt32.toNat_add, toNat_pageSize]
    have := bytes.toNat_lt
    omega
  have hpos : bytes ≠ 0 := by
    rw [Ne, eq_zero_iff_toNat]
    omega
  simp only [writePageBytes, hpass, hpos, or_false, if_false]

/-- The clamps of the read, for every count. -/
theorem toNat_readPageBytes {offset : UInt32} (hofs : offset.toNat < 256) (bytes : UInt32) :
    (readPageBytes offset bytes).toNat = pageLength offset.toNat bytes.toNat := by
  have hlarge : bytes > pageSize ∨ bytes = 0 ↔ 256 < bytes.toNat ∨ bytes.toNat = 0 := by
    rw [gt_iff_lt, UInt32.lt_iff_toNat_lt, toNat_pageSize, eq_zero_iff_toNat]
  have hclamp : ∀ b : UInt32, b.toNat ≤ 256 →
      (b + offset > pageSize ↔ 256 < b.toNat + offset.toNat) := fun b hb =>
    add_gt_iff (by omega)
  have hpage : pageSize.toNat = 256 := rfl
  rw [pageLength]
  by_cases hwhole : 256 < bytes.toNat ∨ bytes.toNat = 0
  · -- the whole page from its start, or what is left of it from an offset
    simp only [readPageBytes, if_pos (hlarge.mpr hwhole), hclamp pageSize (by omega)]
    split
    · rw [toNat_pageSize_sub hofs, if_neg (by omega)]
    · rw [if_neg (by omega)]
      omega
  · simp only [readPageBytes, if_neg (mt hlarge.mp hwhole), hclamp bytes (by omega)]
    split
    · rw [toNat_pageSize_sub hofs, if_neg (by omega)]
    · rw [if_pos (by omega)]

/-- The bytes an operation on a unit of `size` bytes covers from `offset` on: a count of
zero or more than the unit stands for the whole unit, and nothing goes past its end. -/
def unitLength (size offset bytes : ℕ) : ℕ :=
  min (if bytes = 0 ∨ size < bytes then size else bytes) (size - offset)

/-- An offset in the unit leaves something to do. -/
theorem unitLength_pos {size offset : ℕ} (h : offset < size) (bytes : ℕ) :
    0 < unitLength size offset bytes := by
  rw [unitLength]
  split <;> omega

/-- The clamps of the sector and block functions. -/
theorem toNat_unitBytes {size offset bytes : UInt32} (hsize : size.toNat ≤ 65536)
    (hofs : offset.toNat < size.toNat) :
    (unitBytes size offset bytes).toUInt32.toNat
      = unitLength size.toNat offset.toNat bytes.toNat := by
  have hrest : (size - offset).toNat = size.toNat - offset.toNat :=
    UInt32.toNat_sub_of_le _ _ (by rw [UInt32.le_iff_toNat_le]; omega)
  have hcond : (bytes > size ∨ bytes = 0) ↔ (bytes.toNat = 0 ∨ size.toNat < bytes.toNat) := by
    rw [gt_iff_lt, UInt32.lt_iff_toNat_lt, eq_zero_iff_toNat, or_comm]
  simp only [unitBytes, unitLength, ← hcond]
  generalize hb : (if bytes > size ∨ bytes = 0 then size else bytes) = b
  have hbn : (if bytes > size ∨ bytes = 0 then size.toNat else bytes.toNat) = b.toNat := by
    rw [← hb]
    split <;> rfl
  have hble : b.toNat ≤ size.toNat := by
    rw [← hbn]
    split
    · exact Nat.le_refl _
    · rename_i h
      rw [hcond] at h
      omega
  rw [hbn]
  by_cases hclamp : size.toNat < b.toNat + offset.toNat
  · rw [if_pos ((add_gt_iff (by omega)).mpr hclamp), UInt32.toUInt32_toInt32, hrest]
    omega
  · rw [if_neg (mt (add_gt_iff (by omega)).mp hclamp), UInt32.toUInt32_toInt32]
    omega

/-! ### Primitive operations -/

/-- The array holds `mem`, the memory of the MCU `ram`, and the chip waits for a call. -/
structure Ready (mem ram : ℕ → UInt8) (s : Bus) : Prop where
  mem_eq : s.chip.mem = mem
  idle : s.chip.busy = 0
  deselected : s.selected = none
  ram_eq : s.ram = ram

/-- The head all programs and erases share: the chip has its write enable latch set when the
instruction begins. -/
theorem settles_enabled {k : Spi Unit} {Q : Unit → Bus → Prop}
    (h : ∀ c : Chip, c.busy = 0 → c.wel = true → c.mem = mem →
      Settles (Bus.Is c (some ⟨[], false, true⟩) ram) k Q) :
    Settles (Ready mem ram) (do writeEnable; waitForBusy; csEnable; k) Q := by
  rintro s ⟨rfl, hidle, hsel, rfl⟩
  refine Triple.bind (settles_writeEnable hidle) (fun _ => ?_) s ⟨rfl, hsel, rfl⟩
  refine Triple.bind settles_waitForBusy fun _ => ?_
  rw [Chip.settled_of_idle (c := { s.chip with wel := true }) hidle]
  refine Triple.bind (settles_csEnable_idle hidle) fun _ => ?_
  exact h _ hidle rfl rfl

/-- The tail they share: the instruction takes effect, and the busy time is waited for. -/
theorem settles_altered {op : UInt8} {args : List UInt8} (hwel : c.wel = true)
    (hop : op ≠ Instr.writeEnable ∧ op ≠ Instr.writeDisable)
    (halt : altered c.mem op args = some mem) :
    Settles (Bus.Is c (some ⟨op :: args, false, true⟩) ram)
      (do csDisable; waitForBusy) fun _ => Ready mem ram := by
  refine Triple.bind settles_csDisable fun _ => ?_
  refine settles_waitForBusy.conseq (fun _ h => h) fun _ t ht => ?_
  rw [Chip.settled_execute hwel halt hop] at ht
  exact ⟨by rw [ht.1], by rw [ht.1], ht.2.1, ht.2.2⟩

/-- `w25q128jv_erase_sector` on an idle chip. -/
theorem settles_eraseSector {sectorNum : UInt32} (h : sectorNum.toNat < 4096) :
    Settles (Ready mem ram) (eraseSector sectorNum)
      fun _ => Ready (eraseUnit 4096 mem (sectorNum.toNat * 4096)) ram := by
  have haddr : (sectorNum * sectorSize).toNat % 2 ^ 24 = sectorNum.toNat * 4096 := by
    rw [UInt32.toNat_mul, toNat_sectorSize]
    omega
  refine settles_enabled fun c hidle hwel hmem => ?_
  refine Triple.bind (settles_spi_idle hidle _) fun _ => Triple.lift fun _ => ?_
  refine Triple.bind (settles_spiAddress hidle _) fun _ => ?_
  refine settles_altered hwel (by decide) ?_
  rw [← haddr, ← norAddress_addressBytes, ← hmem]
  rfl

/-- The address of a byte in a page. -/
theorem toNat_pageAddress {pageNum offset : UInt32} (hpage : pageNum.toNat < 65536)
    (hofs : offset.toNat < 256) :
    (pageNum * pageSize + offset).toNat % 2 ^ 24 = pageNum.toNat * 256 + offset.toNat := by
  rw [UInt32.toNat_add, UInt32.toNat_mul, toNat_pageSize]
  omega

/-- `w25q128jv_write_page` on an idle chip. -/
theorem settles_writePage {pbuf : ℕ} {pageNum offset bytes : UInt32}
    (hpage : pageNum.toNat < 65536) (hofs : offset.toNat < 256) (hpos : 0 < bytes.toNat)
    (hle : bytes.toNat ≤ 65536) :
    Settles (Ready mem ram) (writePage pbuf pageNum offset bytes)
      fun _ => Ready (merge (· &&& ·) mem (pageNum.toNat * 256 + offset.toNat)
        (slice ram pbuf (min bytes.toNat (256 - offset.toNat)))) ram := by
  have hsum : bytes.toNat + offset.toNat < 2 ^ 32 := by omega
  have hn := toNat_writePageBytes hofs hsum
  rw [pageLength_of_pos hpos] at hn
  obtain ⟨n, hlen⟩ : ∃ n, min bytes.toNat (256 - offset.toNat) = n + 1 :=
    ⟨min bytes.toNat (256 - offset.toNat) - 1, by omega⟩
  refine settles_enabled fun c hidle hwel hmem => ?_
  refine Triple.bind (settles_spi_idle hidle _) fun _ => Triple.lift fun _ => ?_
  refine Triple.bind (settles_spiAddress hidle _) fun _ => ?_
  refine Triple.bind (settles_spiSend hidle _ _) fun _ => ?_
  refine settles_altered hwel (by decide) ?_
  rw [hn, ← programPage_eq_merge (by rw [length_slice]; omega),
    ← toNat_pageAddress hpage hofs, ← norAddress_addressBytes, ← hmem, hlen, slice_succ]
  rfl

/-- `w25q128jv_read_page` on an idle chip. -/
theorem settles_readPage {pbuf : ℕ} {pageNum offset bytes : UInt32}
    (hpage : pageNum.toNat < 65536) (hofs : offset.toNat < 256) :
    Settles (Ready mem ram) (readPage pbuf pageNum offset bytes)
      fun _ => Ready mem (overlay ram pbuf
        (slice mem (pageNum.toNat * 256 + offset.toNat)
          (pageLength offset.toNat bytes.toNat))) := by
  have hn := toNat_readPageBytes hofs bytes
  have hle := pageLength_le offset.toNat bytes.toNat
  rintro s ⟨rfl, hidle, hsel, rfl⟩
  refine Triple.bind (settles_csEnable_idle hidle) (fun _ => ?_) s ⟨rfl, hsel, rfl⟩
  refine Triple.bind (settles_spi_idle hidle _) fun _ => Triple.lift fun _ => ?_
  refine Triple.bind (settles_spiAddress hidle _) fun _ => ?_
  refine Triple.bind (settles_spi_idle hidle _) fun _ => Triple.lift fun _ => ?_
  refine Triple.bind (settles_spiReceive hidle _ _ ?_) fun _ => Triple.exists fun after => ?_
  · rw [norAddress_addressBytes, toNat_pageAddress hpage hofs, hn, List.length_nil]
    omega
  · rw [norAddress_addressBytes, toNat_pageAddress hpage hofs, hn, List.length_nil, Nat.add_zero]
    refine (settles_csDisable_read (.inr rfl)).conseq (fun _ h => h) fun _ t ht => ?_
    exact ⟨by rw [ht.1], by rw [ht.1, hidle], ht.2.1, ht.2.2⟩

/-! ### Sectors and blocks -/

section Pages

variable {page : ℕ → UInt32 → UInt32 → UInt32 → Spi Unit} {A : ℕ → Bus → Prop}
  {start total pbuf : ℕ}

/-- An operation on pages that, with `k` of the `total` bytes from address `start` on done,
does what is left of them in its page. -/
def DoesPage (page : ℕ → UInt32 → UInt32 → UInt32 → Spi Unit) (A : ℕ → Bus → Prop)
    (start total pbuf : ℕ) : Prop :=
  ∀ (k : ℕ) (pageNum ofs bytes : UInt32),
    pageNum.toNat * 256 + ofs.toNat = start + k → ofs.toNat < 256 → 0 < bytes.toNat →
    k + bytes.toNat = total →
    Settles (A k) (page (pbuf + k) pageNum ofs bytes)
      fun _ => A (k + min bytes.toNat (256 - ofs.toNat))

/-- **The page loop.** Each iteration does the rest of one page, so the loop ends with all
bytes done, after no more iterations than the bytes have pages. -/
theorem settles_overPages (hdoes : DoesPage page A start total pbuf)
    (hend : start + total ≤ 2 ^ 40) (htotal : total ≤ 65536) {fuel k : ℕ}
    {pageNum ofs : UInt32} {left : Int32}
    (haddr : pageNum.toNat * 256 + ofs.toNat = start + k) (hofs : ofs.toNat < 256)
    (hpos : 0 < left.toUInt32.toNat) (hleft : k + left.toUInt32.toNat = total)
    (hfuel : ofs.toNat + left.toUInt32.toNat ≤ 256 * fuel) :
    Settles (A k) (overPages page fuel (pbuf + k) pageNum ofs left) fun _ => A total := by
  induction fuel generalizing k pageNum ofs left with
  | zero => omega
  | succ fuel ih =>
      have hpage := hdoes k pageNum ofs left.toUInt32 haddr hofs hpos hleft
      have hnext : 256 - ofs.toNat < left.toUInt32.toNat →
          (pageNum.toNat + 1) * 256 + 0 = start + (k + (256 - ofs.toNat)) := by omega
      have hrest := toNat_pageSize_sub hofs
      have hmore : (left.toUInt32 - (pageSize - ofs)).toInt32 > 0
          ↔ 256 - ofs.toNat < left.toUInt32.toNat := toInt32_sub_pos hofs (by omega)
      refine Triple.bind hpage fun _ => Triple.ite (fun hc => ?_) fun hc => ?_
      · rw [hmore] at hc
        have hnat : (left.toUInt32 - (pageSize - ofs)).toNat
            = left.toUInt32.toNat - (256 - ofs.toNat) := by
          rw [UInt32.toNat_sub, hrest]
          omega
        have hsucc : (pageNum + 1).toNat = pageNum.toNat + 1 := by
          rw [UInt32.toNat_add, UInt32.toNat_one]
          omega
        have hfill : min left.toUInt32.toNat (256 - ofs.toNat) = 256 - ofs.toNat := by omega
        rw [hrest, Nat.add_assoc, hfill]
        refine ih ?_ (by decide) ?_ ?_ ?_
        · rw [hsucc, UInt32.toNat_zero]
          exact hnext hc
        · rw [UInt32.toUInt32_toInt32, hnat]
          omega
        · rw [UInt32.toUInt32_toInt32, hnat]
          omega
        · rw [UInt32.toUInt32_toInt32, hnat, UInt32.toNat_zero]
          omega
      · rw [hmore] at hc
        have hall : k + min left.toUInt32.toNat (256 - ofs.toNat) = total := by omega
        rw [hall]
        exact Triple.pure fun _ hs => hs

variable {unit2page : UInt32 → UInt32} {size unitNum offset bytes : UInt32} {base : ℕ}

/-- The body of the sector and block functions, on a unit of whole pages from address `base`
on. -/
theorem settles_overUnit (hsize : size.toNat ≤ 65536 ∧ size.toNat % 256 = 0)
    (hbase : (unit2page unitNum).toNat * 256 = base) (hunit : base + size.toNat ≤ 2 ^ 40)
    (hofs : offset.toNat < size.toNat)
    (hdoes : DoesPage page A (base + offset.toNat)
      (unitLength size.toNat offset.toNat bytes.toNat) pbuf) :
    Settles (A 0) (overUnit size unit2page page pbuf unitNum offset bytes)
      fun _ => A (unitLength size.toNat offset.toNat bytes.toNat) := by
  have hlen : (unitBytes size offset bytes).toUInt32.toNat
      = unitLength size.toNat offset.toNat bytes.toNat := toNat_unitBytes hsize.1 hofs
  have hle : unitLength size.toNat offset.toNat bytes.toNat ≤ size.toNat - offset.toNat :=
    Nat.min_le_right _ _
  have hpos : 0 < unitLength size.toNat offset.toNat bytes.toNat := unitLength_pos hofs _
  have hend : base + offset.toNat + unitLength size.toNat offset.toNat bytes.toNat ≤ 2 ^ 40 := by
    omega
  have haddr : ((unit2page unitNum).toNat + offset.toNat / 256) * 256 + offset.toNat % 256
      = base + offset.toNat := by
    rw [Nat.add_mul, Nat.add_assoc, hbase, Nat.div_add_mod']
  have hdiv : (offset / pageSize).toNat = offset.toNat / 256 := UInt32.toNat_div _ _
  have hmod : (offset % pageSize).toNat = offset.toNat % 256 := UInt32.toNat_mod _ _
  have hfuel : (size / pageSize).toNat = size.toNat / 256 := UInt32.toNat_div _ _
  have hnum : (unit2page unitNum + offset / pageSize).toNat
      = (unit2page unitNum).toNat + offset.toNat / 256 := by
    rw [UInt32.toNat_add, hdiv]
    omega
  have hin : ¬ offset ≥ size := by
    rw [ge_iff_le, UInt32.le_iff_toNat_le]
    omega
  rw [overUnit, if_neg hin]
  refine settles_overPages (k := 0) hdoes hend ?_ ?_ ?_ ?_ ?_ ?_
  · omega
  · rw [hnum, hmod]
    exact haddr
  · rw [hmod]
    omega
  · rw [hlen]
    exact hpos
  · rw [hlen, Nat.zero_add]
  · rw [hlen, hmod, hfuel]
    omega

end Pages

section Units

variable {start total pbuf : ℕ}

/-- One page of a write, in the array. -/
theorem doesPage_writePage (hend : start + total ≤ 2 ^ 24) (htotal : total ≤ 65536) :
    DoesPage writePage (fun k => Ready (merge (· &&& ·) mem start (slice ram pbuf k)) ram)
      start total pbuf := by
  intro k pageNum ofs bytes haddr hofs hpos hk
  refine (settles_writePage (by omega) hofs hpos (by omega)).conseq (fun _ h => h) fun _ t ht => ?_
  have hlen : start + k = start + (slice ram pbuf k).length := by rw [length_slice]
  rwa [haddr, hlen, merge_append, ← slice_append] at ht

/-- One page of a read, in the memory. -/
theorem doesPage_readPage (hend : start + total ≤ 2 ^ 24) :
    DoesPage readPage (fun k => Ready mem (overlay ram pbuf (slice mem start k)))
      start total pbuf := by
  intro k pageNum ofs bytes haddr hofs hpos hk
  refine (settles_readPage (by omega) hofs).conseq (fun _ h => h) fun _ t ht => ?_
  have hlen : pbuf + k = pbuf + (slice mem start k).length := by rw [length_slice]
  rwa [pageLength_of_pos hpos, haddr, hlen, overlay_append, ← slice_append] at ht

variable {unit2page : UInt32 → UInt32} {size unitNum offset bytes : UInt32} {base : ℕ}

/-- Writing to a unit programs the bytes asked for, from their address on. -/
theorem settles_writeUnit (hsize : size.toNat ≤ 65536 ∧ size.toNat % 256 = 0)
    (hbase : (unit2page unitNum).toNat * 256 = base) (hunit : base + size.toNat ≤ 2 ^ 24)
    (hofs : offset.toNat < size.toNat) :
    Settles (Ready mem ram) (overUnit size unit2page writePage pbuf unitNum offset bytes)
      fun _ => Ready (merge (· &&& ·) mem (base + offset.toNat)
        (slice ram pbuf (unitLength size.toNat offset.toNat bytes.toNat))) ram := by
  have hle : unitLength size.toNat offset.toNat bytes.toNat ≤ size.toNat - offset.toNat :=
    Nat.min_le_right _ _
  refine (settles_overUnit hsize hbase (by omega) hofs
    (doesPage_writePage (by omega) (by omega))).conseq (fun s hs => ?_) fun _ t ht => ht
  rwa [slice_zero, merge_nil]

/-- Reading from a unit delivers the bytes asked for, from their address on. -/
theorem settles_readUnit (hsize : size.toNat ≤ 65536 ∧ size.toNat % 256 = 0)
    (hbase : (unit2page unitNum).toNat * 256 = base) (hunit : base + size.toNat ≤ 2 ^ 24)
    (hofs : offset.toNat < size.toNat) :
    Settles (Ready mem ram) (overUnit size unit2page readPage pbuf unitNum offset bytes)
      fun _ => Ready mem (overlay ram pbuf (slice mem (base + offset.toNat)
        (unitLength size.toNat offset.toNat bytes.toNat))) := by
  have hle : unitLength size.toNat offset.toNat bytes.toNat ≤ size.toNat - offset.toNat :=
    Nat.min_le_right _ _
  refine (settles_overUnit hsize hbase (by omega) hofs
    (doesPage_readPage (by omega))).conseq (fun s hs => ?_) fun _ t ht => ht
  rwa [slice_zero, overlay_nil]

/-- The first page of a sector, for a sector of the chip. -/
theorem toNat_sector2page {sectorNum : UInt32} (hsector : sectorNum.toNat < 4096) :
    (sector2page sectorNum).toNat * 256 = sectorNum.toNat * 4096 := by
  rw [sector2page, UInt32.toNat_div, UInt32.toNat_mul, toNat_sectorSize,
    toNat_pageSize]
  omega

/-- `w25q128jv_write_sector` on an idle chip. -/
theorem settles_writeSector {sectorNum : UInt32} (hsector : sectorNum.toNat < 4096)
    (hofs : offset.toNat < 4096) :
    Settles (Ready mem ram) (writeSector pbuf sectorNum offset bytes)
      fun _ => Ready (merge (· &&& ·) mem (sectorNum.toNat * 4096 + offset.toNat)
        (slice ram pbuf (unitLength 4096 offset.toNat bytes.toNat))) ram :=
  settles_writeUnit (by decide) (toNat_sector2page hsector)
    (by rw [toNat_sectorSize]; omega) hofs

/-- `w25q128jv_read_sector` on an idle chip. -/
theorem settles_readSector {sectorNum : UInt32} (hsector : sectorNum.toNat < 4096)
    (hofs : offset.toNat < 4096) :
    Settles (Ready mem ram) (readSector pbuf sectorNum offset bytes)
      fun _ => Ready mem (overlay ram pbuf (slice mem (sectorNum.toNat * 4096 + offset.toNat)
        (unitLength 4096 offset.toNat bytes.toNat))) :=
  settles_readUnit (by decide) (toNat_sector2page hsector)
    (by rw [toNat_sectorSize]; omega) hofs

end Units

end W25q128jv

end Num487Boot
