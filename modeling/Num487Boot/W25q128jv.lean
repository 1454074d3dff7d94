import Num487Boot.NorChip

/-!
# The Driver of the External Flash

`w25q128jv.c`, function by function: the exchange of one byte, the write enable and busy
polling sequences, and the erase, program and read operations of a byte, a page, a sector
and a block.
Numbers are the 32-bit integers of the source, with their wrap-around; a pointer is an
address in the memory of the MCU.

The two loops of the source without a bound of their own run on fuel: the polls of
`w25q128jv_wait_for_busy` as many as the chip will answer with `BUSY`, and one more; the
`do`-`while` loops over pages one iteration for each page of the unit. Running out halts with
`SpiHalt.endless`.
-/

namespace Num487Boot

namespace W25q128jv

/-- `W25Q128JV_PAGE_SIZE` -/
def pageSize : UInt32 := 256
/-- `W25Q128JV_SECTOR_SIZE` -/
def sectorSize : UInt32 := 4096
/-- `W25Q128JV_BLOCK_SIZE` -/
def blockSize : UInt32 := 65536
/-- `W25Q128JV_DUMMY_BYTE` -/
def dummyByte : UInt8 := 0x00

/-- A page has 256 bytes. -/
theorem toNat_pageSize : pageSize.toNat = 256 := rfl

/-- A sector has 4096 bytes. -/
theorem toNat_sectorSize : sectorSize.toNat = 4096 := rfl

/-- A block has 65536 bytes. -/
theorem toNat_blockSize : blockSize.toNat = 65536 := rfl

/-! ### Porting layer -/

/-- `w25q128jv_spi` -/
def spi (data : UInt8) : Spi UInt8 := do
  let s ← get
  modify (·.exchange data)
  pure s.output

/-- `__w25q128jv_CS_ENABLE` -/
def csEnable : Spi Unit := modify (·.select)

/-- `__w25q128jv_CS_DISABLE` -/
def csDisable : Spi Unit := modify (·.deselect)

/-! ### Static functions -/

/-- `w25q128jv_write_enable` -/
def writeEnable : Spi Unit := do
  csEnable
  let _ ← spi Instr.writeEnable
  csDisable

/-- The polls of `w25q128jv_wait_for_busy`. -/
def pollBusy : ℕ → Spi Unit
  | 0 => throw .endless
  | fuel + 1 => do
      let status ← spi dummyByte
      if status &&& 0x01 ≠ 0 then pollBusy fuel else pure ()

/-- `w25q128jv_wait_for_busy`: the status is polled until the BUSY bit is clear. -/
def waitForBusy : Spi Unit := do
  csEnable
  let _ ← spi Instr.readStatusReg1
  let s ← get
  pollBusy (s.chip.busy + 1)
  csDisable

/-- `w25q128jv_sector2page` -/
def sector2page (sectorNum : UInt32) : UInt32 := sectorNum * sectorSize / pageSize

/-- `w25q128jv_block2page` -/
def block2page (blockNum : UInt32) : UInt32 := blockNum * blockSize / pageSize

/-- The three address bytes of an instruction. -/
def spiAddress (addr : UInt32) : Spi Unit := do
  let _ ← spi ((addr &&& 0xFF0000) >>> 16).toUInt8
  let _ ← spi ((addr &&& 0xFF00) >>> 8).toUInt8
  let _ ← spi (addr &&& 0xFF).toUInt8

/-- `*pbuf`, read -/
def ramLoad (pbuf : ℕ) : Spi UInt8 := do
  let s ← get
  pure (s.ram pbuf)

/-- `*pbuf = b` -/
def ramStore (pbuf : ℕ) (b : UInt8) : Spi Unit :=
  modify fun s => { s with ram := Function.update s.ram pbuf b }

/-- `for (i = 0; i < n; i++) w25q128jv_spi(pbuf[i]);` -/
def spiSend : ℕ → ℕ → Spi Unit
  | _, 0 => pure ()
  | pbuf, n + 1 => do
      let b ← ramLoad pbuf
      let _ ← spi b
      spiSend (pbuf + 1) n

/-- `for (i = 0; i < n; i++) pbuf[i] = w25q128jv_spi(W25Q128JV_DUMMY_BYTE);` -/
def spiReceive : ℕ → ℕ → Spi Unit
  | _, 0 => pure ()
  | pbuf, n + 1 => do
      let b ← spi dummyByte
      ramStore pbuf b
      spiReceive (pbuf + 1) n

/-! ### Erase -/

/-- `w25q128jv_erase_chip` -/
def eraseChip : Spi Unit := do
  writeEnable
  waitForBusy
  csEnable
  let _ ← spi Instr.chipErase
  csDisable
  waitForBusy

/-- `w25q128jv_erase_sector` -/
def eraseSector (sectorNum : UInt32) : Spi Unit := do
  writeEnable
  waitForBusy
  csEnable
  let _ ← spi Instr.sectorErase4KB
  spiAddress (sectorNum * sectorSize)
  csDisable
  waitForBusy

/-- `w25q128jv_erase_block` -/
def eraseBlock (blockNum : UInt32) : Spi Unit := do
  writeEnable
  waitForBusy
  csEnable
  let _ ← spi Instr.blockErase64KB
  spiAddress (blockNum * blockSize)
  csDisable
  waitForBusy

/-! ### Bytes and pages -/

/-- `w25q128jv_write_byte` -/
def writeByte (b : UInt8) (addr : UInt32) : Spi Unit := do
  writeEnable
  waitForBusy
  csEnable
  let _ ← spi Instr.pageProgram
  spiAddress addr
  let _ ← spi b
  csDisable
  waitForBusy

/-- The byte count `w25q128jv_write_page` goes by, after its two clamps. -/
def writePageBytes (offset bytes : UInt32) : UInt32 :=
  let bytes := if bytes + offset > pageSize ∨ bytes = 0 then pageSize - offset else bytes
  if bytes + offset > pageSize then pageSize - offset else bytes

/-- `w25q128jv_write_page` -/
def writePage (pbuf : ℕ) (pageNum offset bytes : UInt32) : Spi Unit := do
  writeEnable
  waitForBusy
  csEnable
  let _ ← spi Instr.pageProgram
  spiAddress (pageNum * pageSize + offset)
  spiSend pbuf (writePageBytes offset bytes).toNat
  csDisable
  waitForBusy

/-- The byte count `w25q128jv_read_page` goes by, after its two clamps. -/
def readPageBytes (offset bytes : UInt32) : UInt32 :=
  let bytes := if bytes > pageSize ∨ bytes = 0 then pageSize else bytes
  if bytes + offset > pageSize then pageSize - offset else bytes

/-- `w25q128jv_read_page`. Unlike the functions that write and erase, it does not wait for the chip.
-/
def readPage (pbuf : ℕ) (pageNum offset bytes : UInt32) : Spi Unit := do
  csEnable
  let _ ← spi Instr.fastRead
  spiAddress (pageNum * pageSize + offset)
  let _ ← spi 0
  spiReceive pbuf (readPageBytes offset bytes).toNat
  csDisable

/-- `w25q128jv_read_byte` -/
def readByte (pbuf : ℕ) (addr : UInt32) : Spi Unit := do
  csEnable
  let _ ← spi Instr.fastRead
  spiAddress addr
  let _ ← spi 0
  let b ← spi dummyByte
  ramStore pbuf b
  csDisable

/-- `w25q128jv_read_bytes` -/
def readBytes (pbuf : ℕ) (addr bytes : UInt32) : Spi Unit := do
  csEnable
  let _ ← spi Instr.fastRead
  spiAddress addr
  let _ ← spi 0
  spiReceive pbuf bytes.toNat
  csDisable

/-! ### Sectors and blocks -/

/-- The `do`-`while` loop of the sector and block functions over the pages they touch. The
subtraction is in `uint32_t`, its result goes back to `int32_t`. -/
def overPages (page : ℕ → UInt32 → UInt32 → UInt32 → Spi Unit) :
    ℕ → ℕ → UInt32 → UInt32 → Int32 → Spi Unit
  | 0, _, _, _, _ => throw .endless
  | fuel + 1, pbuf, pageNum, ofs, left => do
      page pbuf pageNum ofs left.toUInt32
      let rest := (left.toUInt32 - (pageSize - ofs)).toInt32
      if rest > 0 then
        overPages page fuel (pbuf + (pageSize - ofs).toNat) (pageNum + 1) 0 rest
      else pure ()

/-- The number of bytes a function on a unit of `size` bytes goes by, for an offset inside
the unit. -/
def unitBytes (size offset bytes : UInt32) : Int32 :=
  let bytes := if bytes > size ∨ bytes = 0 then size else bytes
  if bytes + offset > size then (size - offset).toInt32 else bytes.toInt32

/-- The body the sector and block functions share: nothing for an offset outside the unit,
else the pages from the one of the offset on. -/
def overUnit (size : UInt32) (unit2page : UInt32 → UInt32)
    (page : ℕ → UInt32 → UInt32 → UInt32 → Spi Unit) (pbuf : ℕ)
    (unitNum offset bytes : UInt32) : Spi Unit :=
  if offset ≥ size then pure ()
  else overPages page (size / pageSize).toNat pbuf (unit2page unitNum + offset / pageSize)
    (offset % pageSize) (unitBytes size offset bytes)

/-- An offset outside the unit. -/
theorem overUnit_outside {size offset : UInt32} (h : offset ≥ size) (unit2page : UInt32 → UInt32)
    (page : ℕ → UInt32 → UInt32 → UInt32 → Spi Unit) (pbuf : ℕ) (unitNum bytes : UInt32)
    (s : Bus) : overUnit size unit2page page pbuf unitNum offset bytes s = .ok () s := by
  rw [overUnit, if_pos h]
  rfl

/-- `w25q128jv_write_sector` -/
def writeSector : ℕ → UInt32 → UInt32 → UInt32 → Spi Unit :=
  overUnit sectorSize sector2page writePage

/-- `w25q128jv_read_sector` -/
def readSector : ℕ → UInt32 → UInt32 → UInt32 → Spi Unit :=
  overUnit sectorSize sector2page readPage

/-- The block number is converted with `sector2page`, as in the source. -/
def writeBlock : ℕ → UInt32 → UInt32 → UInt32 → Spi Unit :=
  overUnit blockSize sector2page writePage

/-- `w25q128jv_read_block` -/
def readBlock : ℕ → UInt32 → UInt32 → UInt32 → Spi Unit :=
  overUnit blockSize block2page readPage

end W25q128jv

end Num487Boot
