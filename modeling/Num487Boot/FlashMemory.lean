import Num487Boot.BlockTransfer
import Num487Boot.Lib.Runs
import Num487Boot.SectorTransfer

/-!
# The External Flash as a Memory

All functions of `w25q128jv.c` that erase, program or read, in any order, with the caller filling
its buffers in between. Between two calls the chip is a NOR array and nothing else: an erase sets
the bytes of its unit, a program clears bits of the bytes it is given, a read delivers what the
array holds, and the write enables, the polls, the pages a transfer is cut into and the time the
chip stays busy do not show.

* `NorMemory`: the array and the memory of the MCU, with what a call makes of them.
* `FlashCall.Legal`: the numbers name a unit of the chip; an offset into a page lies in it, and
  its sum with the byte count of a write does not wrap around in 32 bits.
* `driver_run`: every run of legal calls returns, with the array and the memory the NOR memory
  has.
* `driver_reads_back`: bytes written to erased cells are read back, whatever was called in
  between and elsewhere.
-/

namespace Num487Boot

open Exec Memory Runs

namespace W25q128jv

/-! ### Calls -/

/-- What the functions with a unit number, an offset and a byte count work on. -/
inductive FlashUnit
  | page
  | sector
  | block
  deriving DecidableEq

namespace FlashUnit

/-- The bytes of a unit. -/
def size : FlashUnit → ℕ
  | page => 256
  | sector => 4096
  | block => 65536

/-- The write of a unit. -/
def write : FlashUnit → ℕ → UInt32 → UInt32 → UInt32 → Spi Unit
  | page => writePage
  | sector => writeSector
  | block => writeBlock

/-- The read of a unit. -/
def read : FlashUnit → ℕ → UInt32 → UInt32 → UInt32 → Spi Unit
  | page => readPage
  | sector => readSector
  | block => readBlock

/-- The unit whose number a write takes for its own: a block write goes to the sector with the
number of the block. -/
def writes : FlashUnit → FlashUnit
  | page => page
  | sector => sector
  | block => sector

/-- The device address of an offset. -/
def address (unit : FlashUnit) (num offset : UInt32) : ℕ := num.toNat * unit.size + offset.toNat

/-- What a transfer covers: the bytes of the unit from the offset on, and nothing for an offset
outside the unit. -/
def transferred (unit : FlashUnit) (offset bytes : UInt32) : ℕ :=
  if offset.toNat < unit.size then unitLength unit.size offset.toNat bytes.toNat else 0

end FlashUnit

/-- The calls of the driver, and what their caller does in between. -/
inductive FlashCall
  /-- The caller puts `data` into its memory. -/
  | fill (pbuf : ℕ) (data : List UInt8)
  | eraseChip
  | eraseSector (sectorNum : UInt32)
  | eraseBlock (blockNum : UInt32)
  | writeByte (b : UInt8) (addr : UInt32)
  | write (unit : FlashUnit) (pbuf : ℕ) (num offset bytes : UInt32)
  | readByte (pbuf : ℕ) (addr : UInt32)
  | readBytes (pbuf : ℕ) (addr bytes : UInt32)
  | read (unit : FlashUnit) (pbuf : ℕ) (num offset bytes : UInt32)

namespace FlashCall

/-- What a call runs. -/
def invoke : FlashCall → Spi Unit
  | fill pbuf data => modify fun s => { s with ram := overlay s.ram pbuf data }
  | eraseChip => W25q128jv.eraseChip
  | eraseSector sectorNum => W25q128jv.eraseSector sectorNum
  | eraseBlock blockNum => W25q128jv.eraseBlock blockNum
  | writeByte b addr => W25q128jv.writeByte b addr
  | write unit pbuf num offset bytes => unit.write pbuf num offset bytes
  | readByte pbuf addr => W25q128jv.readByte pbuf addr
  | readBytes pbuf addr bytes => W25q128jv.readBytes pbuf addr bytes
  | read unit pbuf num offset bytes => unit.read pbuf num offset bytes

/-- Call after call. -/
def perform (calls : List FlashCall) : Spi Unit := calls.forM invoke

/-- The numbers a call may be given. -/
def Legal : FlashCall → Prop
  | eraseSector sectorNum => sectorNum.toNat < 4096
  | eraseBlock blockNum => blockNum.toNat < 256
  | write .page _ num offset bytes =>
      num.toNat < 65536 ∧ offset.toNat < 256 ∧ bytes.toNat + offset.toNat < 2 ^ 32
  | read .page _ num offset _ => num.toNat < 65536 ∧ offset.toNat < 256
  | write .sector _ num _ _ | read .sector _ num _ _ => num.toNat < 4096
  | write .block _ num _ _ | read .block _ num _ _ => num.toNat < 256
  | _ => True

instance Legal.decide : DecidablePred Legal
  | fill .. | eraseChip | writeByte .. | readByte .. | readBytes .. => isTrue trivial
  | eraseSector _ | eraseBlock _ => Nat.decLt _ _
  | write .sector .. | read .sector .. | write .block .. | read .block .. => Nat.decLt _ _
  | write .page .. | read .page .. => instDecidableAnd

/-- What may be written may be read. -/
theorem Legal.read {unit : FlashUnit} {pbuf : ℕ} {num offset bytes : UInt32}
    (h : (FlashCall.write unit pbuf num offset bytes).Legal) (qbuf : ℕ) :
    (FlashCall.read unit qbuf num offset bytes).Legal := by
  cases unit with
  | page => exact ⟨h.1, h.2.1⟩
  | sector => exact h
  | block => exact h

end FlashCall

/-! ### The memory -/

/-- The bytes of `n` device addresses from `addr` on; after the last comes the first. -/
def wrapped (mem : ℕ → UInt8) (addr n : ℕ) : List UInt8 :=
  (List.range n).map fun i => mem ((addr + i) % 2 ^ 24)

/-- The first device address, and those after it. -/
theorem wrapped_succ (mem : ℕ → UInt8) (addr n : ℕ) :
    wrapped mem addr (n + 1) = mem (addr % 2 ^ 24) :: wrapped mem (addr + 1) n := by
  rw [wrapped, wrapped, List.range_succ_eq_map, List.map_cons, List.map_map, Nat.add_zero]
  congr 1
  refine List.map_congr_left fun i _ => ?_
  rw [Function.comp_apply, Nat.succ_eq_add_one, Nat.add_assoc, Nat.add_comm 1 i]

/-- The first address can be counted modulo the size of the chip. -/
theorem wrapped_mod (mem : ℕ → UInt8) (addr n : ℕ) :
    wrapped mem (addr % 2 ^ 24) n = wrapped mem addr n := by
  simp [wrapped]

/-- The array and the memory of the MCU. -/
structure NorMemory where
  mem : ℕ → UInt8
  ram : ℕ → UInt8

namespace NorMemory

/-- What a call makes of the array and the memory. -/
def next (m : NorMemory) : FlashCall → NorMemory
  | .fill pbuf data => { m with ram := overlay m.ram pbuf data }
  | .eraseChip => { m with mem := fun _ => 0xFF }
  | .eraseSector sectorNum => { m with mem := eraseUnit 4096 m.mem (sectorNum.toNat * 4096) }
  | .eraseBlock blockNum => { m with mem := eraseUnit 65536 m.mem (blockNum.toNat * 65536) }
  | .writeByte b addr => { m with mem := merge (· &&& ·) m.mem (addr.toNat % 2 ^ 24) [b] }
  | .write unit pbuf num offset bytes =>
      let data := slice m.ram pbuf (unit.transferred offset bytes)
      { m with mem := merge (· &&& ·) m.mem (unit.writes.address num offset) data }
  | .readByte pbuf addr => { m with ram := overlay m.ram pbuf (wrapped m.mem addr.toNat 1) }
  | .readBytes pbuf addr bytes =>
      { m with ram := overlay m.ram pbuf (wrapped m.mem addr.toNat bytes.toNat) }
  | .read unit pbuf num offset bytes =>
      let data := slice m.mem (unit.address num offset) (unit.transferred offset bytes)
      { m with ram := overlay m.ram pbuf data }

end NorMemory

/-! ### Single calls -/

variable {mem ram : ℕ → UInt8} {pbuf : ℕ}

/-- `w25q128jv_erase_chip` -/
theorem settles_eraseChip :
    Settles (Ready mem ram) eraseChip fun _ => Ready (fun _ => 0xFF) ram := by
  refine settles_enabled fun c hidle hwel _ => ?_
  refine Triple.bind (settles_spi_idle hidle _) fun _ => Triple.lift fun _ => ?_
  exact settles_altered hwel (by decide) rfl

/-- `w25q128jv_erase_block` -/
theorem settles_eraseBlock {blockNum : UInt32} (h : blockNum.toNat < 256) :
    Settles (Ready mem ram) (eraseBlock blockNum)
      fun _ => Ready (eraseUnit 65536 mem (blockNum.toNat * 65536)) ram := by
  have haddr : (blockNum * blockSize).toNat % 2 ^ 24 = blockNum.toNat * 65536 := by
    rw [UInt32.toNat_mul, toNat_blockSize]
    omega
  refine settles_enabled fun c hidle hwel hmem => ?_
  refine Triple.bind (settles_spi_idle hidle _) fun _ => Triple.lift fun _ => ?_
  refine Triple.bind (settles_spiAddress hidle _) fun _ => ?_
  refine settles_altered hwel (by decide) ?_
  rw [← haddr, ← norAddress_addressBytes, ← hmem]
  rfl

/-- Every address is inside some page. -/
theorem settles_writeByte (b : UInt8) (addr : UInt32) :
    Settles (Ready mem ram) (writeByte b addr)
      fun _ => Ready (merge (· &&& ·) mem (addr.toNat % 2 ^ 24) [b]) ram := by
  have hfits : addr.toNat % 2 ^ 24 % 256 + [b].length ≤ 256 := by
    rw [List.length_singleton]
    omega
  refine settles_enabled fun c hidle hwel hmem => ?_
  refine Triple.bind (settles_spi_idle hidle _) fun _ => Triple.lift fun _ => ?_
  refine Triple.bind (settles_spiAddress hidle _) fun _ => ?_
  refine Triple.bind (settles_spi_idle hidle _) fun _ => Triple.lift fun _ => ?_
  refine settles_altered hwel (by decide) ?_
  rw [← programPage_eq_merge hfits, ← norAddress_addressBytes, ← hmem]
  rfl

/-- On a page both clamps leave the same. -/
theorem unitLength_page {offset : ℕ} (h : offset < 256) (bytes : ℕ) :
    unitLength 256 offset bytes = pageLength offset bytes := by
  rw [unitLength, pageLength]
  split <;> split <;> omega

/-- A page write of any byte count that does not wrap around with the offset. -/
theorem settles_writePage_clamped {pageNum offset bytes : UInt32}
    (hpage : pageNum.toNat < 65536) (hofs : offset.toNat < 256)
    (hsum : bytes.toNat + offset.toNat < 2 ^ 32) :
    Settles (Ready mem ram) (writePage pbuf pageNum offset bytes)
      fun _ => Ready (merge (· &&& ·) mem (pageNum.toNat * 256 + offset.toNat)
        (slice ram pbuf (pageLength offset.toNat bytes.toNat))) ram := by
  have hn := toNat_writePageBytes hofs hsum
  have hle := pageLength_le offset.toNat bytes.toNat
  obtain ⟨n, hlen⟩ : ∃ n, pageLength offset.toNat bytes.toNat = n + 1 := by
    refine ⟨pageLength offset.toNat bytes.toNat - 1, ?_⟩
    rw [pageLength]
    split <;> omega
  refine settles_enabled fun c hidle hwel hmem => ?_
  refine Triple.bind (settles_spi_idle hidle _) fun _ => Triple.lift fun _ => ?_
  refine Triple.bind (settles_spiAddress hidle _) fun _ => ?_
  refine Triple.bind (settles_spiSend hidle _ _) fun _ => ?_
  refine settles_altered hwel (by decide) ?_
  rw [hn, ← programPage_eq_merge (by rw [length_slice]; omega),
    ← toNat_pageAddress hpage hofs, ← norAddress_addressBytes, ← hmem, hlen, slice_succ]
  rfl

/-- A fast read that goes past the last address goes on with the first. -/
theorem settles_spiReceive_wrapped {c : Chip} (hc : c.busy = 0) {wel : Bool}
    {a₂ a₁ a₀ d : UInt8} {before : List UInt8} (n : ℕ) :
    Settles
      (Bus.Is c (some ⟨Instr.fastRead :: a₂ :: a₁ :: a₀ :: d :: before, false, wel⟩) ram)
      (spiReceive pbuf n)
      fun _ s => ∃ after,
        Bus.Is c (some ⟨Instr.fastRead :: a₂ :: a₁ :: a₀ :: d :: after, false, wel⟩)
          (overlay ram pbuf (wrapped c.mem (norAddress a₂ a₁ a₀ + before.length) n)) s := by
  induction n generalizing pbuf ram before with
  | zero => exact Triple.pure fun s hs => ⟨before, by simpa [wrapped] using hs⟩
  | succ n ih =>
      refine Triple.bind (settles_spi_idle hc _) fun b => Triple.lift fun hb => ?_
      rw [Chip.output_fastRead] at hb
      subst hb
      refine Triple.bind (settles_ramStore pbuf _) fun _ => ?_
      have htail := @ih
        (Function.update ram pbuf (c.mem ((norAddress a₂ a₁ a₀ + before.length) % 2 ^ 24)))
        (pbuf + 1) (before ++ [dummyByte])
      rwa [List.length_append, List.length_singleton, ← Nat.add_assoc, overlay_update,
        ← wrapped_succ] at htail

/-- The head the two functions that read from an address share. -/
theorem settles_fastRead {addr : UInt32} {k : Spi Unit} {Q : Unit → Bus → Prop}
    (h : ∀ (c : Chip) (wel : Bool) (a₂ a₁ a₀ d : UInt8), c.busy = 0 → c.mem = mem →
      norAddress a₂ a₁ a₀ = addr.toNat % 2 ^ 24 →
      Settles (Bus.Is c (some ⟨[Instr.fastRead, a₂, a₁, a₀, d], false, wel⟩) ram) k Q) :
    Settles (Ready mem ram)
      (do csEnable; let _ ← spi Instr.fastRead; spiAddress addr; let _ ← spi 0; k) Q := by
  rintro s ⟨rfl, hidle, hsel, rfl⟩
  refine Triple.bind (settles_csEnable_idle hidle) (fun _ => ?_) s ⟨rfl, hsel, rfl⟩
  refine Triple.bind (settles_spi_idle hidle _) fun _ => Triple.lift fun _ => ?_
  refine Triple.bind (settles_spiAddress hidle _) fun _ => ?_
  refine Triple.bind (settles_spi_idle hidle _) fun _ => Triple.lift fun _ => ?_
  exact h _ _ _ _ _ _ hidle rfl (norAddress_addressBytes addr)

/-- Their end. -/
theorem settles_csDisable_fastRead {c : Chip} (hc : c.busy = 0) {args : List UInt8} {wel : Bool} :
    Settles (Bus.Is c (some ⟨Instr.fastRead :: args, false, wel⟩) ram) csDisable
      fun _ => Ready c.mem ram := by
  refine (settles_csDisable_read (.inr rfl)).conseq (fun _ h => h) fun _ t ht => ?_
  exact ⟨by rw [ht.1], by rw [ht.1, hc], ht.2.1, ht.2.2⟩

/-- `w25q128jv_read_bytes` -/
theorem settles_readBytes (addr bytes : UInt32) :
    Settles (Ready mem ram) (readBytes pbuf addr bytes)
      fun _ => Ready mem (overlay ram pbuf (wrapped mem addr.toNat bytes.toNat)) := by
  refine settles_fastRead fun c wel a₂ a₁ a₀ d hidle hmem haddr => ?_
  have hreceive :=
    @settles_spiReceive_wrapped ram pbuf c hidle wel a₂ a₁ a₀ d [] bytes.toNat
  rw [haddr, List.length_nil, Nat.add_zero, wrapped_mod] at hreceive
  rw [← hmem]
  exact Triple.bind hreceive fun _ => Triple.exists fun after => settles_csDisable_fastRead hidle

/-- `w25q128jv_read_byte` -/
theorem settles_readByte (addr : UInt32) :
    Settles (Ready mem ram) (readByte pbuf addr)
      fun _ => Ready mem (overlay ram pbuf (wrapped mem addr.toNat 1)) := by
  have hbyte : wrapped mem addr.toNat 1 = [mem (addr.toNat % 2 ^ 24)] := rfl
  rw [hbyte, ← overlay_update, overlay_nil]
  refine settles_fastRead fun c wel a₂ a₁ a₀ d hidle hmem haddr => ?_
  refine Triple.bind (settles_spi_idle hidle _) fun b => Triple.lift fun hb => ?_
  rw [Chip.output_fastRead, haddr, List.length_nil, Nat.add_zero, Nat.mod_mod, hmem] at hb
  subst hb
  rw [← hmem]
  exact Triple.bind (settles_ramStore pbuf _) fun _ => settles_csDisable_fastRead hidle

section Units

variable {num offset bytes : UInt32} {unit : FlashUnit}

/-- An offset in the unit. -/
theorem transferred_of_lt (h : offset.toNat < unit.size) (bytes : UInt32) :
    unit.transferred offset bytes = unitLength unit.size offset.toNat bytes.toNat := if_pos h

/-- An offset outside it. -/
theorem transferred_of_le (h : unit.size ≤ offset.toNat) (bytes : UInt32) :
    unit.transferred offset bytes = 0 := if_neg (Nat.not_lt.mpr h)

/-- A sector or block function does nothing for an offset outside the unit. -/
theorem settles_overUnit_outside {size : UInt32} {unit2page : UInt32 → UInt32}
    {page : ℕ → UInt32 → UInt32 → UInt32 → Spi Unit} (h : offset ≥ size) :
    Settles (Ready mem ram) (overUnit size unit2page page pbuf num offset bytes)
      fun _ => Ready mem ram := by
  intro s hs
  rw [overUnit_outside h]
  exact hs

/-- Any write clears bits of the cells it covers. -/
theorem settles_write (hlegal : (FlashCall.write unit pbuf num offset bytes).Legal) :
    Settles (Ready mem ram) (unit.write pbuf num offset bytes)
      fun _ => Ready (merge (· &&& ·) mem (unit.writes.address num offset)
        (slice ram pbuf (unit.transferred offset bytes))) ram := by
  by_cases hin : offset.toNat < unit.size
  · rw [transferred_of_lt hin]
    cases unit with
    | page =>
        obtain ⟨hpage, hofs, hsum⟩ := hlegal
        rw [FlashUnit.size, unitLength_page hofs]
        exact settles_writePage_clamped hpage hofs hsum
    | sector => exact settles_writeSector hlegal hin
    | block => exact settles_writeBlock hlegal hin
  · rw [transferred_of_le (Nat.not_lt.mp hin), slice_zero, merge_nil]
    cases unit with
    | page => exact absurd hlegal.2.1 hin
    | sector => exact settles_overUnit_outside (UInt32.le_iff_toNat_le.mpr (Nat.not_lt.mp hin))
    | block => exact settles_overUnit_outside (UInt32.le_iff_toNat_le.mpr (Nat.not_lt.mp hin))

/-- Any read delivers the cells it covers. -/
theorem settles_read (hlegal : (FlashCall.read unit pbuf num offset bytes).Legal) :
    Settles (Ready mem ram) (unit.read pbuf num offset bytes)
      fun _ => Ready mem (overlay ram pbuf
        (slice mem (unit.address num offset) (unit.transferred offset bytes))) := by
  by_cases hin : offset.toNat < unit.size
  · rw [transferred_of_lt hin]
    cases unit with
    | page =>
        obtain ⟨hpage, hofs⟩ := hlegal
        rw [FlashUnit.size, unitLength_page hofs]
        exact settles_readPage hpage hofs
    | sector => exact settles_readSector hlegal hin
    | block => exact settles_readBlock hlegal hin
  · rw [transferred_of_le (Nat.not_lt.mp hin), slice_zero, overlay_nil]
    cases unit with
    | page => exact absurd hlegal.2 hin
    | sector => exact settles_overUnit_outside (UInt32.le_iff_toNat_le.mpr (Nat.not_lt.mp hin))
    | block => exact settles_overUnit_outside (UInt32.le_iff_toNat_le.mpr (Nat.not_lt.mp hin))

end Units

/-! ### Runs -/

/-- The bus shows the array and the memory, and the chip waits for a call. -/
def NorMemory.On (m : NorMemory) : Bus → Prop := Ready m.mem m.ram

/-- Any legal call does to the bus what it does to the NOR memory. -/
theorem settles_invoke (m : NorMemory) {call : FlashCall} (hlegal : call.Legal) :
    Settles m.On call.invoke fun _ => (m.next call).On := by
  cases call with
  | fill pbuf data =>
      exact Triple.modify fun _ hs => ⟨hs.mem_eq, hs.idle, hs.deselected, by rw [hs.ram_eq]; rfl⟩
  | eraseChip => exact settles_eraseChip
  | eraseSector sectorNum => exact settles_eraseSector hlegal
  | eraseBlock blockNum => exact settles_eraseBlock hlegal
  | writeByte b addr => exact settles_writeByte b addr
  | write unit pbuf num offset bytes => exact settles_write hlegal
  | readByte pbuf addr => exact settles_readByte addr
  | readBytes pbuf addr bytes => exact settles_readBytes addr bytes
  | read unit pbuf num offset bytes => exact settles_read hlegal

/-- Any run of legal calls does to the bus what it does to the NOR memory. -/
theorem settles_run (m : NorMemory) {calls : List FlashCall} (hlegal : ∀ c ∈ calls, c.Legal) :
    Settles m.On (FlashCall.perform calls) fun _ => (run NorMemory.next m calls).On := by
  induction calls generalizing m with
  | nil => exact Triple.pure fun _ hs => hs
  | cons call calls ih =>
      rw [List.forall_mem_cons] at hlegal
      exact Triple.bind (settles_invoke m hlegal.1) fun _ => ih _ hlegal.2

/-- **The driver makes a memory of the chip.** On an idle chip, whatever it holds and however long
its operations take, every run of legal calls returns, and array and memory are those of the NOR
memory. -/
theorem driver_run {s : Bus} (hidle : s.chip.busy = 0) (hsel : s.selected = none)
    {calls : List FlashCall} (hlegal : ∀ c ∈ calls, c.Legal) :
    ∃ t, FlashCall.perform calls s = .ok () t ∧
      (run NorMemory.next ⟨s.chip.mem, s.ram⟩ calls).On t := by
  have hs : NorMemory.On ⟨s.chip.mem, s.ram⟩ s := ⟨rfl, hidle, hsel, rfl⟩
  obtain ⟨⟨⟩, t, hrun, ht⟩ := (settles_run _ hlegal).returns hs
  exact ⟨t, hrun, ht⟩

/-! ### Reading back -/

/-- The cells of the array a call erases. -/
def FlashCall.Erases (j : ℕ) : FlashCall → Prop
  | eraseChip => True
  | eraseSector sectorNum => j / 4096 = sectorNum.toNat
  | eraseBlock blockNum => j / 65536 = blockNum.toNat
  | _ => False

instance FlashCall.Erases.decide (j : ℕ) : DecidablePred (FlashCall.Erases j)
  | eraseChip => isTrue trivial
  | eraseSector _ | eraseBlock _ => Nat.decEq _ _
  | fill .. | writeByte .. | write .. | readByte .. | readBytes .. | read .. => isFalse id

/-- The cells of the array a call erases or programs. -/
def FlashCall.Touches (j : ℕ) : FlashCall → Prop
  | writeByte _ addr => j = addr.toNat % 2 ^ 24
  | write unit _ num offset bytes =>
      unit.writes.address num offset ≤ j ∧
        j < unit.writes.address num offset + unit.transferred offset bytes
  | call => call.Erases j

instance FlashCall.Touches.decide (j : ℕ) : DecidablePred (FlashCall.Touches j)
  | writeByte .. => Nat.decEq _ _
  | write .. => instDecidableAnd
  | eraseChip => isTrue trivial
  | eraseSector _ | eraseBlock _ => Nat.decEq _ _
  | fill .. | readByte .. | readBytes .. | read .. => isFalse id

/-- Some call of the list erases the cell, and no call after it touches the cell. -/
def FlashCall.LeaveErased (j : ℕ) : List FlashCall → Prop
  | [] => False
  | call :: calls => call.Erases j ∧ (∀ c ∈ calls, ¬ c.Touches j) ∨ LeaveErased j calls

instance FlashCall.LeaveErased.decide (j : ℕ) : DecidablePred (FlashCall.LeaveErased j)
  | [] => isFalse id
  | _ :: calls => @instDecidableOr _ _ instDecidableAnd (decide j calls)

namespace NorMemory

/-- A cell the call erases. -/
theorem next_of_erases {m : NorMemory} {call : FlashCall} {j : ℕ} (h : call.Erases j) :
    (m.next call).mem j = 0xFF := by
  cases call with
  | eraseChip => rfl
  | eraseSector sectorNum => exact if_pos (h.trans (Nat.mul_div_cancel _ (by decide)).symm)
  | eraseBlock blockNum => exact if_pos (h.trans (Nat.mul_div_cancel _ (by decide)).symm)
  | _ => exact h.elim

/-- A cell the call has nothing to do with. -/
theorem next_of_not_touches {m : NorMemory} {call : FlashCall} {j : ℕ} (h : ¬ call.Touches j) :
    (m.next call).mem j = m.mem j := by
  cases call with
  | fill => rfl
  | readByte => rfl
  | readBytes => rfl
  | read => rfl
  | eraseChip => exact absurd trivial h
  | eraseSector sectorNum =>
      exact if_neg fun hj => h (hj.trans (Nat.mul_div_cancel _ (by decide)))
  | eraseBlock blockNum =>
      exact if_neg fun hj => h (hj.trans (Nat.mul_div_cancel _ (by decide)))
  | writeByte b addr =>
      rcases Nat.lt_or_gt_of_ne h with hlt | hgt
      · exact merge_apply_of_lt hlt
      · exact merge_apply_of_le hgt
  | write unit pbuf num offset bytes =>
      by_cases hle : unit.writes.address num offset ≤ j
      · refine merge_apply_of_le ?_
        rw [length_slice]
        exact Nat.not_lt.mp fun hlt => h ⟨hle, hlt⟩
      · exact merge_apply_of_lt (Nat.not_le.mp hle)

/-- A cell no call touches keeps its value. -/
theorem run_of_not_touches {m : NorMemory} {calls : List FlashCall} {j : ℕ}
    (h : ∀ c ∈ calls, ¬ c.Touches j) : (run next m calls).mem j = m.mem j := by
  induction calls generalizing m with
  | nil => rfl
  | cons call calls ih =>
      rw [List.forall_mem_cons] at h
      rw [run_cons, ih h.2, next_of_not_touches h.1]

/-- What a write puts into erased cells stays there as long as no call touches them. -/
theorem written_stays {m : NorMemory} {after : List FlashCall} {unit : FlashUnit} {pbuf : ℕ}
    {num offset bytes : UInt32} (hunit : unit.writes = unit ∨ num = 0)
    (hblank : ∀ k < unit.transferred offset bytes, m.mem (unit.address num offset + k) = 0xFF)
    {i : ℕ} (hi : i < unit.transferred offset bytes)
    (hkept : ∀ c ∈ after, ¬ c.Touches (unit.address num offset + i)) :
    (run next m (.write unit pbuf num offset bytes :: after)).mem (unit.address num offset + i)
      = m.ram (pbuf + i) := by
  have hplace : unit.writes.address num offset = unit.address num offset := by
    rcases hunit with h | rfl
    · rw [h]
    · rw [FlashUnit.address, FlashUnit.address, UInt32.toNat_zero, Nat.zero_mul, Nat.zero_mul]
  have hlen : i < (slice m.ram pbuf (unit.transferred offset bytes)).length := by
    rwa [length_slice]
  rw [run_cons, run_of_not_touches hkept]
  show merge (· &&& ·) m.mem (unit.writes.address num offset)
    (slice m.ram pbuf (unit.transferred offset bytes)) (unit.address num offset + i) = _
  rw [hplace, merge_apply hlen, hblank i hi, getElem_slice]
  exact UInt8.neg_one_and

/-- A cell that is left erased reads as such. -/
theorem run_of_leaveErased {m : NorMemory} {calls : List FlashCall} {j : ℕ}
    (h : FlashCall.LeaveErased j calls) : (run next m calls).mem j = 0xFF := by
  induction calls generalizing m with
  | nil => exact h.elim
  | cons call calls ih =>
      rw [run_cons]
      rcases h with ⟨herases, hkept⟩ | h
      · rw [run_of_not_touches hkept, next_of_erases herases]
      · exact ih h

end NorMemory

/-- **Reading back.** On an idle chip, in any run of legal calls, what a write puts into cells that
the calls before it left erased, each cell by an erase of its own, is what a read of the same unit,
offset and byte count delivers, if no call in between touches the cells. A block write counts for
block 0 only, as it writes to a sector. -/
theorem driver_reads_back {s : Bus} (hidle : s.chip.busy = 0) (hsel : s.selected = none)
    {before after : List FlashCall} {unit : FlashUnit} {pbuf qbuf : ℕ}
    {num offset bytes : UInt32} (hbefore : ∀ c ∈ before, c.Legal)
    (hafter : ∀ c ∈ .write unit pbuf num offset bytes :: after, c.Legal)
    (hunit : unit.writes = unit ∨ num = 0)
    (herased : ∀ i < unit.transferred offset bytes,
      FlashCall.LeaveErased (unit.address num offset + i) before)
    (hapart : ∀ c ∈ after, ∀ i < unit.transferred offset bytes,
      ¬ c.Touches (unit.address num offset + i)) :
    ∃ t u, FlashCall.perform before s = .ok () t ∧
      FlashCall.perform (.write unit pbuf num offset bytes :: after ++
        [.read unit qbuf num offset bytes]) t = .ok () u ∧
      ∀ i < unit.transferred offset bytes, u.ram (qbuf + i) = t.ram (pbuf + i) := by
  obtain ⟨t, hrun, ht⟩ := driver_run hidle hsel hbefore
  have hlegal := (List.forall_mem_cons.mp hafter).1
  obtain ⟨u, hrun', hu⟩ := driver_run ht.idle ht.deselected
    (List.forall_mem_append.mpr ⟨hafter, List.forall_mem_singleton.mpr (hlegal.read qbuf)⟩)
  refine ⟨t, u, hrun, hrun', fun i hi => ?_⟩
  have hblank : ∀ k < unit.transferred offset bytes,
      t.chip.mem (unit.address num offset + k) = 0xFF := by
    intro k hk
    rw [ht.mem_eq]
    exact NorMemory.run_of_leaveErased (herased k hk)
  have hcell := @NorMemory.written_stays ⟨t.chip.mem, t.ram⟩ after unit pbuf num offset bytes
    hunit hblank i hi fun c hc => hapart c hc i hi
  rw [run_append, run_cons, run_nil] at hu
  rw [hu.ram_eq]
  show overlay _ qbuf (slice _ _ _) (qbuf + i) = _
  rw [overlay_apply (by rwa [length_slice]), getElem_slice, hcell]

/-- Two pages of a sector are written, in the order of their addresses, and the first is read. -/
theorem driver_run_twoPages :
    ∃ t, FlashCall.perform [.eraseSector 3, .fill 0 [1, 2, 3], .write .page 0 48 0 3,
        .write .page 0 49 0 3, .read .page 8 48 0 3] idleBus = .ok () t ∧
      (run NorMemory.next ⟨idleBus.chip.mem, idleBus.ram⟩ [.eraseSector 3, .fill 0 [1, 2, 3],
        .write .page 0 48 0 3, .write .page 0 49 0 3, .read .page 8 48 0 3]).On t :=
  driver_run rfl rfl (by decide)

/-- Four bytes around the end of the first sector, written and read as a part of block 0, whose
sectors were erased one by one, with a byte in front of them programmed in between. -/
theorem driver_reads_back_acrossSectors :
    ∃ t u, FlashCall.perform [.eraseSector 0, .fill 0 [1, 2, 3, 4], .eraseSector 1] idleBus
        = .ok () t ∧
      FlashCall.perform (.write .block 0 0 4094 4 :: [.writeByte 7 4093] ++
        [.read .block 16 0 4094 4]) t = .ok () u ∧
      ∀ i < FlashUnit.block.transferred 4094 4, u.ram (16 + i) = t.ram (0 + i) :=
  driver_reads_back rfl rfl (by decide) (by decide) (.inr rfl) (by decide) (by decide)

end W25q128jv

end Num487Boot
