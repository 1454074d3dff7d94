import Mathlib.Algebra.Group.Nat.Defs
import Num487Boot.Lib.Exec
import Num487Boot.Lib.Memory

/-!
# The W25Q128JV on Its SPI Bus

The external flash as the driver meets it: a NOR array of `2 ^ 24` bytes behind SPI
instructions. An instruction is what the master shifts in while `/CS` is low; the chip
carries it out when `/CS` rises.

* A page program clears bits, in the 256-byte page of its address: the column wraps.
* A sector or block erase sets the aligned unit of its address to `0xFF`, a chip erase the
  whole array.
* Both need `WEL` and leave the chip `BUSY` for a while, counted in bytes exchanged on the
  bus; `WEL` falls when they are done. `Chip.busyTimes` are the times to come, so
  quantifying over it is quantifying over every pattern of busy times.
* While `BUSY` every instruction but a status read is ignored.

The programs of the driver are `Spi`, over the bus and the memory of the MCU (`ram`), which
holds their buffers. `received` logs the instructions as the chip met them; no program reads
it.
-/

namespace Num487Boot

open Exec Memory

/-! ### Instruction codes -/

namespace Instr

/-- `W25Q128JV_WRITE_ENABLE` -/
def writeEnable : UInt8 := 0x06
/-- `W25Q128JV_WRITE_DISABLE` -/
def writeDisable : UInt8 := 0x04
/-- `W25Q128JV_FAST_READ` -/
def fastRead : UInt8 := 0x0B
/-- `W25Q128JV_PAGE_PROGRAM` -/
def pageProgram : UInt8 := 0x02
/-- `W25Q128JV_SECTOR_ERASE_4KB` -/
def sectorErase4KB : UInt8 := 0x20
/-- `W25Q128JV_BLOCK_ERASE_64KB` -/
def blockErase64KB : UInt8 := 0xD8
/-- `W25Q128JV_CHIP_ERASE` -/
def chipErase : UInt8 := 0xC7
/-- `W25Q128JV_READ_STATUS_REG1` -/
def readStatusReg1 : UInt8 := 0x05

end Instr

/-- The bytes shifted in since `/CS` fell, with the `BUSY` and `WEL` bits it fell on. -/
structure Instruction where
  bytes : List UInt8
  busy : Bool
  wel : Bool
  deriving DecidableEq

/-- One more byte of the instruction. -/
def Instruction.push (i : Instruction) (b : UInt8) : Instruction :=
  { i with bytes := i.bytes ++ [b] }

/-- The chip: its array, the write enable latch, how many more bytes exchanged it stays
busy for, and the busy times of the operations to come. -/
structure Chip where
  mem : ℕ → UInt8
  wel : Bool
  busy : ℕ
  busyTimes : ℕ → ℕ

/-! ### The array -/

/-- The 24-bit address of an instruction. -/
def norAddress (a₂ a₁ a₀ : UInt8) : ℕ := 65536 * a₂.toNat + 256 * a₁.toNat + a₀.toNat

/-- The page buffer after data arrives for the column `col`. -/
def latchPage : (ℕ → UInt8) → ℕ → List UInt8 → ℕ → UInt8
  | latch, _, [] => latch
  | latch, col, b :: data => latchPage (Function.update latch col b) ((col + 1) % 256) data

/-- The array after a page program at `addr`. -/
def programPage (mem : ℕ → UInt8) (addr : ℕ) (data : List UInt8) : ℕ → UInt8 := fun j =>
  if j / 256 = addr / 256 then
    mem j &&& latchPage (fun _ => 0xFF) (addr % 256) data (j % 256)
  else mem j

/-- The array after the erase of the unit of `size` bytes around `addr`. -/
def eraseUnit (size : ℕ) (mem : ℕ → UInt8) (addr : ℕ) : ℕ → UInt8 := fun j =>
  if j / size = addr / size then 0xFF else mem j

/-- What an instruction that programs or erases makes of the array. -/
def altered (mem : ℕ → UInt8) (op : UInt8) : List UInt8 → Option (ℕ → UInt8)
  | [] => if op = Instr.chipErase then some fun _ => 0xFF else none
  | [a₂, a₁, a₀] =>
      if op = Instr.sectorErase4KB then some (eraseUnit 4096 mem (norAddress a₂ a₁ a₀))
      else if op = Instr.blockErase64KB then some (eraseUnit 65536 mem (norAddress a₂ a₁ a₀))
      else none
  | a₂ :: a₁ :: a₀ :: data =>
      if op = Instr.pageProgram then some (programPage mem (norAddress a₂ a₁ a₀) data)
      else none
  | _ => none

/-- Data that stay inside the page overlay the latches. -/
theorem latchPage_eq_overlay {latch : ℕ → UInt8} {col : ℕ} {data : List UInt8}
    (h : col + data.length ≤ 256) : latchPage latch col data = overlay latch col data := by
  induction data generalizing latch col with
  | nil => simp [latchPage]
  | cons b data ih =>
      rw [List.length_cons] at h
      rw [latchPage, ← overlay_update]
      by_cases hcol : col + 1 < 256
      · rw [Nat.mod_eq_of_lt hcol, ih (by omega)]
      · -- the last column of the page: nothing is left that could wrap
        have hnil : data = [] := List.eq_nil_of_length_eq_zero (by omega)
        subst hnil
        simp [latchPage]

/-- Inside one page a page program clears bits of consecutive cells. -/
theorem programPage_eq_merge {mem : ℕ → UInt8} {addr : ℕ} {data : List UInt8}
    (h : addr % 256 + data.length ≤ 256) :
    programPage mem addr data = merge (· &&& ·) mem addr data := by
  funext j
  rw [programPage, latchPage_eq_overlay h]
  by_cases hlt : j < addr
  · rw [merge_apply_of_lt hlt]
    by_cases hpage : j / 256 = addr / 256
    · rw [if_pos hpage, overlay_apply_of_lt (by omega)]
      exact UInt8.and_neg_one
    · rw [if_neg hpage]
  · by_cases hle : addr + data.length ≤ j
    · rw [merge_apply_of_le hle]
      by_cases hpage : j / 256 = addr / 256
      · rw [if_pos hpage, overlay_apply_of_le (by omega)]
        exact UInt8.and_neg_one
      · rw [if_neg hpage]
    · obtain ⟨k, rfl⟩ : ∃ k, j = addr + k := ⟨j - addr, by omega⟩
      have hcolumn : (addr + k) % 256 = addr % 256 + k := by omega
      rw [if_pos (by omega), hcolumn, overlay_apply (by omega), merge_apply (by omega)]

/-! ### The chip -/

namespace Chip

/-- Status register 1: `BUSY` is bit 0, `WEL` bit 1. -/
def status (c : Chip) : UInt8 := (if c.busy = 0 then 0 else 1) ||| if c.wel then 2 else 0

/-- The time of one byte passes. -/
def tick (c : Chip) : Chip :=
  { c with busy := c.busy - 1, wel := c.wel && c.busy ≠ 1 }

/-- The byte the chip shifts out after the bytes of `i`. -/
def output (c : Chip) (i : Instruction) : UInt8 :=
  match i.bytes with
  | [] => 0xFF
  | op :: args =>
      if op = Instr.readStatusReg1 then c.status
      else if op = Instr.fastRead ∧ i.busy = false then
        match args with
        | a₂ :: a₁ :: a₀ :: _ :: before =>
            c.mem ((norAddress a₂ a₁ a₀ + before.length) % 2 ^ 24)
        | _ => 0xFF
      else 0xFF

/-- Begin a program or erase that leaves `mem`, if the write enable latch is set. -/
def start (c : Chip) (mem : ℕ → UInt8) : Chip :=
  if c.wel then
    { c with mem := mem, busy := c.busyTimes 0 + 1, busyTimes := fun n => c.busyTimes (n + 1) }
  else c

/-- Carry out an instruction, at the rise of `/CS`. -/
def execute (c : Chip) (i : Instruction) : Chip :=
  match i.bytes with
  | [] => c
  | op :: args =>
      if i.busy then c
      else if op = Instr.writeEnable then { c with wel := true }
      else if op = Instr.writeDisable then { c with wel := false }
      else
        match altered c.mem op args with
        | some mem => c.start mem
        | none => c

/-- The chip once a busy time has run out. -/
def settled (c : Chip) : Chip := { c with busy := 0, wel := c.wel && c.busy = 0 }

/-- Time does not change an idle chip. -/
theorem tick_of_idle {c : Chip} (h : c.busy = 0) : c.tick = c := by
  cases c
  simp_all [tick]

/-- An idle chip has settled. -/
theorem settled_of_idle {c : Chip} (h : c.busy = 0) : c.settled = c := by
  cases c
  simp_all [settled]

/-- Time does not change what a chip settles to. -/
@[simp] theorem settled_tick (c : Chip) : c.tick.settled = c.settled := by
  rcases c with ⟨mem, wel, busy, busyTimes⟩
  rcases busy with _ | _ | n <;> simp [tick, settled]

/-- The BUSY bit of the status tells whether the chip is busy. -/
theorem status_busy (c : Chip) : c.status &&& 0x01 ≠ 0 ↔ c.busy ≠ 0 := by
  by_cases hb : c.busy = 0 <;> cases hw : c.wel <;> simp [status, hb, hw] <;> decide

/-- A status read shows the status, busy or not. -/
theorem output_status (c : Chip) (args : List UInt8) (busy wel : Bool) :
    c.output ⟨Instr.readStatusReg1 :: args, busy, wel⟩ = c.status := rfl

/-- A fast read shows one byte of the array after the other, and goes on with the first address
after the last. -/
theorem output_fastRead (c : Chip) (a₂ a₁ a₀ d : UInt8) (before : List UInt8) (wel : Bool) :
    c.output ⟨Instr.fastRead :: a₂ :: a₁ :: a₀ :: d :: before, false, wel⟩
      = c.mem ((norAddress a₂ a₁ a₀ + before.length) % 2 ^ 24) := rfl

/-- Reading leaves the chip as it is. -/
theorem execute_read {op : UInt8} (h : op = Instr.readStatusReg1 ∨ op = Instr.fastRead)
    (c : Chip) (args : List UInt8) (busy wel : Bool) :
    c.execute ⟨op :: args, busy, wel⟩ = c := by
  have hnone : altered c.mem op args = none := by
    rcases h with rfl | rfl <;> unfold altered <;> split <;> rfl
  have henable : op ≠ Instr.writeEnable := by rcases h with rfl | rfl <;> decide
  have hdisable : op ≠ Instr.writeDisable := by rcases h with rfl | rfl <;> decide
  simp [execute, hnone, henable, hdisable]

/-- A program or erase that meets an idle, enabled chip takes effect, and once the busy time
is over the chip is idle and disabled again. -/
theorem settled_execute {c : Chip} {op : UInt8} {args : List UInt8} {mem : ℕ → UInt8}
    (hwel : c.wel = true) (halt : altered c.mem op args = some mem)
    (hop : op ≠ Instr.writeEnable ∧ op ≠ Instr.writeDisable) (wel : Bool) :
    (c.execute ⟨op :: args, false, wel⟩).settled
      = ⟨mem, false, 0, fun n => c.busyTimes (n + 1)⟩ := by
  simp [execute, hop.1, hop.2, halt, start, hwel, settled]

end Chip

/-! ### The bus -/

/-- The bus and the memory of its master. `selected` is the instruction being shifted in
while `/CS` is low. -/
structure Bus where
  chip : Chip
  selected : Option Instruction
  ram : ℕ → UInt8
  received : List Instruction

/-- A loop of the driver was cut off. -/
inductive SpiHalt
  | endless
  deriving DecidableEq

/-- A program of the driver. -/
abbrev Spi := EStateM SpiHalt Bus

namespace Bus

/-- `CS` goes low. -/
def select (s : Bus) : Bus :=
  { s with selected := some ⟨[], s.chip.busy ≠ 0, s.chip.wel⟩ }

/-- `CS` goes high, and the chip carries the instruction out. -/
def deselect (s : Bus) : Bus :=
  match s.selected with
  | some i =>
      { s with chip := s.chip.execute i, selected := none, received := s.received ++ [i] }
  | none => s

/-- The byte on the data line to the master. -/
def output (s : Bus) : UInt8 :=
  match s.selected with
  | some i => s.chip.output i
  | none => 0xFF

/-- A byte is shifted out while another one is shifted in. -/
def exchange (b : UInt8) (s : Bus) : Bus :=
  { s with chip := s.chip.tick, selected := s.selected.map (·.push b) }

/-- The chip, the instruction being shifted in and the memory of the master, with the log
left open. -/
def Is (c : Chip) (sel : Option Instruction) (ram : ℕ → UInt8) (s : Bus) : Prop :=
  s.chip = c ∧ s.selected = sel ∧ s.ram = ram

end Bus

/-- From a state with `P` the program returns, in a state with `Q`. -/
abbrev Settles {α : Type} (P : Bus → Prop) (x : Spi α) (Q : α → Bus → Prop) : Prop :=
  Triple P x Q fun _ _ => False

end Num487Boot
