import Num487Boot.IdleChip
import Num487Boot.Lib.Simulation

/-!
# The LittleFS Port

`lfs_port.c` puts LittleFS on the external flash: its read, program and erase callbacks are
the sector operations of the driver. LittleFS relies on them as a block device, whose blocks
are independent of each other and whose bytes hold what was last programmed into them, or
`0xFF` after an erase.

## Main results

* `simulates_blockDevice`: each callback, called as LittleFS promises to call it, acts on the
  chip as the block device does.
* `BlockDevice.data_run`: over a run of the block device a byte holds what the last operation
  on it left, and no other operation touches it.
* `lfsPort_blockDevice`: any sequence of calls on an idle chip returns what the block device
  answers.
-/

namespace Num487Boot

open Exec Memory Runs

/-! ### lfs_port.c -/

/-- `LFS_ERR_OK` -/
def lfsErrOk : Int32 := 0

/-- The geometry in `struct lfs_config`. -/
structure LfsConfig where
  readSize : UInt32
  progSize : UInt32
  blockSize : UInt32
  blockCount : UInt32

/-- `cfg`: the fields the functions below read. -/
def cfg : LfsConfig where
  readSize := 16
  progSize := 16
  blockSize := 4096
  blockCount := 4096

/-- `lfs_deskio_read` -/
def lfsDeskioRead (_c : LfsConfig) (block off : UInt32) (buffer : ℕ) (size : UInt32) :
    Spi Int32 := do
  W25q128jv.readSector buffer block off size
  pure lfsErrOk

/-- `lfs_deskio_prog` -/
def lfsDeskioProg (_c : LfsConfig) (block off : UInt32) (buffer : ℕ) (size : UInt32) :
    Spi Int32 := do
  W25q128jv.writeSector buffer block off size
  pure lfsErrOk

/-- `lfs_deskio_erase` -/
def lfsDeskioErase (_c : LfsConfig) (block : UInt32) : Spi Int32 := do
  W25q128jv.eraseSector block
  pure lfsErrOk

/-! ### The block device -/

/-- An operation of LittleFS on the device, with the buffer it uses for it. -/
inductive BlockOp
  | read (block off : UInt32) (buffer : ℕ) (size : UInt32)
  | prog (block off : UInt32) (buffer : ℕ) (data : List UInt8)
  | erase (block : UInt32)

/-- What the operation leaves in byte `o` of block `b`, if it touches it. -/
def BlockOp.leaves (b o : ℕ) : BlockOp → Option UInt8
  | .read _ _ _ _ => none
  | .prog block off _ data =>
      if b = block.toNat ∧ off.toNat ≤ o then data[o - off.toNat]? else none
  | .erase block => if b = block.toNat then some 0xFF else none

/-- The operation erases block `b`. -/
def BlockOp.erases (b : ℕ) : BlockOp → Bool
  | .erase block => b = block.toNat
  | _ => false

/-- Erased bytes are `0xFF`. -/
theorem BlockOp.leaves_of_erases {b o : ℕ} {op : BlockOp} (h : op.erases b = true) :
    op.leaves b o = some 0xFF := by
  cases op with
  | read block off buffer size => cases h
  | prog block off buffer data => cases h
  | erase block => exact if_pos (of_decide_eq_true h)

/-- A device of independent blocks. It knows which bytes were erased since they were last
programmed, and these read `0xFF`. -/
structure BlockDevice where
  data : ℕ → ℕ → UInt8
  erased : ℕ → ℕ → Bool
  erased_data : ∀ b o, erased b o = true → data b o = 0xFF

namespace BlockDevice

/-- The device over the content of a chip. -/
def ofMem (mem : ℕ → UInt8) : BlockDevice where
  data b o := mem (b * 4096 + o)
  erased b o := mem (b * 4096 + o) == 0xFF
  erased_data _ _ h := eq_of_beq h

/-- An operation changes the bytes it touches. -/
def next (d : BlockDevice) (op : BlockOp) : BlockDevice where
  data b o := (op.leaves b o).getD (d.data b o)
  erased b o := op.erases b || d.erased b o && (op.leaves b o).isNone
  erased_data b o h := by
    rw [Bool.or_eq_true, Bool.and_eq_true, Option.isNone_iff_eq_none] at h
    rcases h with herases | ⟨hold, hnone⟩
    · rw [BlockOp.leaves_of_erases herases]
      rfl
    · rw [hnone]
      exact d.erased_data b o hold

/-- What LittleFS gets back: the return code and the bytes read. -/
def answer (d : BlockDevice) : BlockOp → Int32 × List UInt8
  | .read block off _ size => (lfsErrOk, slice (d.data block.toNat) off.toNat size.toNat)
  | .prog _ _ _ _ => (lfsErrOk, [])
  | .erase _ => (lfsErrOk, [])

/-- A transfer inside one block, in units of `unit` bytes. -/
def InBlock (unit : UInt32) (block off : UInt32) (size : ℕ) : Prop :=
  block < cfg.blockCount ∧ unit.toNat ∣ off.toNat ∧ unit.toNat ∣ size ∧ 0 < size ∧
    off.toNat + size ≤ cfg.blockSize.toNat

instance (unit block off : UInt32) (size : ℕ) : Decidable (InBlock unit block off size) :=
  inferInstanceAs (Decidable (_ ∧ _))

/-- The bounds as numbers, on the board's geometry. -/
theorem InBlock.bounds {unit block off : UInt32} {size : ℕ} (h : InBlock unit block off size) :
    block.toNat < 4096 ∧ 0 < size ∧ off.toNat + size ≤ 4096 :=
  ⟨h.1, h.2.2.2.1, h.2.2.2.2⟩

/-- What LittleFS promises its block device: transfers lie in a block, and only erased bytes
are programmed. -/
def Legal (d : BlockDevice) : BlockOp → Prop
  | .read block off _ size => InBlock cfg.readSize block off size.toNat
  | .prog block off _ data =>
      InBlock cfg.progSize block off data.length ∧
        ∀ k < data.length, d.erased block.toNat (off.toNat + k) = true
  | .erase block => block < cfg.blockCount

instance (d : BlockDevice) : ∀ op, Decidable (d.Legal op)
  | .read _ _ _ _ => inferInstanceAs (Decidable (InBlock _ _ _ _))
  | .prog _ _ _ _ => inferInstanceAs (Decidable (_ ∧ _))
  | .erase _ => inferInstanceAs (Decidable (_ < _))

end BlockDevice

/-- LittleFS makes the call; to program, it puts the data into its buffer first. -/
def BlockOp.call : BlockOp → Spi (Int32 × List UInt8)
  | .read block off buffer size => do
      let ret ← lfsDeskioRead cfg block off buffer size
      let s ← get
      pure (ret, slice s.ram buffer size.toNat)
  | .prog block off buffer data => do
      modify fun s => { s with ram := overlay s.ram buffer data }
      let ret ← lfsDeskioProg cfg block off buffer (.ofNat data.length)
      pure (ret, [])
  | .erase block => do
      let ret ← lfsDeskioErase cfg block
      pure (ret, [])

/-! ### The refinement -/

/-- The idle chip holds what the device holds. -/
structure Represents (s : Bus) (d : BlockDevice) : Prop where
  idle : s.chip.busy = 0
  deselected : s.selected = none
  data_eq : ∀ b < 4096, ∀ o < 4096, s.chip.mem (b * 4096 + o) = d.data b o

/-- The chip of a device it represents waits for a call. -/
theorem Represents.ready {s : Bus} {d : BlockDevice} (h : Represents s d) :
    W25q128jv.Ready s.chip.mem s.ram s :=
  ⟨rfl, h.idle, h.deselected, rfl⟩

section Cells

variable {mem : ℕ → UInt8} {d : BlockDevice}

/-- A run of cells inside a block. -/
theorem slice_block (hdata : ∀ b < 4096, ∀ o < 4096, mem (b * 4096 + o) = d.data b o)
    {b off n : ℕ} (hb : b < 4096) (hoff : off + n ≤ 4096) :
    slice mem (b * 4096 + off) n = slice (d.data b) off n := by
  refine List.ext_getElem (by simp) fun k hk _ => ?_
  rw [length_slice] at hk
  rw [getElem_slice, getElem_slice, Nat.add_assoc, hdata b hb _ (by omega)]

/-- Stores inside a block, cell by cell. -/
theorem overlay_block {block off b o : ℕ} {data : List UInt8} (hoff : off + data.length ≤ 4096)
    (ho : o < 4096) :
    overlay mem (block * 4096 + off) data (b * 4096 + o)
      = (if b = block ∧ off ≤ o then data[o - off]? else none).getD (mem (b * 4096 + o)) := by
  by_cases hin : b = block ∧ off ≤ o
  · obtain ⟨rfl, hle⟩ := hin
    have hindex : b * 4096 + o - (b * 4096 + off) = o - off := by omega
    rw [if_pos ⟨rfl, hle⟩, overlay, if_pos (by omega), hindex]
  · rw [if_neg hin, Option.getD_none]
    by_cases hlt : b * 4096 + o < block * 4096 + off
    · exact overlay_apply_of_lt hlt
    · exact overlay_apply_of_le (by omega)

end Cells

/-- The bytes LittleFS asks for are the bytes the driver transfers. -/
theorem unitLength_of_fits {off size : ℕ} (hpos : 0 < size) (hoff : off + size ≤ 4096) :
    W25q128jv.unitLength 4096 off size = size := by
  rw [W25q128jv.unitLength, if_neg (by omega)]
  omega

/-- **The callbacks act as the block device**, when they are called as LittleFS promises. -/
theorem simulates_blockDevice :
    Simulates BlockOp.call BlockDevice.next BlockDevice.answer BlockDevice.Legal Represents := by
  intro s d op hs hlegal
  cases op with
  | read block off buffer size =>
      obtain ⟨hblock, hpos, hoff⟩ := hlegal.bounds
      have hin : off.toNat < 4096 := by omega
      obtain ⟨_, t, hrun, ht⟩ := (W25q128jv.settles_readSector hblock hin).returns hs.ready
      rw [unitLength_of_fits hpos hoff, slice_block hs.data_eq hblock hoff] at ht
      have hret : lfsDeskioRead cfg block off buffer size s = .ok lfsErrOk t := by
        rw [lfsDeskioRead, bind_of_ok hrun]
        rfl
      refine ⟨t, ?_, ht.idle, ht.deselected, fun b hb o ho => ?_⟩
      · have hread : slice t.ram buffer size.toNat
            = slice (d.data block.toNat) off.toNat size.toNat := by
          have := slice_overlay s.ram buffer (slice (d.data block.toNat) off.toNat size.toNat)
          rwa [length_slice, ← ht.ram_eq] at this
        rw [BlockOp.call, bind_of_ok hret, bind_of_ok (get_apply t), hread]
        rfl
      · rw [ht.mem_eq]
        exact hs.data_eq b hb o ho
  | prog block off buffer data =>
      obtain ⟨hblock, hpos, hoff⟩ := hlegal.1.bounds
      have hin : off.toNat < 4096 := by omega
      have hsize : (UInt32.ofNat data.length).toNat = data.length :=
        UInt32.toNat_ofNat_of_lt' (by rw [UInt32.size]; omega)
      let s' : Bus := { s with ram := overlay s.ram buffer data }
      have hs' : W25q128jv.Ready s.chip.mem (overlay s.ram buffer data) s' :=
        ⟨rfl, hs.idle, hs.deselected, rfl⟩
      obtain ⟨_, t, hrun, ht⟩ := (W25q128jv.settles_writeSector hblock hin).returns hs'
      rw [hsize, unitLength_of_fits hpos hoff, slice_overlay] at ht
      have hblank : ∀ k < data.length, s.chip.mem (block.toNat * 4096 + off.toNat + k) = 0xFF := by
        intro k hk
        rw [Nat.add_assoc, hs.data_eq _ hblock _ (by omega)]
        exact d.erased_data _ _ (hlegal.2 k hk)
      rw [merge_eq_overlay (fun _ => UInt8.neg_one_and) hblank] at ht
      have hret : lfsDeskioProg cfg block off buffer (.ofNat data.length) s' = .ok lfsErrOk t := by
        rw [lfsDeskioProg, bind_of_ok hrun]
        rfl
      refine ⟨t, ?_, ht.idle, ht.deselected, fun b hb o ho => ?_⟩
      · rw [BlockOp.call, bind_of_ok (modify_apply _ s), bind_of_ok hret]
        rfl
      · rw [ht.mem_eq, overlay_block hoff ho, hs.data_eq b hb o ho]
        rfl
  | erase block =>
      obtain ⟨_, t, hrun, ht⟩ := (W25q128jv.settles_eraseSector hlegal).returns hs.ready
      have hret : lfsDeskioErase cfg block s = .ok lfsErrOk t := by
        rw [lfsDeskioErase, bind_of_ok hrun]
        rfl
      refine ⟨t, ?_, ht.idle, ht.deselected, fun b hb o ho => ?_⟩
      · rw [BlockOp.call, bind_of_ok hret]
        rfl
      · rw [ht.mem_eq, eraseUnit, hs.data_eq b hb o ho]
        show _ = (if b = block.toNat then some 0xFF else none).getD (d.data b o)
        by_cases hb : b = block.toNat
        · rw [if_pos (by omega), if_pos hb]
          rfl
        · rw [if_neg (by omega), if_neg hb]
          rfl

/-- **The last operation counts.** After a run, a byte holds what the last operation that
touched it left, or else what it held at the start. -/
theorem BlockDevice.data_run (d : BlockDevice) (ops : List BlockOp) (b o : ℕ) :
    (run next d ops).data b o = (ops.reverse.findSome? (·.leaves b o)).getD (d.data b o) := by
  induction ops generalizing d with
  | nil => rfl
  | cons op ops ih =>
      rw [run_cons, ih, List.reverse_cons, List.findSome?_append]
      cases ops.reverse.findSome? (·.leaves b o) with
      | some v => rfl
      | none => cases hop : op.leaves b o <;> simp [next, hop]

/-- **The LittleFS port is a block device.** On an idle chip, whatever it holds and however
long its operations take, any sequence of calls returns, with the answers of the block
device; and its bytes hold what the last operation on them left. -/
theorem lfsPort_blockDevice {s : Bus} {ops : List BlockOp} (hidle : s.chip.busy = 0)
    (hsel : s.selected = none)
    (hops : Guarded BlockDevice.next BlockDevice.Legal (.ofMem s.chip.mem) ops) :
    (∃ t, ops.mapM BlockOp.call s
          = .ok (answers BlockDevice.next BlockDevice.answer (.ofMem s.chip.mem) ops) t ∧
        Represents t (run BlockDevice.next (.ofMem s.chip.mem) ops)) ∧
      ∀ b o, (run BlockDevice.next (.ofMem s.chip.mem) ops).data b o
        = (ops.reverse.findSome? (·.leaves b o)).getD (s.chip.mem (b * 4096 + o)) :=
  ⟨simulates_blockDevice.run ⟨hidle, hsel, fun _ _ _ _ => rfl⟩ hops,
    fun b o => BlockDevice.data_run _ ops b o⟩

/-- Block 3 is erased, programmed across the end of its first page and read again. -/
theorem lfsPort_blockDevice_reread :
    ∃ t, [BlockOp.erase 3, .prog 3 240 0 (.replicate 32 0x5A), .read 3 240 64 48].mapM
        BlockOp.call ⟨⟨fun _ => 0, false, 0, fun n => n⟩, none, fun _ => 0, []⟩
      = .ok [(0, []), (0, []), (0, .replicate 32 0x5A ++ .replicate 16 0xFF)] t := by
  generalize hs : (⟨⟨fun _ => 0, false, 0, fun n => n⟩, none, fun _ => 0, []⟩ : Bus) = s
  have hmem : s.chip.mem = fun _ => 0 := by rw [← hs]
  generalize hops : [BlockOp.erase 3, .prog 3 240 0 (.replicate 32 0x5A), .read 3 240 64 48] = ops
  have hlegal : Guarded BlockDevice.next BlockDevice.Legal (.ofMem s.chip.mem) ops := by
    rw [hmem, ← hops]
    decide
  obtain ⟨⟨t, hrun, -⟩, -⟩ := lfsPort_blockDevice (by rw [← hs]) (by rw [← hs]) hlegal
  refine ⟨t, hrun.trans ?_⟩
  rw [hmem, ← hops]
  rfl

end Num487Boot
