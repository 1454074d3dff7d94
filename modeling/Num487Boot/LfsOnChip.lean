import Num487Boot.LfsLogs
import Num487Boot.LfsPort

/-!
# The Caching Layer over the External Flash

LittleFS on this board: its caching layer, called with the configuration of `lfs_port.c`, on
the chip behind the driver. The chip stores what it is told to, so nothing is ever reported,
and the layer keeps its logs whatever the chip held and however long its operations take.

## Main results

* `drives_port`, `reliable_port`, `readsSucceed_port`: the callbacks of `lfs_port.c` are what
  the caching layer relies on.
* `lfsOnChip_logs`: any run of allowed calls returns with the answers of the logs, and the
  array of the chip holds what was flushed.
-/

namespace Num487Boot

open Exec Memory Runs

/-! ### The configuration -/

/-- The sizes in `cfg`; the caches and the lookahead buffer are 16 bytes each. -/
def cfgGeometry : LfsGeometry where
  readSize := cfg.readSize.toNat
  progSize := cfg.progSize.toNat
  blockSize := cfg.blockSize.toNat
  blockCount := cfg.blockCount.toNat
  cacheSize := 16
  lookaheadSize := 16
  read_pos := by decide
  prog_pos := by decide
  cache_pos := by decide
  read_dvd := by decide
  prog_dvd := by decide
  cache_dvd := by decide
  block_ge := by decide
  block_le := by decide
  count_le := by decide
  lookahead_pos := by decide
  lookahead_dvd := by decide
  lookahead_le := by decide

/-- `LFS_ERR_IO` -/
def lfsErrIo : ℤ := -5

/-- A callback makes the call of the driver. From the states of this development it returns; a
call the chip never ended would have no error code of its own. -/
def callback (op : BlockOp) (s : Bus) : (ℤ × List UInt8) × Bus :=
  match op.call s with
  | .ok (ret, bytes) t => ((ret.toInt, bytes), t)
  | .error .endless t => ((lfsErrIo, []), t)

/-- The callbacks of `lfs_port.c`, with the buffer of the call at `buffer`. -/
def portDriver (buffer : ℕ) : LfsDriver Bus where
  read block off size s := callback (.read (.ofNat block) (.ofNat off) buffer (.ofNat size)) s
  prog block off data s :=
    let r := callback (.prog (.ofNat block) (.ofNat off) buffer data) s
    (r.1.1, r.2)
  erase block s :=
    let r := callback (.erase (.ofNat block)) s
    (r.1.1, r.2)
  sync s := (lfsErrOk.toInt, s)

/-- LittleFS over the port, with the board's geometry. -/
def portSetup (buffer : ℕ) : LfsSetup Bus where
  toLfsGeometry := cfgGeometry
  driver := portDriver buffer

/-! ### What the callbacks do -/

/-- A callback of the port answers as the block device does. -/
theorem callback_spec {s : Bus} {d : BlockDevice} {op : BlockOp} (hs : Represents s d)
    (hop : d.Legal op) :
    ∃ t, callback op s = ((0, (d.answer op).2), t) ∧ Represents t (d.next op) := by
  obtain ⟨t, hcall, ht⟩ := simulates_blockDevice s d op hs hop
  refine ⟨t, ?_, ht⟩
  rw [callback, hcall]
  cases op <;> rfl

/-- Devices with the same content are represented alike. -/
theorem Represents.congr {s : Bus} {d d' : BlockDevice} (hs : Represents s d)
    (h : ∀ b o, d'.data b o = d.data b o) : Represents s d' :=
  ⟨hs.idle, hs.deselected, fun b hb o ho => (hs.data_eq b hb o ho).trans (h b o).symm⟩

namespace BlockDevice

variable (d : BlockDevice) {block off b o : ℕ}

/-- The content after a program, on both sides. -/
theorem program_data_eq_next {buffer : ℕ} {data : List UInt8} (hblock : block < 2 ^ 32)
    (hoff : off < 2 ^ 32) :
    (d.program block off data).data b o
      = (d.next (.prog (.ofNat block) (.ofNat off) buffer data)).data b o := by
  have hb := UInt32.toNat_ofNat_of_lt' hblock
  have ho := UInt32.toNat_ofNat_of_lt' hoff
  simp only [program, next, BlockOp.leaves, hb, ho]
  by_cases hbb : b = block
  · by_cases hle : off ≤ o
    · rw [if_pos hbb, if_pos ⟨hbb, hle⟩, overlay, if_pos hle]
    · rw [if_pos hbb, if_neg fun h => hle h.2, overlay_apply_of_lt (by omega)]
      rfl
  · rw [if_neg hbb, if_neg fun h => hbb h.1]
    rfl

/-- The content after an erase, on both sides. -/
theorem erase_data_eq_next (hblock : block < 2 ^ 32) :
    (d.erase block).data b o = (d.next (.erase (.ofNat block))).data b o := by
  have hb := UInt32.toNat_ofNat_of_lt' hblock
  simp only [erase, next, BlockOp.leaves, hb]
  by_cases hbb : b = block
  · rw [if_pos hbb, if_pos hbb]
    rfl
  · rw [if_neg hbb, if_neg hbb]
    rfl

/-- A transfer in a block is one for the callbacks. -/
theorem inBlock_of_inBlock {unit : UInt32} {size : ℕ}
    (h : cfgGeometry.InBlock unit.toNat block off size) :
    InBlock unit (.ofNat block) (.ofNat off) size := by
  obtain ⟨hblock, hoff, hsize, hpos, hin⟩ := h
  have hcount : cfgGeometry.blockCount = 4096 := rfl
  have hbytes : cfgGeometry.blockSize = 4096 := rfl
  rw [hcount] at hblock
  rw [hbytes] at hin
  have hb : (UInt32.ofNat block).toNat = block :=
    UInt32.toNat_ofNat_of_lt' (by rw [UInt32.size]; omega)
  have ho : (UInt32.ofNat off).toNat = off :=
    UInt32.toNat_ofNat_of_lt' (by rw [UInt32.size]; omega)
  refine ⟨UInt32.lt_iff_toNat_lt.mpr (by rw [hb]; exact hblock), by rwa [ho], hsize, hpos, ?_⟩
  rw [ho]
  exact hin

end BlockDevice

section Callbacks

variable {s : Bus} {d : BlockDevice} {block off : ℕ} (buffer : ℕ)

/-- A read of the driver. -/
theorem portDriver_read {size : ℕ} (hs : Represents s d)
    (hin : cfgGeometry.InBlock cfg.readSize.toNat block off size) :
    ∃ t, (portDriver buffer).read block off size s = ((0, slice (d.data block) off size), t) ∧
      Represents t d := by
  have hcount : cfgGeometry.blockCount = 4096 := rfl
  have hbytes : cfgGeometry.blockSize = 4096 := rfl
  have hblock := hin.1
  have hle := hin.2.2.2.2
  have hb := UInt32.toNat_ofNat_of_lt' (n := block) (by rw [UInt32.size]; omega)
  have ho := UInt32.toNat_ofNat_of_lt' (n := off) (by rw [UInt32.size]; omega)
  have hs' := UInt32.toNat_ofNat_of_lt' (n := size) (by rw [UInt32.size]; omega)
  have hlegal : d.Legal (.read (.ofNat block) (.ofNat off) buffer (.ofNat size)) := by
    have := BlockDevice.inBlock_of_inBlock hin
    rwa [← hs'] at this
  obtain ⟨t, hcall, ht⟩ := callback_spec hs hlegal
  refine ⟨t, hcall.trans ?_, ht.congr fun _ _ => rfl⟩
  rw [BlockDevice.answer, hb, ho, hs']

/-- A program of the driver. -/
theorem portDriver_prog {data : List UInt8} (hs : Represents s d)
    (hin : cfgGeometry.InBlock cfg.progSize.toNat block off data.length)
    (herased : ∀ k < data.length, d.erased block (off + k) = true) :
    ∃ t, (portDriver buffer).prog block off data s = (0, t) ∧
      Represents t (d.program block off data) := by
  have hcount : cfgGeometry.blockCount = 4096 := rfl
  have hbytes : cfgGeometry.blockSize = 4096 := rfl
  have hblock := hin.1
  have hle := hin.2.2.2.2
  have hb := UInt32.toNat_ofNat_of_lt' (n := block) (by rw [UInt32.size]; omega)
  have ho := UInt32.toNat_ofNat_of_lt' (n := off) (by rw [UInt32.size]; omega)
  have hlegal : d.Legal (.prog (.ofNat block) (.ofNat off) buffer data) :=
    ⟨BlockDevice.inBlock_of_inBlock hin, by rwa [hb, ho]⟩
  obtain ⟨t, hcall, ht⟩ := callback_spec hs hlegal
  refine ⟨t, congrArg (fun r => (r.1.1, r.2)) hcall, ht.congr fun b o => ?_⟩
  exact d.program_data_eq_next (by omega) (by omega)

/-- An erase of the driver. -/
theorem portDriver_erase (hs : Represents s d) (hblock : block < cfgGeometry.blockCount) :
    ∃ t, (portDriver buffer).erase block s = (0, t) ∧ Represents t (d.erase block) := by
  have hcount : cfgGeometry.blockCount = 4096 := rfl
  have hb := UInt32.toNat_ofNat_of_lt' (n := block) (by rw [UInt32.size]; omega)
  have hlegal : d.Legal (.erase (.ofNat block)) :=
    UInt32.lt_iff_toNat_lt.mpr (by rw [hb]; exact hblock)
  obtain ⟨t, hcall, ht⟩ := callback_spec hs hlegal
  refine ⟨t, congrArg (fun r => (r.1.1, r.2)) hcall, ht.congr fun b o => ?_⟩
  exact d.erase_data_eq_next (by omega)

end Callbacks

/-! ### What the caching layer relies on -/

/-- The port's reads succeed. -/
theorem readsSucceed_port (buffer : ℕ) : (portSetup buffer).ReadsSucceed Represents := by
  intro s d block off size hs hin
  obtain ⟨t, hcall, -⟩ := portDriver_read buffer hs hin
  exact congrArg (fun r => r.1.1) hcall

/-- The port's programs and erases succeed. -/
theorem reliable_port (buffer : ℕ) : (portSetup buffer).Reliable Represents where
  prog := by
    intro s d block off data hs hin herased
    obtain ⟨t, hcall, ht⟩ := portDriver_prog buffer hs hin herased
    have hcall' : (portSetup buffer).driver.prog block off data s = (0, t) := hcall
    rw [hcall']
    exact ⟨rfl, ht⟩
  erase := by
    intro s d block hs hblock
    obtain ⟨t, hcall, -⟩ := portDriver_erase buffer hs hblock
    exact congrArg Prod.fst hcall
  sync _ := rfl

/-- The port drives the block device it represents. -/
theorem drives_port (buffer : ℕ) : (portSetup buffer).Drives Represents where
  read := by
    intro s d block off size hs hin
    obtain ⟨t, hcall, ht⟩ := portDriver_read buffer hs hin
    have hcall' : (portSetup buffer).driver.read block off size s
        = ((0, slice (d.data block) off size), t) := hcall
    rw [hcall']
    exact ⟨Int.le_refl 0, ht, fun _ => rfl⟩
  prog := by
    intro s d block off data hs hin herased
    obtain ⟨hzero, ht⟩ := (reliable_port buffer).prog hs hin herased
    exact ⟨Int.le_of_eq hzero, fun _ => ⟨data, rfl, ht⟩, _, ht, d.sameBut_program block off data⟩
  erase := by
    intro s d block hs hblock
    obtain ⟨t, hcall, ht⟩ := portDriver_erase buffer hs hblock
    have hcall' : (portSetup buffer).driver.erase block s = (0, t) := hcall
    rw [hcall']
    exact ⟨Int.le_refl 0, fun _ => ht, _, ht, d.sameBut_erase block⟩
  sync := fun hs => ⟨Int.le_refl 0, hs⟩

/-! ### Runs -/

open BlockLogs in
/-- On the chip a call is never answered by an error. -/
theorem simulates_logs (buffer : ℕ) :
    Simulates (BdOp.call (portSetup buffer)) done answer (·.Legal cfgGeometry)
      (fun s L => L.Shown (portSetup buffer) Represents s) := by
  intro s L op hs hop
  have hcall := hs.call (drives_port buffer) (readsSucceed_port buffer) hop
  cases h : op.call (portSetup buffer) s with
  | ok a t =>
      rw [h] at hcall
      obtain ⟨rfl, ht⟩ := hcall
      exact ⟨t, rfl, ht⟩
  | error e t =>
      rw [h] at hcall
      exact absurd (reliable_port buffer) hcall.2.1

open BlockLogs in
/-- **LittleFS's caching layer on this board keeps logs.** On an idle chip, whatever it holds
and however long its operations take, with both caches dropped, any run of allowed calls
returns with the answers of the logs; and the array of the chip holds what is known of every
block that is not being written. -/
theorem lfsOnChip_logs {s : LfsBd Bus} (buffer : ℕ) {ops : List BdOp}
    (hidle : s.dev.chip.busy = 0) (hsel : s.dev.selected = none)
    (hrcache : s.rcache.block = lfsBlockNull) (hpcache : s.pcache.block = lfsBlockNull)
    (hops : Guarded done (·.Legal cfgGeometry)
      (ofDevice cfgGeometry (.ofMem s.dev.chip.mem)) ops) :
    ∃ t, ops.mapM (BdOp.call (portSetup buffer)) s
        = .ok (answers done answer (ofDevice cfgGeometry (.ofMem s.dev.chip.mem)) ops) t ∧
      ∀ L, L = run done (ofDevice cfgGeometry (.ofMem s.dev.chip.mem)) ops →
        ∀ b < 4096, L.writer ≠ .filling b →
          slice t.dev.chip.mem (b * 4096) (L.bytes b).length = L.bytes b := by
  have hrep : Represents s.dev (.ofMem s.dev.chip.mem) := ⟨hidle, hsel, fun _ _ _ _ => rfl⟩
  have hshown : (ofDevice cfgGeometry (.ofMem s.dev.chip.mem)).Shown (portSetup buffer)
      Represents s := shown_ofDevice (c := portSetup buffer) hrep hrcache hpcache
  obtain ⟨t, hrun, ht⟩ := (simulates_logs buffer).run hshown hops
  refine ⟨t, hrun, ?_⟩
  intro L hL b hb hw
  rw [← hL] at ht
  obtain ⟨d, hdev, hon⟩ := ht.durable
  have hfits : (L.bytes b).length ≤ 4096 := ht.fits b
  have hin : 0 + (L.bytes b).length ≤ 4096 := by omega
  have hcells := slice_block hdev.data_eq hb hin
  rw [Nat.add_zero] at hcells
  exact hcells.trans (hon b hw)

/-- Twenty bytes are appended to block 3 and read back, from the cache and from the chip. -/
theorem lfsOnChip_logs_twenty :
    ∃ t, [BdOp.erase 3, .prog 3 0 (.replicate 18 0x5A), .prog 3 18 [1, 2], .read true 64 3 16 4,
        .flush, .read false 64 3 10 10].mapM (BdOp.call (portSetup 0))
        ⟨⟨⟨fun _ => 0, false, 0, fun n => n⟩, none, fun _ => 0, []⟩,
          ⟨lfsBlockNull, 0, 0, fun _ => 0⟩, ⟨lfsBlockNull, 0, 0, fun _ => 0⟩⟩
      = .ok [.done, .done, .done, .bytes [0x5A, 0x5A, 1, 2], .done,
          .bytes (.replicate 8 0x5A ++ [1, 2])] t := by
  generalize hs : (⟨⟨⟨fun _ => 0, false, 0, fun n => n⟩, none, fun _ => 0, []⟩,
    ⟨lfsBlockNull, 0, 0, fun _ => 0⟩, ⟨lfsBlockNull, 0, 0, fun _ => 0⟩⟩ : LfsBd Bus) = s
  have hmem : s.dev.chip.mem = fun _ => 0 := by rw [← hs]
  generalize hops : [BdOp.erase 3, .prog 3 0 (.replicate 18 0x5A), .prog 3 18 [1, 2],
    .read true 64 3 16 4, .flush, .read false 64 3 10 10] = ops
  have hlegal : Guarded BlockLogs.done (·.Legal cfgGeometry)
      (BlockLogs.ofDevice cfgGeometry (.ofMem s.dev.chip.mem)) ops := by
    rw [hmem, ← hops]
    decide
  obtain ⟨t, hrun, -⟩ := lfsOnChip_logs 0 (by rw [← hs]) (by rw [← hs])
    (by rw [← hs]) (by rw [← hs]) hlegal
  refine ⟨t, hrun.trans ?_⟩
  rw [hmem, ← hops]
  rfl

end Num487Boot
