import Num487Boot.IdleChip

/-!
# What the Driver Puts on the Bus

The instructions the functions of `w25q128jv.c` send, whatever state they find the chip in.
A function that programs or erases sends one altering instruction between status reads
(`Issues`); by then it has waited for the chip, so the chip is not busy, but the write
enable instruction went out before the wait, and a busy chip has ignored it.

## Main results

* `waitForBusy_apply`: the poll loop ends on every chip, and leaves it idle.
* `enabled_apply`: the head the altering functions share. The write enable latch is set at
  the altering instruction exactly when the chip was idle at the call.
* `issues_eraseChip` to `issues_writePage`: the altering instruction of each function.
* `readPage_apply`: the one instruction of `w25q128jv_read_page`, and what it stores.
-/

namespace Num487Boot

open Exec Memory

namespace W25q128jv

/-! ### One byte on the bus -/

variable {c : Chip} {i : Instruction} {ram : ℕ → UInt8} {log : List Instruction}

/-- `/CS` low starts an instruction with the state of the chip at that moment. -/
theorem csEnable_apply : csEnable ⟨c, none, ram, log⟩ =
    .ok () ⟨c, some ⟨[], c.busy ≠ 0, c.wel⟩, ram, log⟩ := rfl

/-- `/CS` high executes and logs it. -/
theorem csDisable_apply : csDisable ⟨c, some i, ram, log⟩ =
    .ok () ⟨c.execute i, none, ram, log ++ [i]⟩ := rfl

/-- A byte goes to the instruction, and time passes. -/
theorem spi_apply (b : UInt8) : spi b ⟨c, some i, ram, log⟩ =
    .ok (c.output i) ⟨c.tick, some (i.push b), ram, log⟩ := rfl

/-- On an idle chip no time passes that matters. -/
theorem spi_idle (hc : c.busy = 0) (b : UInt8) : spi b ⟨c, some i, ram, log⟩ =
    .ok (c.output i) ⟨c, some (i.push b), ram, log⟩ := by
  rw [spi_apply, Chip.tick_of_idle hc]

variable {bytes : List UInt8} {busy wel : Bool}

/-- The three address bytes on an idle chip. -/
theorem spiAddress_idle (hc : c.busy = 0) (addr : UInt32) :
    spiAddress addr ⟨c, some ⟨bytes, busy, wel⟩, ram, log⟩ =
      .ok () ⟨c, some ⟨bytes ++ addressBytes addr, busy, wel⟩, ram, log⟩ := by
  rw [spiAddress, bind_of_ok (spi_idle hc _), bind_of_ok (spi_idle hc _),
    bind_of_ok (spi_idle hc _)]
  simp [Instruction.push, addressBytes]

/-- A run of bytes from the memory on an idle chip. -/
theorem spiSend_idle (hc : c.busy = 0) (pbuf n : ℕ) :
    spiSend pbuf n ⟨c, some ⟨bytes, busy, wel⟩, ram, log⟩ =
      .ok () ⟨c, some ⟨bytes ++ slice ram pbuf n, busy, wel⟩, ram, log⟩ := by
  induction n generalizing pbuf bytes with
  | zero => simp [spiSend]
  | succ n ih =>
      have hload : ramLoad pbuf ⟨c, some ⟨bytes, busy, wel⟩, ram, log⟩ =
          .ok (ram pbuf) ⟨c, some ⟨bytes, busy, wel⟩, ram, log⟩ := rfl
      rw [spiSend, bind_of_ok hload, bind_of_ok (spi_idle hc _), Instruction.push, ih,
        slice_succ, List.append_assoc]
      rfl

/-! ### Busy polling -/

/-- The write enable instruction, and a status read with any number of polls. -/
def Housekeeping (i : Instruction) : Prop :=
  i.bytes = [Instr.writeEnable] ∨ ∃ k, i.bytes = Instr.readStatusReg1 :: List.replicate k dummyByte

/-- The poll loop, inside the status read it belongs to. -/
theorem pollBusy_apply (c : Chip) (busy wel : Bool) (ram : ℕ → UInt8) (log : List Instruction)
    (k : ℕ) :
    ∃ k', pollBusy (c.busy + 1)
        ⟨c, some ⟨Instr.readStatusReg1 :: List.replicate k dummyByte, busy, wel⟩, ram, log⟩ =
      .ok () ⟨c.settled,
        some ⟨Instr.readStatusReg1 :: List.replicate k' dummyByte, busy, wel⟩, ram, log⟩ := by
  induction hn : c.busy generalizing c k with
  | zero =>
      have hidle : ¬ c.status &&& 0x01 ≠ 0 := by
        rw [Chip.status_busy]
        exact not_not.mpr hn
      refine ⟨k + 1, ?_⟩
      rw [pollBusy, bind_of_ok (spi_idle hn _), Chip.output_status, if_neg hidle,
        Chip.settled_of_idle hn, List.replicate_succ']
      rfl
  | succ n ih =>
      have hbusy : c.status &&& 0x01 ≠ 0 := by
        rw [Chip.status_busy]
        omega
      obtain ⟨k', hpoll⟩ := ih c.tick (k + 1) (by rw [Chip.tick, hn]; rfl)
      refine ⟨k', ?_⟩
      rw [pollBusy, bind_of_ok (spi_apply _), Chip.output_status, if_pos hbusy,
        ← Chip.settled_tick, ← hpoll, List.replicate_succ']
      rfl

/-- **The poll loop ends**, on every chip, and leaves it idle. -/
theorem waitForBusy_apply (c : Chip) (ram : ℕ → UInt8) (log : List Instruction) :
    ∃ j, Housekeeping j ∧ waitForBusy ⟨c, none, ram, log⟩ =
      .ok () ⟨c.settled, none, ram, log ++ [j]⟩ := by
  obtain ⟨k, hpoll⟩ := pollBusy_apply c.tick (c.busy ≠ 0) c.wel ram log 0
  refine ⟨⟨Instr.readStatusReg1 :: List.replicate k dummyByte, c.busy ≠ 0, c.wel⟩,
    .inr ⟨k, rfl⟩, ?_⟩
  rw [waitForBusy, bind_of_ok csEnable_apply, bind_of_ok (spi_apply _), bind_of_ok (get_apply _),
    ← Chip.settled_tick, ← Chip.execute_read (.inl rfl) c.tick.settled
      (List.replicate k dummyByte) (c.busy ≠ 0) c.wel]
  exact (bind_of_ok hpoll).trans csDisable_apply

/-! ### Functions that program or erase -/

/-- The head they share. -/
theorem enabled_apply (k : Spi Unit) (c : Chip) (ram : ℕ → UInt8) (log : List Instruction) :
    ∃ es, (∀ j ∈ es, Housekeeping j) ∧
      (do writeEnable; waitForBusy; csEnable; k : Spi Unit) ⟨c, none, ram, log⟩ =
        k ⟨{ c with busy := 0, wel := decide (c.busy = 0) },
          some ⟨[], false, decide (c.busy = 0)⟩, ram, log ++ es⟩ := by
  let enable : Instruction := ⟨[Instr.writeEnable], c.busy ≠ 0, c.wel⟩
  have henable : writeEnable ⟨c, none, ram, log⟩ =
      .ok () ⟨c.tick.execute enable, none, ram, log ++ [enable]⟩ := rfl
  have hsettled : (c.tick.execute enable).settled =
      { c with busy := 0, wel := decide (c.busy = 0) } := by
    by_cases hc : c.busy = 0
    · rw [Chip.tick_of_idle hc]
      simp [enable, hc, Chip.execute, Chip.settled]
    · have hignored : c.tick.execute enable = c.tick := by
        simp [enable, hc, Chip.execute]
      rw [hignored, Chip.settled_tick]
      simp [Chip.settled, hc]
  obtain ⟨j, hj, hwait⟩ := waitForBusy_apply (c.tick.execute enable) ram (log ++ [enable])
  rw [hsettled, List.append_assoc] at hwait
  refine ⟨[enable, j], ?_, ?_⟩
  · rw [List.forall_mem_cons, List.forall_mem_singleton]
    exact ⟨.inl rfl, hj⟩
  · rw [bind_of_ok henable, bind_of_ok hwait, bind_of_ok csEnable_apply]
    simp

/-- From any state between two calls, `x` returns with the chip idle, and has sent one
instruction besides write enables and status reads. It met a chip that was not busy, with the
write enable latch set exactly when the chip was idle at the call. -/
def Issues (x : Spi Unit) (ram : ℕ → UInt8) (bytes : List UInt8) : Prop :=
  ∀ (c : Chip) (log : List Instruction), ∃ (before after : List Instruction) (c' : Chip),
    x ⟨c, none, ram, log⟩ = .ok () ⟨c', none, ram,
      log ++ (before ++ ⟨bytes, false, decide (c.busy = 0)⟩ :: after)⟩ ∧
    (∀ j ∈ before ++ after, Housekeeping j) ∧ c'.busy = 0

/-- A function issues what its body shifts in between the shared head and the shared tail. -/
theorem issues_of_body {k : Spi Unit}
    (hbody : ∀ (c : Chip) (log : List Instruction) (wel : Bool), c.busy = 0 →
      k ⟨c, some ⟨[], false, wel⟩, ram, log⟩ =
        (do csDisable; waitForBusy : Spi Unit) ⟨c, some ⟨bytes, false, wel⟩, ram, log⟩) :
    Issues (do writeEnable; waitForBusy; csEnable; k) ram bytes := by
  intro c log
  obtain ⟨before, hbefore, hhead⟩ := enabled_apply k c ram log
  let c₁ : Chip := { c with busy := 0, wel := decide (c.busy = 0) }
  let i : Instruction := ⟨bytes, false, decide (c.busy = 0)⟩
  obtain ⟨j, hj, hwait⟩ := waitForBusy_apply (c₁.execute i) ram (log ++ before ++ [i])
  refine ⟨before, [j], (c₁.execute i).settled, ?_, ?_, rfl⟩
  · rw [hhead, hbody c₁ (log ++ before) _ rfl, bind_of_ok csDisable_apply, hwait]
    simp [i]
  · intro j' hj'
    rcases List.mem_append.mp hj' with hj' | hj'
    · exact hbefore j' hj'
    · rw [List.mem_singleton.mp hj']
      exact hj

/-- `w25q128jv_erase_chip` -/
theorem issues_eraseChip : Issues eraseChip ram [Instr.chipErase] :=
  issues_of_body fun _ _ _ hc => by
    rw [bind_of_ok (spi_idle hc _)]
    rfl

/-- `w25q128jv_erase_sector` -/
theorem issues_eraseSector (sectorNum : UInt32) :
    Issues (eraseSector sectorNum) ram
      (Instr.sectorErase4KB :: addressBytes (sectorNum * sectorSize)) :=
  issues_of_body fun _ _ _ hc => by
    rw [bind_of_ok (spi_idle hc _), Instruction.push, bind_of_ok (spiAddress_idle hc _)]
    rfl

/-- `w25q128jv_erase_block` -/
theorem issues_eraseBlock (blockNum : UInt32) :
    Issues (eraseBlock blockNum) ram
      (Instr.blockErase64KB :: addressBytes (blockNum * blockSize)) :=
  issues_of_body fun _ _ _ hc => by
    rw [bind_of_ok (spi_idle hc _), Instruction.push, bind_of_ok (spiAddress_idle hc _)]
    rfl

/-- `w25q128jv_write_byte` -/
theorem issues_writeByte (b : UInt8) (addr : UInt32) :
    Issues (writeByte b addr) ram (Instr.pageProgram :: (addressBytes addr ++ [b])) :=
  issues_of_body fun _ _ _ hc => by
    rw [bind_of_ok (spi_idle hc _), Instruction.push, bind_of_ok (spiAddress_idle hc _),
      bind_of_ok (spi_idle hc _)]
    rfl

/-- `w25q128jv_write_page`: the bytes that go out are as many as its clamps leave. -/
theorem issues_writePage (pbuf : ℕ) (pageNum offset n : UInt32) :
    Issues (writePage pbuf pageNum offset n) ram
      (Instr.pageProgram :: (addressBytes (pageNum * pageSize + offset) ++
        slice ram pbuf (writePageBytes offset n).toNat)) :=
  issues_of_body fun _ _ _ hc => by
    rw [bind_of_ok (spi_idle hc _), Instruction.push, bind_of_ok (spiAddress_idle hc _),
      bind_of_ok (spiSend_idle hc _ _)]
    rfl

/-! ### Reads -/

/-- What `spiReceive` does on any chip: it stores `n` bytes, one for each dummy byte. They are
`0xFF` when the chip ignores the instruction. -/
theorem spiReceive_apply (c : Chip) (bytes : List UInt8) (ram : ℕ → UInt8) (pbuf n : ℕ) :
    ∃ c' data, spiReceive pbuf n ⟨c, some ⟨bytes, busy, wel⟩, ram, log⟩ =
        .ok () ⟨c', some ⟨bytes ++ List.replicate n dummyByte, busy, wel⟩,
          overlay ram pbuf data, log⟩ ∧ data.length = n ∧
      ((∀ (d : Chip) sent, d.output ⟨bytes ++ sent, busy, wel⟩ = 0xFF) → ∀ b ∈ data, b = 0xFF) := by
  induction n generalizing c pbuf bytes ram with
  | zero => exact ⟨c, [], by simp [spiReceive], rfl, by simp⟩
  | succ n ih =>
      let b := c.output ⟨bytes, busy, wel⟩
      obtain ⟨c', data, hrun, hlen, hignored⟩ := ih c.tick (bytes ++ [dummyByte])
        (Function.update ram pbuf b) (pbuf + 1)
      have hstore : ramStore pbuf b ⟨c.tick, some ⟨bytes ++ [dummyByte], busy, wel⟩, ram, log⟩ =
          .ok () ⟨c.tick, some ⟨bytes ++ [dummyByte], busy, wel⟩, Function.update ram pbuf b,
            log⟩ := rfl
      refine ⟨c', b :: data, ?_, by rw [List.length_cons, hlen], fun hff => ?_⟩
      · rw [spiReceive, bind_of_ok (spi_apply _), Instruction.push, bind_of_ok hstore, hrun,
          overlay_update, List.replicate_succ, List.append_assoc]
        rfl
      · have hfirst := hff c []
        rw [List.append_nil] at hfirst
        refine List.forall_mem_cons.mpr ⟨hfirst, hignored fun d sent => ?_⟩
        rw [List.append_assoc]
        exact hff d _

/-- The three address bytes, whatever the chip does meanwhile. -/
theorem spiAddress_apply (addr : UInt32) :
    spiAddress addr ⟨c, some ⟨bytes, busy, wel⟩, ram, log⟩ =
      .ok () ⟨c.tick.tick.tick, some ⟨bytes ++ addressBytes addr, busy, wel⟩, ram, log⟩ := by
  rw [spiAddress, bind_of_ok (spi_apply _), bind_of_ok (spi_apply _), bind_of_ok (spi_apply _)]
  simp [Instruction.push, addressBytes]

/-- A fast read that began on a busy chip is ignored. -/
theorem output_ignored (d : Chip) (args : List UInt8) (wel : Bool) :
    d.output ⟨Instr.fastRead :: args, true, wel⟩ = 0xFF := rfl

/-- `w25q128jv_read_page` on any chip: one fast read, and the bytes it stores. It does not wait
for a busy chip, which answers it with `0xFF`. -/
theorem readPage_apply (pbuf : ℕ) (pageNum offset n : UInt32) (c : Chip) (ram : ℕ → UInt8)
    (log : List Instruction) :
    ∃ c' data busy wel, readPage pbuf pageNum offset n ⟨c, none, ram, log⟩ =
        .ok () ⟨c', none, overlay ram pbuf data, log ++
          [⟨Instr.fastRead :: (addressBytes (pageNum * pageSize + offset) ++ 0 ::
            List.replicate (readPageBytes offset n).toNat dummyByte), busy, wel⟩]⟩ ∧
      data.length = (readPageBytes offset n).toNat ∧
      (c.busy ≠ 0 → ∀ b ∈ data, b = 0xFF) := by
  obtain ⟨c', data, hreceive, hlen, hignored⟩ := spiReceive_apply c.tick.tick.tick.tick.tick
    (Instr.fastRead :: (addressBytes (pageNum * pageSize + offset) ++ [0])) ram pbuf
    (readPageBytes offset n).toNat
  refine ⟨c', data, c.busy ≠ 0, c.wel, ?_, hlen, fun hbusy => hignored fun d sent => ?_⟩
  · rw [readPage, bind_of_ok csEnable_apply, bind_of_ok (spi_apply _), Instruction.push,
      bind_of_ok (spiAddress_apply _), bind_of_ok (spi_apply _)]
    refine (bind_of_ok hreceive).trans ?_
    rw [csDisable_apply, List.cons_append, List.append_assoc, Chip.execute_read (.inr rfl)]
    rfl
  · rw [decide_eq_true hbusy]
    exact output_ignored d _ _

end W25q128jv

end Num487Boot
