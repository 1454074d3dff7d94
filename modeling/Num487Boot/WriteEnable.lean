import Num487Boot.BusTraffic

/-!
# Dropped Instructions

A program or erase takes effect when the chip receives it idle and with its write enable
latch set; a chip that is still busy ignores everything but status reads. The driver sends
the write enable instruction before it waits for the chip, so on a chip that is still busy
at the call, with an operation from before a reset of the MCU, the write enable instruction
is lost and the instruction after the wait is dropped.

## Main results

* `Call.served`: one call leaves the chip idle, and drops its instructions exactly when it
  met a busy chip.
* `noneDropped_iff`: over every sequence of calls.
-/

namespace Num487Boot

open Exec Memory

/-- The instruction programs or erases, by its code. -/
def Instruction.alters (i : Instruction) : Bool :=
  match i.bytes with
  | op :: _ =>
      op ∈ [Instr.pageProgram, Instr.sectorErase4KB, Instr.blockErase64KB, Instr.chipErase]
  | [] => false

/-- Every program or erase was received by an idle chip with its write enable latch set. -/
def NoneDropped (es : List Instruction) : Prop :=
  ∀ i ∈ es, i.alters = true → i.busy = false ∧ i.wel = true

/-- One list of instructions after the other. -/
theorem noneDropped_append {es es' : List Instruction} :
    NoneDropped (es ++ es') ↔ NoneDropped es ∧ NoneDropped es' := by
  simp only [NoneDropped, List.forall_mem_append]

namespace W25q128jv

/-- Write enables and status reads alter nothing. -/
theorem Housekeeping.not_alters {i : Instruction} (h : Housekeeping i) : i.alters = false := by
  obtain ⟨bytes, busy, wel⟩ := i
  rcases h with h | ⟨k, h⟩
  · subst h
    rfl
  · subst h
    rfl

/-! ### One call -/

/-- The calls of the driver that program or erase. -/
inductive Call
  | eraseChip
  | eraseSector (sectorNum : UInt32)
  | eraseBlock (blockNum : UInt32)
  | writeByte (b : UInt8) (addr : UInt32)
  | writePage (pbuf : ℕ) (pageNum offset bytes : UInt32)
  | writeSector (pbuf : ℕ) (sectorNum offset bytes : UInt32)

/-- The function of a call. -/
def Call.invoke : Call → Spi Unit
  | .eraseChip => W25q128jv.eraseChip
  | .eraseSector sectorNum => W25q128jv.eraseSector sectorNum
  | .eraseBlock blockNum => W25q128jv.eraseBlock blockNum
  | .writeByte b addr => W25q128jv.writeByte b addr
  | .writePage pbuf pageNum offset bytes => W25q128jv.writePage pbuf pageNum offset bytes
  | .writeSector pbuf sectorNum offset bytes => W25q128jv.writeSector pbuf sectorNum offset bytes

/-- The one kind of call that sends nothing: an offset outside the sector. -/
def Call.sendsNothing : Call → Bool
  | .writeSector _ _ offset _ => offset ≥ sectorSize
  | .eraseChip | .eraseSector _ | .eraseBlock _ | .writeByte _ _ | .writePage _ _ _ _ => false

/-- The bus after calls that met the chip `c`: the chip is idle, and none of their
instructions was dropped exactly when `c` was idle. -/
structure Served (c : Chip) (ram : ℕ → UInt8) (log : List Instruction) (s : Bus) : Prop where
  deselected : s.selected = none
  ram_eq : s.ram = ram
  idle : s.chip.busy = 0
  log_eq : ∃ es, s.received = log ++ es ∧ (NoneDropped es ↔ c.busy = 0)

variable {c : Chip} {ram : ℕ → UInt8} {log : List Instruction} {s t : Bus}

/-- What is called next meets an idle chip. -/
theorem Served.trans (h : Served c ram log s) (h' : Served s.chip ram s.received t) :
    Served c ram log t := by
  obtain ⟨-, -, hidle, es, hes, hdropped⟩ := h
  obtain ⟨hsel, hram, hidle', es', hes', hdropped'⟩ := h'
  refine ⟨hsel, hram, hidle', es ++ es', by rw [hes', hes, List.append_assoc], ?_⟩
  rw [noneDropped_append, hdropped, hdropped', and_iff_left hidle]

/-- A function with one altering instruction serves its call. -/
theorem Issues.served {x : Spi Unit} {op : UInt8} {args : List UInt8}
    (h : Issues x ram (op :: args)) (c : Chip) (log : List Instruction)
    (hop : ∀ busy wel, (Instruction.mk (op :: args) busy wel).alters = true) :
    ∃ t, x ⟨c, none, ram, log⟩ = .ok () t ∧ Served c ram log t := by
  obtain ⟨before, after, c', hrun, hothers, hidle⟩ := h c log
  refine ⟨_, hrun, rfl, rfl, hidle, _, rfl, fun hnone => ?_, fun hc i hi halters => ?_⟩
  · have hissued := hnone ⟨op :: args, false, decide (c.busy = 0)⟩ (by simp) (hop _ _)
    simpa using hissued.2
  · rcases List.mem_append.mp hi with hi | hi
    · rw [(hothers i (List.mem_append_left _ hi)).not_alters] at halters
      cases halters
    rcases List.mem_cons.mp hi with rfl | hi
    · simp [hc]
    · rw [(hothers i (List.mem_append_right _ hi)).not_alters] at halters
      cases halters

/-- The states of the page loop of a sector write: its start, and the chip served. -/
def Writing (c : Chip) (ram : ℕ → UInt8) (log : List Instruction) : ℕ → Bus → Prop
  | 0, s => s = ⟨c, none, ram, log⟩
  | _ + 1, s => Served c ram log s

/-- A page write serves its call, whatever its count. -/
theorem served_writePage (pbuf : ℕ) (pageNum offset bytes : UInt32) (c : Chip) (ram : ℕ → UInt8)
    (log : List Instruction) :
    ∃ t, writePage pbuf pageNum offset bytes ⟨c, none, ram, log⟩ = .ok () t ∧
      Served c ram log t :=
  (issues_writePage pbuf pageNum offset bytes).served c log fun _ _ => rfl

/-- Every page of a sector write serves the call. -/
theorem doesPage_writing (start total pbuf : ℕ) :
    DoesPage writePage (Writing c ram log) start total pbuf := by
  intro k pageNum ofs bytes _ hofs hpos _ s hs
  obtain ⟨m, hm⟩ : ∃ m, k + min bytes.toNat (256 - ofs.toNat) = m + 1 :=
    ⟨k + min bytes.toNat (256 - ofs.toNat) - 1, by omega⟩
  rw [hm]
  cases k with
  | zero =>
      obtain rfl : s = ⟨c, none, ram, log⟩ := hs
      obtain ⟨t, hrun, ht⟩ := served_writePage (pbuf + 0) pageNum ofs bytes c ram log
      rw [hrun]
      exact ht
  | succ k =>
      have hs : Served c ram log s := hs
      obtain ⟨t, hrun, ht⟩ := served_writePage (pbuf + (k + 1)) pageNum ofs bytes s.chip ram
        s.received
      have hsame : s = ⟨s.chip, none, ram, s.received⟩ := by
        rw [← hs.deselected, ← hs.ram_eq]
      rw [hsame, hrun]
      exact hs.trans ht

/-- The pages of a sector start below the addresses that 32 bits can name. -/
theorem sector2page_lt (sectorNum : UInt32) :
    (sector2page sectorNum).toNat * 256 < 2 ^ 32 := by
  have hlt := (sectorNum * sectorSize).toNat_lt
  rw [sector2page, UInt32.toNat_div, toNat_pageSize]
  omega

/-- A sector write that starts in its sector serves its call. -/
theorem served_writeSector (pbuf : ℕ) {sectorNum offset bytes : UInt32}
    (hofs : offset.toNat < 4096) :
    ∃ t, writeSector pbuf sectorNum offset bytes ⟨c, none, ram, log⟩ = .ok () t ∧
      Served c ram log t := by
  have hlt := sector2page_lt sectorNum
  have hunit : (sector2page sectorNum).toNat * 256 + sectorSize.toNat ≤ 2 ^ 40 := by
    rw [toNat_sectorSize]
    omega
  have hwriting : DoesPage writePage (Writing c ram log)
      ((sector2page sectorNum).toNat * 256 + offset.toNat)
      (unitLength sectorSize.toNat offset.toNat bytes.toNat) pbuf := doesPage_writing _ _ pbuf
  obtain ⟨⟨⟩, t, hrun, ht⟩ := (settles_overUnit (by decide) rfl hunit hofs hwriting).returns rfl
  have hpos : 0 < unitLength sectorSize.toNat offset.toNat bytes.toNat := unitLength_pos hofs _
  obtain ⟨m, hm⟩ : ∃ m, unitLength sectorSize.toNat offset.toNat bytes.toNat = m + 1 :=
    Nat.exists_eq_succ_of_ne_zero (Nat.ne_of_gt hpos)
  rw [hm] at ht
  exact ⟨t, hrun, ht⟩

/-- **One call.** It returns, and serves the chip it met unless it sends nothing. -/
theorem Call.served (call : Call) (h : call.sendsNothing = false) (c : Chip) (ram : ℕ → UInt8)
    (log : List Instruction) :
    ∃ t, call.invoke ⟨c, none, ram, log⟩ = .ok () t ∧ Served c ram log t := by
  cases call with
  | eraseChip => exact issues_eraseChip.served c log fun _ _ => rfl
  | eraseSector sectorNum => exact (issues_eraseSector sectorNum).served c log fun _ _ => rfl
  | eraseBlock blockNum => exact (issues_eraseBlock blockNum).served c log fun _ _ => rfl
  | writeByte b addr => exact (issues_writeByte b addr).served c log fun _ _ => rfl
  | writePage pbuf pageNum offset bytes =>
      exact served_writePage pbuf pageNum offset bytes c ram log
  | writeSector pbuf sectorNum offset bytes =>
      refine served_writeSector pbuf ?_
      have hin : ¬ sectorSize ≤ offset := by simpa [sendsNothing] using h
      rw [UInt32.le_iff_toNat_le] at hin
      exact Nat.lt_of_not_le hin

/-- A call that sends nothing leaves the bus. -/
theorem Call.invoke_of_sendsNothing {call : Call} (h : call.sendsNothing = true) (s : Bus) :
    call.invoke s = .ok () s := by
  cases call with
  | writeSector pbuf sectorNum offset bytes =>
      have hout : offset ≥ sectorSize := by simpa [sendsNothing] using h
      exact overUnit_outside hout ..
  | _ => cases h

/-- **No instruction is dropped** in a sequence of calls if and only if the chip was idle at
its start, or the calls send nothing at all. This is for every state of the chip, with every
remaining busy time and all busy times to come, and every sequence of calls. -/
theorem noneDropped_iff (calls : List Call) (s : Bus) (hsel : s.selected = none) :
    ∃ t es, calls.forM Call.invoke s = .ok () t ∧ t.received = s.received ++ es ∧
      (NoneDropped es ↔ s.chip.busy = 0 ∨ ∀ call ∈ calls, call.sendsNothing = true) := by
  induction calls generalizing s with
  | nil => exact ⟨s, [], rfl, (List.append_nil _).symm, by simp [NoneDropped]⟩
  | cons call calls ih =>
      have hcons : (call :: calls).forM Call.invoke s =
          (call.invoke >>= fun _ => calls.forM Call.invoke) s := rfl
      rw [hcons]
      cases hcall : call.sendsNothing with
      | true =>
          obtain ⟨t, es, hrun, hes, hiff⟩ := ih s hsel
          refine ⟨t, es, ?_, hes, ?_⟩
          · rw [bind_of_ok (Call.invoke_of_sendsNothing hcall s), hrun]
          · rw [hiff, List.forall_mem_cons, and_iff_right hcall]
      | false =>
          have hsame : s = ⟨s.chip, none, s.ram, s.received⟩ := by rw [← hsel]
          obtain ⟨u, hcalled, hu⟩ := call.served hcall s.chip s.ram s.received
          rw [← hsame] at hcalled
          obtain ⟨hsel', -, hidle, es₁, hes₁, hdropped₁⟩ := hu
          obtain ⟨t, es₂, hrun, hes₂, hdropped₂⟩ := ih u hsel'
          have hrest : NoneDropped es₂ := hdropped₂.mpr (.inl hidle)
          refine ⟨t, es₁ ++ es₂, ?_, ?_, ?_⟩
          · rw [bind_of_ok hcalled, hrun]
          · rw [hes₂, hes₁, List.append_assoc]
          · rw [noneDropped_append, and_iff_left hrest, hdropped₁]
            refine ⟨.inl, fun h => h.resolve_right fun hnothing => ?_⟩
            rw [hnothing call List.mem_cons_self] at hcall
            cases hcall

/-- A chip that is still busy with an operation from before a reset of the MCU, over a memory
of zeros. -/
def busyBus : Bus := ⟨⟨fun _ => 0, false, 3, fun _ => 0⟩, none, fun _ => 0, []⟩

/-- A page program and a sector erase, on an idle chip. -/
theorem noneDropped_idle :
    ∃ t es, [Call.writePage 0 0 0 4, Call.eraseSector 1].forM Call.invoke
        { busyBus with chip := busyBus.chip.settled } = .ok () t ∧ t.received = [] ++ es ∧
      (NoneDropped es ↔ busyBus.chip.settled.busy = 0 ∨
        ∀ call ∈ [Call.writePage 0 0 0 4, Call.eraseSector 1], call.sendsNothing = true) :=
  noneDropped_iff _ { busyBus with chip := busyBus.chip.settled } rfl

/-- The erase of a sector is dropped by the busy chip: it was received without the write
enable latch, and the sector still holds zeros. -/
theorem eraseSector_dropped :
    let t := after (eraseSector 0 busyBus)
    ¬ NoneDropped t.received ∧ t.chip.mem 0 = 0 := by
  obtain ⟨u, hrun, hu⟩ := (issues_eraseSector 0).served busyBus.chip [] fun _ _ => rfl
  obtain ⟨es, hes, hdropped⟩ := hu.log_eq
  have hafter : after (eraseSector 0 busyBus) = u := congrArg after hrun
  refine ⟨fun h => ?_, by decide +kernel⟩
  rw [hafter, hes, List.nil_append, hdropped] at h
  cases h

end W25q128jv

end Num487Boot
