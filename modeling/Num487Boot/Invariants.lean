import Num487Boot.Guard

/-!
# Two Invariants of Every Run

What every run of the bootloader keeps, whatever it receives, as long as its steps meet the
condition `Config.Meets`.

* `buffer_bound`: no store leaves the packet buffer.
* `bootloader_selfProtection`: no word of the bootloader section is programmed or erased.

Both conditions are needed: `longFrame_overrun` is a frame whose LENGTH field exceeds the
buffer, `zeroRecord_programs` a `/boot` file whose record is addressed to the bootloader.
-/

namespace Num487Boot

open Exec

/-! ### Sample sessions -/

/-- The host shakes hands and asks to boot from the file system. -/
def bootSession : List UartPoll := received [cmdChkProtocol, cmdProgExtFlashBoot]

/-- LittleFS is as documented; `FMC_Write` succeeds inside the chip's flash only. -/
def Verdicts.inChip : Verdicts where
  isp _ c := match c with
    | .program addr _ => if addr < chipFlashEnd then .done else .fault
    | .read _ | .blockErase _ => .done
  lfs _ _ := .asDocumented

/-- The bootloader after three passes of `bootSession`, with one byte stored in `/boot`. -/
def bootedFrom (boot : FileData) : Config :=
  .reached bootSession (.formatted (some boot)) .blank [.inChip, .inChip, .inChip]

/-- A record of zeros, and one for the first application page, both cut short. -/
def zeroRecord : FileData := ⟨[0], by decide⟩

/-- A file whose padded record carries the start of the application section. -/
def appRecord : FileData := ⟨[0, 0, 1, 0], by decide⟩

/-! ### The buffer bound -/

/-- Nothing at all survives everything; what is left is that no store leaves the buffer. -/
theorem safeguard_true : Safeguard (fun _ => True) fun _ => True where
  frame _ _ _ _ := trivial
  log _ _ := trivial
  page _ _ _ _ := trivial
  eraseAll _ _ := trivial
  read _ _ _ _ := trivial

/-- **The buffer bound.** In a run in which no received header announces more than
`BUFFERSIZE` bytes, and no read of `boot_from_fs` delivers more, no store is at an index
outside `bl_buffer`. -/
theorem buffer_bound (rx : List UartPoll) (disk : Disk) (flash : Flash) (vs : List Verdicts)
    (prints : ℕ → LfsCall → List MessageChar)
    (h : Runs.Guarded Config.step (Config.Meets fun _ => True)
      (.live (.reset rx disk flash prints)) vs) :
    ∀ i, (Config.reached rx disk flash vs prints).halted ≠ some (.overrun i) := by
  intro i
  have hsound : (Config.reached rx disk flash vs prints).Sound fun _ => True :=
    safeguard_true.run (J := fun _ => True) (V := fun _ => True) (fun _ _ => trivial)
      (fun _ _ _ _ => trivial) (fun _ _ => trivial) (fun _ _ => trivial) h trivial
  cases hrun : Config.reached rx disk flash vs prints with
  | live s => nofun
  | dead e s =>
      rw [hrun] at hsound
      exact fun hover => hsound.1 i (Option.some.inj hover)

/-- A session that boots from a well-formed file meets the condition. -/
theorem buffer_bound_appRecord : (bootedFrom appRecord).halted ≠ some (.overrun 516) := by
  refine buffer_bound bootSession (.formatted (some appRecord)) .blank _ _ ?_ 516
  -- with the reset machine a variable, unification does not run the device
  generalize hc : Config.live (.reset bootSession (.formatted (some appRecord)) .blank) = c
  refine .cons (Config.meets_of_machine ?_ ?_) <| .cons (Config.meets_of_machine ?_ ?_) <|
    .cons (Config.meets_of_machine ?_ ?_) .nil
  all_goals subst hc; decide +kernel

/-- A header that announces 517 bytes, and the bytes. -/
def longFrame : List UartPoll :=
  ([header, header, header, cmdChkProtocol, 2, 5] ++ List.replicate 517 0).map .byte

/-- During the handshake the bytes of `longFrame` are stored up to index 516. -/
theorem longFrame_overrun :
    (Config.reached longFrame .unformatted .blank [.allWell, .allWell]).halted =
      some (.overrun 516) := by
  decide +kernel

/-! ### Self-protection -/

/-- The event is not a program or an erase of the bootloader section. -/
def Event.sparesBootloader : Event → Bool
  | .isp (.program addr _) _ | .isp (.blockErase addr) _ => bootloaderEnd < addr
  | .isp (.read _) _ | .lfs _ _ _ _ | .tx _ | .accept _ _ => true

/-- `FMC_Write` does not succeed outside the chip's flash. -/
def OutsideFails (v : Verdicts) : Prop :=
  ∀ n addr data, chipFlashEnd ≤ addr → v.isp n (.program addr data) ≠ .done

/-- Nothing in the log touches the bootloader section, and the section still holds what it
held in `flash`. -/
structure Intact (flash : Flash) (s : Machine) : Prop where
  trace : ∀ e ∈ s.trace, e.sparesBootloader = true
  words : ∀ w, w < 0x4000 → s.flash w = flash w

/-- The invariant of a pass: the section is intact, and `FMC_Write` keeps failing outside
the chip's flash. -/
def Protected (flash : Flash) (s : Machine) : Prop := OutsideFails s.verdicts ∧ Intact flash s

/-- A command that spares the bootloader, or fails there, keeps its words. -/
theorem Protected.afterIsp {flash : Flash} {s : Machine} {c : IspCommand} (dat : UInt32)
    (err : Int32) (h : Protected flash s)
    (hc : (Event.isp c (s.verdicts.isp 0 c)).sparesBootloader = true)
    (hw : ∀ w, w < 0x4000 → c.apply s.flash w = s.flash w) :
    Protected flash { s.afterIsp c with ispDat := dat, fmcErrCode := err } := by
  obtain ⟨hout, htrace, hwords⟩ := h
  refine ⟨fun n => hout (n + 1), ?_, ?_⟩
  · intro e he
    rcases List.mem_append.mp he with he | he
    · exact htrace e he
    · obtain rfl := List.mem_singleton.mp he
      exact hc
  · intro w hlt
    simp only [Machine.afterIsp]
    split
    · rw [hw w hlt, hwords w hlt]
    · exact hwords w hlt

/-- The guard of `CMD_FLASH_WRITE`, in numbers. -/
private theorem bootloaderEnd_lt_iff (addr : UInt32) :
    bootloaderEnd < addr ↔ 65536 ≤ addr.toNat := by
  rw [UInt32.lt_iff_toNat_lt, toNat_bootloaderEnd]
  omega

/-- Programming a page above the bootloader keeps the section: the loop only goes on while
the words are inside the chip's flash, so its address does not wrap. -/
theorem Protected.writeWords {flash : Flash} (buf : ℕ → UInt8) (n : ℕ) {addr : UInt32} (i : ℕ)
    {s : Machine} (h : Protected flash s) (haddr : bootloaderEnd < addr) :
    Protected flash (after (writeWords buf n addr i s)) := by
  induction n generalizing addr i s with
  | zero => exact h
  | succ n ih =>
      let c : IspCommand := .program addr (leWord buf i)
      have hlow := (bootloaderEnd_lt_iff addr).mp haddr
      have hnext := h.afterIsp (c := c) (leWord buf i) (s.verdicts.isp 0 c).code
        (by simpa [Event.sparesBootloader, c] using haddr)
        (fun w hw => Function.update_of_ne (by omega) _ _)
      rw [writeWords_succ]
      by_cases hv : s.verdicts.isp 0 c = .done
      · rw [if_pos hv]
        have hin : addr < chipFlashEnd := by
          by_contra hout
          exact h.1 0 addr _ (UInt32.not_lt.mp hout) hv
        refine ih (i + 4) hnext ((bootloaderEnd_lt_iff _).mpr ?_)
        have hend : chipFlashEnd.toNat = 3215360 := rfl
        have hfour : (4 : UInt32).toNat = 4 := rfl
        rw [UInt32.lt_iff_toNat_lt, hend] at hin
        rw [UInt32.toNat_add, hfour]
        omega
      · rw [if_neg hv]
        exact hnext

/-- The erase loop starts above the bootloader and ends at the end of the section. -/
theorem Protected.eraseBlocks {flash : Flash} (n : ℕ) {addr : UInt32} (res : UInt8) {s : Machine}
    (h : Protected flash s) (haddr : bootloaderEnd < addr) :
    Protected flash (after (eraseBlocks n addr res s)) := by
  induction n generalizing addr res s with
  | zero => exact h
  | succ n ih =>
      have hlow := (bootloaderEnd_lt_iff addr).mp haddr
      rw [Num487Boot.eraseBlocks]
      by_cases hlt : addr < userAppEnd
      · rw [if_pos hlt, bind_of_ok (fmcEraseBlock_apply addr s)]
        refine ih _ (h.afterIsp s.ispDat _ (by simpa [Event.sparesBootloader] using haddr)
          fun w hw => if_neg (by omega)) ((bootloaderEnd_lt_iff _).mpr ?_)
        rw [UInt32.lt_iff_toNat_lt, toNat_userAppEnd] at hlt
        rw [UInt32.toNat_add, toNat_eraseStep]
        omega
      · rw [if_neg hlt]
        exact h

/-- The bootloader section is a safeguarded invariant, for pages above it. -/
theorem safeguard_protected (flash : Flash) : Safeguard (Protected flash) (bootloaderEnd < ·) where
  frame := by
    rintro s t hflash hisp htrace ⟨hout, hlog, hwords⟩
    exact ⟨by rwa [OutsideFails, hisp], by rwa [htrace], by rwa [hflash]⟩
  log := by
    rintro s es hes ⟨hout, hlog, hwords⟩
    refine ⟨hout, fun e he => ?_, hwords⟩
    rcases List.mem_append.mp he with he | he
    · exact hlog e he
    · cases e with
      | isp c v => exact absurd rfl (hes _ he c v)
      | accept _ _ => rfl
      | tx _ => rfl
      | lfs _ _ _ => rfl
  page hdest buf s hs := by
    rw [flashWriteAppPage]
    exact hs.writeWords buf (blFlashPacsize / 4) 0 hdest
  eraseAll s hs := by
    rw [flashEraseAppAll]
    exact hs.eraseBlocks 29 0 (by decide)
  read {addr} s dat err hs := hs.afterIsp (c := .read addr) dat err rfl fun _ _ => rfl

/-- **Self-protection of the bootloader.** In a run in which no received header announces
more than `BUFFERSIZE` bytes, and every record `boot_from_fs` finds in `/boot` is addressed
above the bootloader, nothing programs or erases the bootloader section. -/
theorem bootloader_selfProtection (rx : List UartPoll) (disk : Disk) (flash : Flash)
    (vs : List Verdicts) (prints : ℕ → LfsCall → List MessageChar)
    (hout : ∀ v ∈ vs, OutsideFails v)
    (h : Runs.Guarded Config.step (Config.Meets (bootloaderEnd < ·))
      (.live (.reset rx disk flash prints)) vs) :
    (∀ e ∈ (Config.reached rx disk flash vs prints).machine.trace, e.sparesBootloader = true) ∧
      ∀ w, w < 0x4000 → (Config.reached rx disk flash vs prints).machine.flash w = flash w := by
  have hreset : Intact flash (.reset rx disk flash prints) :=
    ⟨by simp [Machine.reset], fun _ _ => rfl⟩
  have hsound : (Config.reached rx disk flash vs prints).Sound (Intact flash) :=
    (safeguard_protected flash).run (J := Intact flash) (V := OutsideFails) (fun _ h => h)
      (fun _ _ hv hs => ⟨hv, hs.trace, hs.words⟩) (fun _ hs => hs.2) hout h hreset
  cases hrun : Config.reached rx disk flash vs prints with
  | live s =>
      rw [hrun] at hsound
      exact ⟨hsound.trace, hsound.words⟩
  | dead e s =>
      rw [hrun] at hsound
      exact ⟨hsound.2.trace, hsound.2.words⟩

/-- A chip that refuses addresses it does not have meets the assumption. -/
theorem outsideFails_inChip : OutsideFails .inChip := by
  intro n addr data hout
  rw [Verdicts.inChip]
  simp [UInt32.not_lt.mpr hout]

/-- A session that boots from a record for the first application page meets the
condition. -/
theorem bootloader_selfProtection_appRecord :
    (∀ e ∈ (bootedFrom appRecord).machine.trace, e.sparesBootloader = true) ∧
      ∀ w, w < 0x4000 → (bootedFrom appRecord).machine.flash w = Flash.blank w := by
  have hguard : Runs.Guarded Config.step (Config.Meets (bootloaderEnd < ·))
      (.live (.reset bootSession (.formatted (some appRecord)) .blank))
      [.inChip, .inChip, .inChip] := by
    generalize hc : Config.live (.reset bootSession (.formatted (some appRecord)) .blank) = c
    refine .cons (Config.meets_of_machine ?_ ?_) <| .cons (Config.meets_of_machine ?_ ?_) <|
      .cons (Config.meets_of_machine ?_ ?_) .nil
    all_goals subst hc; decide +kernel
  have hout : ∀ v ∈ [Verdicts.inChip, .inChip, .inChip], OutsideFails v := by
    simp [outsideFails_inChip]
  rw [bootedFrom]
  exact bootloader_selfProtection bootSession (.formatted (some appRecord)) .blank
    [.inChip, .inChip, .inChip] _ hout hguard

/-- A one-byte `/boot` is a record for address 0: booting from it programs the bootloader,
although `FMC_Write` fails outside the chip. -/
theorem zeroRecord_programs :
    OutsideFails .inChip ∧
      (∃ e ∈ (bootedFrom zeroRecord).machine.trace, e.sparesBootloader = false) ∧
      (bootedFrom zeroRecord).machine.flash 0 ≠ Flash.blank 0 := by
  have hany : (bootedFrom zeroRecord).machine.trace.any (!·.sparesBootloader) = true := by
    decide +kernel
  refine ⟨outsideFails_inChip, ?_, by decide +kernel⟩
  simpa using List.any_eq_true.mp hany

end Num487Boot
