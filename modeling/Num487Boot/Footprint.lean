import Num487Boot.Lib.EventLog
import Num487Boot.Reply

/-!
# What the Functions Touch

The effect of the primitive calls in closed form, and the footprints of everything built
from them.

* `FmcStep`: the flash driver touches the flash, the FMC registers and the log only, and
  logs ISP commands with the verdicts of its stream.
* `Quiet`: the working part of a handler neither receives nor transmits, and leaves the
  current packet and the phase alone.
* `Receives`: `get_packet` touches the receive line, the packet and the buffer only.

## Main results

* `writeWords_succ`, `eraseBlocks_succ`, `readWords_succ`: one round of the loops of `flash.c`.
* `writeWords_spec`, `eraseBlocks_spec`, `readWords_spec`: what these loops return, log and
  leave in the flash.
* `bootFromFs_quiet`: `boot_from_fs` sends nothing.
* `getPacket_moves`, `receives_getPacket`: the footprint of `get_packet`.
-/

namespace Num487Boot

open Exec Memory

/-! ### Calls and their success -/

/-- The events that are calls into the hardware or LittleFS. -/
def Event.isCall : Event → Bool
  | .isp _ _ | .lfs _ _ _ _ => true
  | .accept _ _ | .tx _ => false

/-- The return value of a LittleFS call that did what it was called for: a count for a read
or a write, a size, and 0 for the rest, where removing an absent file is fine. -/
def LfsCall.succeeds (ret : ℤ) : LfsCall → Bool
  | .fileWrite size | .fileRead size => ret = size
  | .fileSize => 0 ≤ ret
  | .remove => ret = 0 ∨ ret = lfsErrNoent
  | .mount | .format | .unmount | .fileOpen _ | .fileClose | .fileRewind => ret = 0

/-- The call of an event succeeded, judged by what it returned. `FMC_Read` reports a
time-out only. -/
def Event.succeeded : Event → Bool
  | .isp (.read _) v => v ∈ [.done, .fault]
  | .isp _ v => v = .done
  | .lfs c _ ret _ => ret.any c.succeeds
  | .accept _ _ | .tx _ => true

/-- A program command succeeds when it is done. -/
@[simp] theorem Event.succeeded_program (addr data : UInt32) (v : IspVerdict) :
    (Event.isp (.program addr data) v).succeeded = true ↔ v = .done := by
  simp [Event.succeeded]

/-- An erase succeeds exactly when it is done. -/
@[simp] theorem Event.succeeded_blockErase (addr : UInt32) (v : IspVerdict) :
    (Event.isp (.blockErase addr) v).succeeded = true ↔ v = .done := by
  simp [Event.succeeded]

/-- A read that is refused passes for a success, too. -/
@[simp] theorem Event.succeeded_read (addr : UInt32) (v : IspVerdict) :
    (Event.isp (.read addr) v).succeeded = true ↔ v ∈ [.done, .fault] := by
  simp [Event.succeeded]

/-- Calls send nothing. -/
theorem txBytes_of_isCall {es : List Event} (h : ∀ e ∈ es, e.isCall = true) :
    txBytes es = [] := by
  rw [txBytes, List.filterMap_eq_nil_iff]
  intro e he
  cases e with
  | tx b => exact absurd (h _ he) (by simp [Event.isCall])
  | accept _ _ => rfl
  | isp _ _ => rfl
  | lfs _ _ _ _ => rfl

/-! ### The FMC calls -/

/-- What `FMC_Write` and `FMC_Erase_Block` return for a verdict. -/
def IspVerdict.code : IspVerdict → Int32
  | .done => 0
  | .fault | .timeout _ => -1

/-- The return value of `FMC_Write` and `FMC_Erase_Block` tells whether the command was done. -/
@[simp] theorem IspVerdict.code_eq_zero (v : IspVerdict) : v.code = 0 ↔ v = .done := by
  cases v <;> simp [code]

/-- The machine after an ISP command. -/
def Machine.afterIsp (s : Machine) (c : IspCommand) : Machine :=
  { s with
    flash := if (s.verdicts.isp 0 c).applies then c.apply s.flash else s.flash
    verdicts := { s.verdicts with isp := fun n => s.verdicts.isp (n + 1) }
    trace := s.trace ++ [.isp c (s.verdicts.isp 0 c)] }

/-- One ISP command. -/
theorem ispGo_apply (c : IspCommand) (s : Machine) :
    ispGo c s = .ok (s.verdicts.isp 0 c) (s.afterIsp c) := rfl

/-- The machine after `FMC_Write`. -/
def Machine.afterFmcWrite (s : Machine) (addr data : UInt32) : Machine :=
  { s.afterIsp (.program addr data) with
    ispDat := data
    fmcErrCode := (s.verdicts.isp 0 (.program addr data)).code }

/-- `FMC_Write` is one program command. -/
theorem fmcWrite_apply (addr data : UInt32) (s : Machine) :
    fmcWrite addr data s = .ok (s.verdicts.isp 0 (.program addr data)).code
      (s.afterFmcWrite addr data) := by
  rw [fmcWrite, bind_of_ok (modify_apply _ s), bind_of_ok (ispGo_apply _ _),
    Machine.afterFmcWrite]
  cases hv : s.verdicts.isp 0 (.program addr data) <;>
    simp [Machine.afterIsp, hv, IspVerdict.code, bind_apply]

/-- The machine after `FMC_Erase_Block`. -/
def Machine.afterFmcErase (s : Machine) (addr : UInt32) : Machine :=
  { s.afterIsp (.blockErase addr) with
    fmcErrCode := (s.verdicts.isp 0 (.blockErase addr)).code }

/-- `FMC_Erase_Block` is one erase command. -/
theorem fmcEraseBlock_apply (addr : UInt32) (s : Machine) :
    fmcEraseBlock addr s = .ok (s.verdicts.isp 0 (.blockErase addr)).code
      (s.afterFmcErase addr) := by
  rw [fmcEraseBlock, bind_of_ok (modify_apply _ s), bind_of_ok (ispGo_apply _ _),
    Machine.afterFmcErase]
  cases hv : s.verdicts.isp 0 (.blockErase addr) <;>
    simp [Machine.afterIsp, hv, IspVerdict.code, bind_apply]

/-- What `FMC_Read` returns, given the addressed word. -/
def IspVerdict.readValue (word : UInt32) : IspVerdict → UInt32
  | .done => word
  | .fault | .timeout _ => 0xFFFFFFFF

/-- What `FMC_Read` leaves in the data register, given what it held. -/
def IspVerdict.readLatch (word latch : UInt32) : IspVerdict → UInt32
  | .done => word
  | .fault => 0xFFFFFFFF
  | .timeout _ => latch

/-- What `FMC_Read` leaves in the error code. -/
def IspVerdict.readCode : IspVerdict → Int32
  | .done | .fault => 0
  | .timeout _ => -1

/-- `g_FMC_i32ErrCode` does not tell a read that is refused from one that is done. -/
theorem IspVerdict.readCode_eq_zero (v : IspVerdict) :
    v.readCode = 0 ↔ v ∈ [.done, .fault] := by
  cases v <;> simp [readCode]

/-- The machine after `FMC_Read`. -/
def Machine.afterFmcRead (s : Machine) (addr : UInt32) : Machine :=
  { s.afterIsp (.read addr) with
    ispDat := (s.verdicts.isp 0 (.read addr)).readLatch (s.flash (addr.toNat / 4)) s.ispDat
    fmcErrCode := (s.verdicts.isp 0 (.read addr)).readCode }

/-- `FMC_Read` is one read command. -/
theorem fmcRead_apply (addr : UInt32) (s : Machine) :
    fmcRead addr s = .ok
      ((s.verdicts.isp 0 (.read addr)).readValue (s.flash (addr.toNat / 4)))
      (s.afterFmcRead addr) := by
  rw [fmcRead, bind_of_ok (modify_apply _ s), bind_of_ok (ispGo_apply _ _), Machine.afterFmcRead]
  cases hv : s.verdicts.isp 0 (.read addr) with
  | done =>
      simp [Machine.afterIsp, hv, bind_apply, IspVerdict.applies, IspCommand.apply,
        IspVerdict.readValue, IspVerdict.readLatch, IspVerdict.readCode]
      rfl
  | fault =>
      simp [Machine.afterIsp, hv, bind_apply, IspVerdict.applies, IspVerdict.readValue,
        IspVerdict.readLatch, IspVerdict.readCode]
      rfl
  | timeout applied =>
      simp [Machine.afterIsp, hv, bind_apply, IspCommand.apply, IspVerdict.readValue,
        IspVerdict.readLatch, IspVerdict.readCode]

/-! ### The footprint of the flash driver -/

/-- From `s` to `t` only the flash, the FMC registers and the log moved, and the log grew
by ISP commands answered from the stream of verdicts. -/
structure FmcStep (s t : Machine) : Prop where
  rx : t.rx = s.rx
  blBuffer : t.blBuffer = s.blBuffer
  pac : t.pac = s.pac
  phase : t.phase = s.phase
  lfs : t.lfs = s.lfs
  bootLEDOn : t.bootLEDOn = s.bootLEDOn
  window : t.window = s.window
  lfsVerdicts : t.verdicts.lfs = s.verdicts.lfs
  ispVerdicts : ∃ k, ∀ n, t.verdicts.isp n = s.verdicts.isp (n + k)
  trace : ∃ es, t.trace = s.trace ++ es ∧ ∀ e ∈ es, ∃ n c, e = .isp c (s.verdicts.isp n c)

instance : Std.Refl FmcStep where
  refl _ := ⟨rfl, rfl, rfl, rfl, rfl, rfl, rfl, rfl, ⟨0, fun _ => rfl⟩, ⟨[], by simp, by simp⟩⟩

/-- Two runs of the driver in a row. -/
theorem FmcStep.trans {s t u : Machine} (h₁ : FmcStep s t) (h₂ : FmcStep t u) :
    FmcStep s u := by
  obtain ⟨k₁, hk₁⟩ := h₁.ispVerdicts
  obtain ⟨k₂, hk₂⟩ := h₂.ispVerdicts
  obtain ⟨es₁, ht₁, he₁⟩ := h₁.trace
  obtain ⟨es₂, ht₂, he₂⟩ := h₂.trace
  refine ⟨h₂.rx.trans h₁.rx, h₂.blBuffer.trans h₁.blBuffer, h₂.pac.trans h₁.pac,
    h₂.phase.trans h₁.phase, h₂.lfs.trans h₁.lfs, h₂.bootLEDOn.trans h₁.bootLEDOn,
    h₂.window.trans h₁.window, h₂.lfsVerdicts.trans h₁.lfsVerdicts,
    ⟨k₂ + k₁, fun n => by rw [hk₂, hk₁, Nat.add_assoc]⟩,
    ⟨es₁ ++ es₂, by rw [ht₂, ht₁, List.append_assoc], ?_⟩⟩
  intro e he
  rcases List.mem_append.mp he with he | he
  · exact he₁ e he
  · obtain ⟨n, c, rfl⟩ := he₂ e he
    exact ⟨n + k₁, c, by rw [hk₁]⟩

instance : IsTrans Machine FmcStep where
  trans _ _ _ := FmcStep.trans

/-- A read leaves the flash. -/
@[simp] theorem Machine.flash_afterFmcRead (s : Machine) (addr : UInt32) :
    (s.afterFmcRead addr).flash = s.flash := by
  simp [afterFmcRead, afterIsp, IspCommand.apply]

/-- What a read leaves in `g_FMC_i32ErrCode`. -/
theorem Machine.fmcErrCode_afterFmcRead (s : Machine) (addr : UInt32) :
    (s.afterFmcRead addr).fmcErrCode = 0 ↔ s.verdicts.isp 0 (.read addr) ∈ [.done, .fault] :=
  IspVerdict.readCode_eq_zero _

/-- A command is a step of the driver, with whatever it leaves in its registers. -/
theorem fmcStep_afterIsp (s : Machine) (c : IspCommand) (dat : UInt32) (err : Int32) :
    FmcStep s { s.afterIsp c with ispDat := dat, fmcErrCode := err } :=
  ⟨rfl, rfl, rfl, rfl, rfl, rfl, rfl, rfl, ⟨1, fun _ => rfl⟩,
    ⟨[.isp c (s.verdicts.isp 0 c)], rfl, fun _ he => ⟨0, c, List.mem_singleton.mp he⟩⟩⟩

/-! ### The loops of flash.c -/

/-- The flash after programming `n` consecutive words from `addr` on, taken from a buffer
from index `i` on. -/
def Flash.burn (flash : Flash) (buf : ℕ → UInt8) : ℕ → UInt32 → ℕ → Flash
  | 0, _, _ => flash
  | n + 1, addr, i =>
      Flash.burn ((IspCommand.program addr (leWord buf i)).apply flash) buf n (addr + 4) (i + 4)

/-- The number of the `k`-th word from the address `addr` on. -/
def wordAt (addr : UInt32) (k : ℕ) : ℕ := (addr.toNat + 4 * k) % 4294967296 / 4

/-- The word an address lies in. -/
@[simp] theorem wordAt_zero (addr : UInt32) : wordAt addr 0 = addr.toNat / 4 := by
  have := addr.toNat_lt
  rw [wordAt]
  omega

/-- The next address lies in the next word. -/
theorem wordAt_succ (addr : UInt32) (k : ℕ) : wordAt (addr + 4) k = wordAt addr (k + 1) := by
  simp only [wordAt, UInt32.toNat_add, UInt32.toNat_ofNat, Nat.reducePow, Nat.reduceMod]
  omega

/-- A page has different words, as it is shorter than the address space. -/
theorem wordAt_ne {addr : UInt32} {j k : ℕ} (hjk : j < k) (hk : k < 1073741824) :
    wordAt addr j ≠ wordAt addr k := by
  have := addr.toNat_lt
  simp only [wordAt]
  omega

/-- Words that no step of the loop addresses stay. -/
theorem Flash.burn_of_ne {buf : ℕ → UInt8} {n : ℕ} {addr : UInt32} {i w : ℕ} (flash : Flash)
    (h : ∀ k < n, w ≠ wordAt addr k) : flash.burn buf n addr i w = flash w := by
  induction n generalizing addr i flash with
  | zero => rfl
  | succ n ih =>
      have h₀ : w ≠ addr.toNat / 4 := by simpa using h 0 (by omega)
      rw [burn, ih _ fun k hk => by rw [wordAt_succ]; exact h (k + 1) (by omega)]
      exact Function.update_of_ne h₀ _ _

/-- Programming ands the `k`-th word of the buffer into the `k`-th word from `addr` on. -/
theorem Flash.burn_wordAt {buf : ℕ → UInt8} {n : ℕ} {addr : UInt32} {i k : ℕ} (flash : Flash)
    (hk : k < n) (hn : n ≤ 1073741824) :
    flash.burn buf n addr i (wordAt addr k) =
      flash (wordAt addr k) &&& leWord buf (i + 4 * k) := by
  induction n generalizing addr i k flash with
  | zero => omega
  | succ n ih =>
      rw [burn]
      cases k with
      | zero =>
          rw [burn_of_ne _ fun j hj => by
            rw [wordAt_succ]
            exact wordAt_ne (by omega) (by omega)]
          simp [IspCommand.apply]
      | succ k =>
          have hne : wordAt addr (k + 1) ≠ addr.toNat / 4 := by
            rw [← wordAt_zero]
            exact (wordAt_ne (by omega) (by omega)).symm
          have hindex : i + 4 + 4 * k = i + 4 * (k + 1) := by omega
          rw [← wordAt_succ, ih _ (by omega) (by omega), IspCommand.apply, wordAt_succ,
            Function.update_of_ne hne, hindex]

/-- One round of the loop of `flash_write_app_page`: the loop goes on if the word was
programmed. -/
theorem writeWords_succ (buf : ℕ → UInt8) (n : ℕ) (addr : UInt32) (i : ℕ) (s : Machine) :
    writeWords buf (n + 1) addr i s =
      (if s.verdicts.isp 0 (.program addr (leWord buf i)) = .done then
        writeWords buf n (addr + 4) (i + 4) else pure failed : Prog UInt8)
        (s.afterFmcWrite addr (leWord buf i)) := by
  have hcode := (s.verdicts.isp 0 (.program addr (leWord buf i))).code_eq_zero
  rw [writeWords, bind_of_ok (fmcWrite_apply addr (leWord buf i) s)]
  by_cases hv : s.verdicts.isp 0 (.program addr (leWord buf i)) = .done
  · rw [if_pos hv, if_neg (not_not.mpr (hcode.mpr hv))]
  · rw [if_neg hv, if_pos (mt hcode.mp hv)]

/-- `flash_write_app_page` on `n` words always returns; it reports success exactly when
every word was programmed. -/
theorem writeWords_spec (buf : ℕ → UInt8) (n : ℕ) (addr : UInt32) (i : ℕ) (s : Machine) :
    ∃ r t es, writeWords buf n addr i s = .ok r t ∧ FmcStep s t ∧ t.trace = s.trace ++ es ∧
      (r = successed ↔ ∀ e ∈ es, e.succeeded = true) ∧ (n ≠ 0 → es ≠ []) ∧
      (r = successed → t.flash = s.flash.burn buf n addr i) := by
  induction n generalizing addr i s with
  | zero => exact ⟨successed, s, [], rfl, Std.Refl.refl s, by simp, by simp, by simp, fun _ => rfl⟩
  | succ n ih =>
      let c : IspCommand := .program addr (leWord buf i)
      let s₁ := s.afterFmcWrite addr (leWord buf i)
      have hstep : FmcStep s s₁ := fmcStep_afterIsp s c _ _
      rw [writeWords_succ]
      by_cases hv : s.verdicts.isp 0 c = .done
      · rw [if_pos hv]
        obtain ⟨r, t, es, hrun, hfmc, htrace, hr, -, hflash⟩ := ih (addr + 4) (i + 4) s₁
        refine ⟨r, t, .isp c (s.verdicts.isp 0 c) :: es, hrun, hstep.trans hfmc, ?_, ?_, ?_, ?_⟩
        · rw [htrace]
          exact List.append_assoc s.trace [_] es
        · rw [hr, List.forall_mem_cons, Event.succeeded_program, and_iff_right hv]
        · exact fun _ => List.cons_ne_nil _ es
        · intro hs
          have happlies : (s.verdicts.isp 0 c).applies = true := by
            rw [hv]
            rfl
          rw [hflash hs, Flash.burn]
          exact congrArg (Flash.burn · buf n (addr + 4) (i + 4)) (if_pos happlies)
      · rw [if_neg hv]
        refine ⟨failed, s₁, [.isp c (s.verdicts.isp 0 c)], rfl, hstep, rfl, ?_, nofun, ?_⟩
        · rw [List.forall_mem_singleton, Event.succeeded_program]
          exact iff_of_false failed_ne_successed hv
        · exact fun h => absurd h failed_ne_successed

/-- The results that the erase loop collects are zero when each of them is. -/
theorem or_code_eq_zero (res : UInt8) (v : IspVerdict) :
    res ||| v.code.toUInt32.toUInt8 = 0 ↔ res = 0 ∧ v = .done := by
  have hcode : v.code.toUInt32.toUInt8 = 0 ↔ v = .done := by
    cases v <;> simp [IspVerdict.code] <;> decide
  rw [UInt8.or_eq_zero_iff, hcode]

/-- The erase of block `b` of 16 KiB. -/
def blockCommand (b : ℕ) : IspCommand := .blockErase (.ofNat (16384 * b))

/-- The start of a block does not wrap around. -/
theorem toNat_blockStart {b : ℕ} (hb : b ≤ 32) :
    (UInt32.ofNat (16384 * b)).toNat = 16384 * b := by
  rw [UInt32.toNat_ofNat']
  omega

/-- A block of the application section: the loop erases it and goes on, whatever becomes of the
erase. -/
theorem eraseBlocks_succ (n : ℕ) {b : ℕ} (hb : b < 32) (res : UInt8) (s : Machine) :
    eraseBlocks (n + 1) (.ofNat (16384 * b)) res s =
      eraseBlocks n (.ofNat (16384 * (b + 1)))
        (res ||| (s.verdicts.isp 0 (blockCommand b)).code.toUInt32.toUInt8)
        (s.afterFmcErase (.ofNat (16384 * b))) := by
  have hin : UInt32.ofNat (16384 * b) < userAppEnd := by
    rw [UInt32.lt_iff_toNat_lt, toNat_blockStart (by omega), toNat_userAppEnd]
    omega
  have hnext : UInt32.ofNat (16384 * b) + (fmcFlashPageSize <<< 2) =
      UInt32.ofNat (16384 * (b + 1)) := by
    rw [Nat.mul_succ, UInt32.ofNat_add]
    rfl
  rw [eraseBlocks, if_pos hin, bind_of_ok (fmcEraseBlock_apply _ s), hnext]
  rfl

/-- Behind the last block of the section the loop ends. -/
theorem eraseBlocks_end (n : ℕ) (res : UInt8) (s : Machine) :
    eraseBlocks (n + 1) (.ofNat (16384 * 32)) res s = .ok res s := by
  have hout : ¬ UInt32.ofNat (16384 * 32) < userAppEnd := by decide
  rw [eraseBlocks, if_neg hout]
  rfl

/-- How the erase of the `k`-th block from block `b` on will end. -/
def Machine.eraseVerdict (s : Machine) (b k : ℕ) : IspVerdict :=
  s.verdicts.isp k (blockCommand (b + k))

/-- The verdicts on the blocks that are left. -/
theorem Machine.eraseVerdict_afterFmcErase (s : Machine) (addr : UInt32) (b k : ℕ) :
    (s.afterFmcErase addr).eraseVerdict (b + 1) k = s.eraseVerdict b (k + 1) := by
  rw [eraseVerdict, eraseVerdict, Nat.add_right_comm, Nat.add_assoc]
  rfl

/-- One erase sets the words of its block, if it takes effect. -/
theorem Machine.flash_afterFmcErase (s : Machine) {b : ℕ} (hb : b ≤ 32) (w : ℕ) :
    (s.afterFmcErase (.ofNat (16384 * b))).flash w =
      if w / 4096 = b ∧ (s.eraseVerdict b 0).applies then 0xFFFFFFFF else s.flash w := by
  have hblock : (UInt32.ofNat (16384 * b)).toNat / 16384 = b := by
    rw [toNat_blockStart hb]
    omega
  have hverdict : s.verdicts.isp 0 (blockCommand b) = s.eraseVerdict b 0 := rfl
  simp only [afterFmcErase, afterIsp, ← blockCommand.eq_def, hverdict]
  by_cases happlies : (s.eraseVerdict b 0).applies
  · simp only [happlies, if_true, and_true, blockCommand, IspCommand.apply, hblock]
  · simp only [happlies, if_false, and_false, Bool.false_eq_true]

/-- The erase loop from block `b` on always ends, with every block up to the end of the section
requested, in order. It reports success exactly when every erase was done, and the blocks whose
erase was carried out are erased. -/
theorem eraseBlocks_spec (n b : ℕ) (res : UInt8) (s : Machine) (hb : b + n = 32) :
    ∃ r t, eraseBlocks (n + 1) (.ofNat (16384 * b)) res s = .ok r t ∧ FmcStep s t ∧
      t.trace = s.trace ++
        (List.range n).map (fun k => .isp (blockCommand (b + k)) (s.eraseVerdict b k)) ∧
      (r = successed ↔ res = 0 ∧ ∀ k < n, s.eraseVerdict b k = .done) ∧
      ∀ w, t.flash w =
        if ∃ k < n, w / 4096 = b + k ∧ (s.eraseVerdict b k).applies then 0xFFFFFFFF
        else s.flash w := by
  induction n generalizing b res s with
  | zero =>
      obtain rfl : b = 32 := hb
      refine ⟨res, s, eraseBlocks_end 0 res s, Std.Refl.refl s, (List.append_nil _).symm, ?_, ?_⟩
      · exact (and_iff_left fun k hk => absurd hk (Nat.not_lt_zero k)).symm
      · exact fun w => (if_neg fun ⟨k, hk, _⟩ => Nat.not_lt_zero k hk).symm
  | succ n ih =>
      let s₁ := s.afterFmcErase (.ofNat (16384 * b))
      have hstep : FmcStep s s₁ := fmcStep_afterIsp s _ s.ispDat _
      have hshift : ∀ k, b + 1 + k = b + (k + 1) := fun k => by omega
      obtain ⟨r, t, hrun, hfmc, htrace, hr, hflash⟩ :=
        ih (b + 1) (res ||| (s.eraseVerdict b 0).code.toUInt32.toUInt8) s₁ (by omega)
      simp only [s₁, s.eraseVerdict_afterFmcErase, hshift] at htrace hr hflash
      refine ⟨r, t, ?_, hstep.trans hfmc, ?_, ?_, fun w => ?_⟩
      · rw [eraseBlocks_succ (n + 1) (by omega)]
        exact hrun
      · rw [htrace, List.range_succ_eq_map, List.map_cons, List.map_map]
        exact List.append_assoc s.trace [_] _
      · rw [hr, or_code_eq_zero, and_assoc, Nat.forall_lt_succ_left]
      · rw [hflash, s.flash_afterFmcErase (by omega)]
        simp only [Nat.exists_lt_succ_left, Nat.add_zero]
        by_cases hlater : ∃ k < n, w / 4096 = b + (k + 1) ∧ (s.eraseVerdict b (k + 1)).applies
        · rw [if_pos hlater, if_pos (.inr hlater)]
        · simp only [hlater, if_false, or_false]

/-- The flash with its 16 KiB blocks from number `b` to the end of the application section
erased. -/
def Flash.erasedFrom (flash : Flash) (b : ℕ) : Flash := fun w =>
  if b ≤ w / 4096 ∧ w / 4096 < 32 then 0xFFFFFFFF else flash w

/-- `flash_erase_app_all` reports success when all its commands succeed, and has then erased the
application section. -/
theorem flashEraseAppAll_spec (s : Machine) :
    ∃ r t es, flashEraseAppAll s = .ok r t ∧ FmcStep s t ∧ t.trace = s.trace ++ es ∧
      (r = successed ↔ ∀ e ∈ es, e.succeeded = true) ∧ es ≠ [] ∧
      (r = successed → t.flash = s.flash.erasedFrom 4) := by
  obtain ⟨r, t, hrun, hfmc, htrace, hr, hflash⟩ := eraseBlocks_spec 28 4 0 s rfl
  rw [and_iff_right rfl] at hr
  refine ⟨r, t, _, hrun, hfmc, htrace, ?_, by simp, fun hs => ?_⟩
  · rw [hr]
    simp [blockCommand]
  · have hdone := hr.mp hs
    funext w
    rw [hflash, Flash.erasedFrom]
    refine if_congr ⟨?_, fun hin => ?_⟩ rfl rfl
    · rintro ⟨k, hk, hw, -⟩
      omega
    · refine ⟨w / 4096 - 4, by omega, by omega, ?_⟩
      rw [hdone _ (by omega)]
      rfl

/-- A footprint of the flash driver does not depend on the buffer. -/
theorem FmcStep.withBuffer {s t : Machine} {buf : ℕ → UInt8}
    (h : FmcStep { s with blBuffer := buf } t) :
    FmcStep s { t with blBuffer := s.blBuffer } := by
  obtain ⟨h₁, -, h₃, h₄, h₅, h₆, h₇, h₈, h₉, h₁₀⟩ := h
  exact ⟨h₁, rfl, h₃, h₄, h₅, h₆, h₇, h₈, h₉, h₁₀⟩

/-- The bytes of a word in the order `flash_read_app_page` stores them. -/
def wordBytes (w : UInt32) : List UInt8 :=
  [w.toUInt8, (w >>> 8).toUInt8, (w >>> 16).toUInt8, (w >>> 24).toUInt8]

/-- A word has four bytes. -/
@[simp] theorem length_wordBytes (w : UInt32) : (wordBytes w).length = 4 := rfl

/-- The bytes of `n` consecutive words from `addr` on. -/
def Flash.readOut (flash : Flash) : ℕ → UInt32 → List UInt8
  | 0, _ => []
  | n + 1, addr => wordBytes (flash (addr.toNat / 4)) ++ flash.readOut n (addr + 4)

/-- Reading `n` words delivers their bytes. -/
@[simp] theorem Flash.length_readOut (flash : Flash) (n : ℕ) (addr : UInt32) :
    (flash.readOut n addr).length = 4 * n := by
  induction n generalizing addr with
  | zero => rfl
  | succ n ih =>
      rw [readOut, List.length_append, length_wordBytes, ih]
      omega

/-- One round of the loop of `flash_read_app_page`: the four bytes of the word are stored,
and the loop goes on unless the read timed out. -/
theorem readWords_succ {base n i : ℕ} (addr : UInt32) (s : Machine)
    (hfits : base + i + 4 ≤ bufferSize) :
    readWords base (n + 1) addr i s =
      (if s.verdicts.isp 0 (.read addr) ∈ [.done, .fault] then
        readWords base n (addr + 4) (i + 4) else pure failed : Prog UInt8)
      { s.afterFmcRead addr with blBuffer := overlay s.blBuffer (base + i) (wordBytes
          ((s.verdicts.isp 0 (.read addr)).readValue (s.flash (addr.toNat / 4)))) } := by
  have hcode := s.fmcErrCode_afterFmcRead addr
  rw [readWords, bind_of_ok (fmcRead_apply addr s), bind_of_ok (storeBuffer_of_lt (by omega) _ _),
    bind_of_ok (storeBuffer_of_lt (by omega) _ _), bind_of_ok (storeBuffer_of_lt (by omega) _ _),
    bind_of_ok (storeBuffer_of_lt (by omega) _ _), bind_of_ok (get_apply _)]
  simp only [wordBytes, ← overlay_update, overlay_nil]
  by_cases hv : s.verdicts.isp 0 (.read addr) ∈ [.done, .fault]
  · rw [if_pos hv, if_neg (not_not.mpr (hcode.mpr hv))]
    rfl
  · rw [if_neg hv, if_pos (mt hcode.mp hv)]
    rfl

/-- `flash_read_app_page` on `n` words always returns when they fit the buffer; it stores
consecutive bytes, reports success exactly when no read timed out, and stores what the
flash holds when every read was done. -/
theorem readWords_spec (base n : ℕ) (addr : UInt32) (i : ℕ) (s : Machine)
    (hfits : base + i + 4 * n ≤ bufferSize) :
    ∃ r t es bytes, readWords base n addr i s =
        .ok r { t with blBuffer := overlay s.blBuffer (base + i) bytes } ∧
      FmcStep s t ∧ t.trace = s.trace ++ es ∧
      (r = successed ↔ ∀ e ∈ es, e.succeeded = true) ∧ (n ≠ 0 → es ≠ []) ∧
      bytes.length ≤ 4 * n ∧ t.flash = s.flash ∧
      ((∀ e ∈ es, ∃ c, e = .isp c .done) → bytes = s.flash.readOut n addr) := by
  induction n generalizing addr i s with
  | zero =>
      exact ⟨successed, s, [], [], by simp [readWords], Std.Refl.refl s, by simp, by simp,
        by simp, by simp, rfl, fun _ => rfl⟩
  | succ n ih =>
      let v := s.verdicts.isp 0 (.read addr)
      let res := v.readValue (s.flash (addr.toNat / 4))
      let s₁ := s.afterFmcRead addr
      have hstep : FmcStep s s₁ := fmcStep_afterIsp s (.read addr) _ _
      have hflash₁ : s₁.flash = s.flash := s.flash_afterFmcRead addr
      have htrace₁ : s₁.trace = s.trace ++ [.isp (.read addr) v] := rfl
      rw [readWords_succ addr s (by omega)]
      by_cases hv : v ∈ [.done, .fault]
      · rw [if_pos hv]
        obtain ⟨r, t, es, bytes, hrun, hfmc, htrace, hr, -, hlen, hflash, hbytes⟩ :=
          ih (addr + 4) (i + 4)
            { s₁ with blBuffer := overlay s.blBuffer (base + i) (wordBytes res) } (by omega)
        refine ⟨r, { t with blBuffer := s₁.blBuffer }, .isp (.read addr) v :: es,
          wordBytes res ++ bytes, ?_, hstep.trans hfmc.withBuffer, ?_, ?_, nofun, ?_,
          hflash.trans hflash₁, fun hdone => ?_⟩
        · have hend : base + (i + 4) = base + i + (wordBytes res).length := rfl
          rw [hrun, hend, overlay_append]
        · rw [htrace, htrace₁, List.append_assoc]
          rfl
        · rw [hr, List.forall_mem_cons, Event.succeeded_read, and_iff_right hv]
        · rw [List.length_append, length_wordBytes]
          omega
        · rw [List.forall_mem_cons] at hdone
          obtain ⟨⟨c, hc⟩, hrest⟩ := hdone
          have hv : v = .done := (Event.isp.inj hc).2
          have hres : res = s.flash (addr.toNat / 4) := by simp only [res, hv, IspVerdict.readValue]
          rw [Flash.readOut, hbytes hrest, hres, hflash₁]
      · rw [if_neg hv]
        refine ⟨failed, s₁, [.isp (.read addr) v], wordBytes res, rfl, hstep, htrace₁, ?_, nofun,
          by rw [length_wordBytes]; omega, hflash₁, fun hdone => ?_⟩
        · rw [List.forall_mem_singleton, Event.succeeded_read]
          exact iff_of_false failed_ne_successed hv
        · obtain ⟨c, hc⟩ := hdone _ List.mem_cons_self
          exact absurd (by rw [(Event.isp.inj hc).2]; decide) hv

/-! ### LittleFS calls -/

/-- A LittleFS instance with its answers to the calls to come. -/
structure Volume where
  lfs : Lfs
  answers : ℕ → LfsCall → LfsVerdict

/-- The volume a machine works on. -/
def Machine.volume (s : Machine) : Volume := ⟨s.lfs, s.verdicts.lfs⟩

section Call

variable {ρ : Type} (c : LfsCall) (act : Lfs → LfsVerdict → ρ × Lfs)

/-- What a call on a volume returns. -/
def Volume.ret (v : Volume) : ρ := (act v.lfs (v.answers 0 c)).1

/-- The volume after a call. -/
def Volume.next (v : Volume) : Volume :=
  ⟨(act v.lfs (v.answers 0 c)).2, fun n => v.answers (n + 1)⟩

/-- The machine after a LittleFS call. -/
def Machine.afterCall (ret : ρ → ℤ) (s : Machine) : Machine :=
  { s with
    lfs := (s.volume.next c act).lfs
    verdicts := { s.verdicts with lfs := (s.volume.next c act).answers }
    prints := fun n => s.prints (n + 1)
    trace := s.trace ++ [.lfs c s.lfs (some (ret (s.volume.ret c act))) (s.prints 0 c)] }

variable {c} (ret : ρ → ℤ) {s : Machine}

/-- The volume goes on with the next answer. -/
@[simp] theorem Machine.volume_afterCall :
    (s.afterCall c act ret).volume = s.volume.next c act := rfl

/-- A call whose assertions hold returns what LittleFS answers. -/
theorem lfsInvoke_apply (h : c.asserts s.lfs = true) :
    lfsInvoke c act ret s = .ok (s.volume.ret c act) (s.afterCall c act ret) := by
  rw [lfsInvoke, bind_of_ok (get_apply s), if_pos h]
  rfl

/-- A call whose assertion fails halts. -/
theorem lfsInvoke_assert (h : c.asserts s.lfs = false) :
    lfsInvoke c act ret s =
      .error (.assertFailed c) (s.log (.lfs c s.lfs none (s.prints 0 c))) := by
  rw [lfsInvoke, bind_of_ok (get_apply s), if_neg (by simp [h])]
  rfl

end Call

/-- The machine after the mount sequence. -/
def Machine.afterMount (s : Machine) : Machine :=
  let t := s.afterCall .mount Lfs.mount id
  if s.volume.ret .mount Lfs.mount ≠ 0 then
    (t.afterCall .format Lfs.format id).afterCall .mount Lfs.mount id
  else t

/-- The mount sequence returns. -/
theorem mountOrFormat_apply (s : Machine) : mountOrFormat s = .ok () s.afterMount := by
  rw [mountOrFormat, lfsMount, bind_of_ok (lfsInvoke_apply Lfs.mount id rfl), Machine.afterMount]
  by_cases h : s.volume.ret .mount Lfs.mount ≠ 0
  · rw [if_pos h, if_pos h]
    rfl
  · rw [if_neg h, if_neg h]
    rfl

/-! ### Footprints for any relation -/

section Moving

variable {R : Machine → Machine → Prop}

/-- A status reply stays within a relation that allows replies. -/
theorem sendStatus_moves (hreply : ∀ s f, R s (Machine.replied s f)) (status : UInt8) :
    Moves R (sendStatus status) := by
  intro s
  rw [sendStatus_apply]
  exact hreply s _

/-- A relation that allows every reply allows a reply with a number. -/
theorem replyNumber_moves (hreply : ∀ s f, R s (Machine.replied s f)) (number : UInt8) :
    Moves R (replyNumber number) := by
  intro s
  rw [replyNumber_apply]
  exact hreply s _

variable [Std.Refl R]

/-- A store stays within a relation that allows any content of the buffer. -/
theorem storeBuffer_moves (hstore : ∀ (s : Machine) buf, R s { s with blBuffer := buf }) (i : ℕ)
    (b : UInt8) : Moves R (storeBuffer i b) :=
  .ite (fun _ => .modify fun s => hstore s _) (fun _ => .throw _)

variable [IsTrans Machine R]

/-- A relation that allows every store allows several. -/
theorem storeBytes_moves (hstore : ∀ (s : Machine) buf, R s { s with blBuffer := buf }) (i : ℕ)
    (bytes : List UInt8) : Moves R (storeBytes i bytes) := by
  induction bytes generalizing i with
  | nil => exact .pure ()
  | cons b bytes ih => exact .bind (storeBuffer_moves hstore i b) fun _ => ih (i + 1)

/-- The read loop moves the state by reads of the flash driver and stores to the buffer. -/
theorem readWords_moves (hstore : ∀ (s : Machine) buf, R s { s with blBuffer := buf })
    (hfmc : ∀ s t, FmcStep s t → R s t) (base n : ℕ) (addr : UInt32) (i : ℕ) :
    Moves R (readWords base n addr i) := by
  induction n generalizing addr i with
  | zero => exact .pure successed
  | succ n ih =>
      have hread : Moves R (fmcRead addr) := by
        intro s
        rw [fmcRead_apply]
        exact hfmc _ _ (fmcStep_afterIsp s _ _ _)
      have hbyte (j : ℕ) (b : UInt8) : Moves R (storeBuffer j b) := storeBuffer_moves hstore j b
      exact .bind hread fun _ => .bind (hbyte _ _) fun _ => .bind (hbyte _ _) fun _ =>
        .bind (hbyte _ _) fun _ => .bind (hbyte _ _) fun _ => .bind .get fun _ =>
          .ite (fun _ => .pure failed) (fun _ => ih _ _)

/-- A page read fills the buffer, reads and replies. -/
theorem handleFlashRead_moves (hstore : ∀ (s : Machine) buf, R s { s with blBuffer := buf })
    (hfmc : ∀ s t, FmcStep s t → R s t) (hreply : ∀ s f, R s (Machine.replied s f)) :
    Moves R handleFlashRead := by
  refine .bind .get fun _ => .bind (readWords_moves hstore hfmc _ _ _ _) fun _ =>
    .ite (fun _ => sendStatus_moves hreply nack) fun _ s => ?_
  rw [sendPage_apply]
  exact hreply s _

end Moving

/-! ### The footprint of the working part of a handler -/

/-- From `s` to `t` nothing was received or sent, the packet and the phase stayed, and the
log grew by calls. -/
structure Quiet (s t : Machine) : Prop where
  rx : t.rx = s.rx
  pac : t.pac = s.pac
  phase : t.phase = s.phase
  trace : ∃ es, t.trace = s.trace ++ es ∧ ∀ e ∈ es, e.isCall = true

instance : Std.Refl Quiet where
  refl _ := ⟨rfl, rfl, rfl, ⟨[], by simp, by simp⟩⟩

instance : IsTrans Machine Quiet where
  trans := by
    rintro s t u ⟨hrx₁, hpac₁, hphase₁, hlog₁⟩ ⟨hrx₂, hpac₂, hphase₂, hlog₂⟩
    exact ⟨hrx₂.trans hrx₁, hpac₂.trans hpac₁, hphase₂.trans hphase₁,
      EventLog.grown_trans hlog₁ hlog₂⟩

/-- A step of the flash driver sends and receives nothing. -/
theorem FmcStep.quiet {s t : Machine} (h : FmcStep s t) : Quiet s t := by
  obtain ⟨es, ht, he⟩ := h.trace
  refine ⟨h.rx, h.pac, h.phase, es, ht, fun e hmem => ?_⟩
  obtain ⟨n, c, rfl⟩ := he e hmem
  rfl

/-- A quiet change of the state that does not touch the log. -/
theorem Quiet.of_eq {s t : Machine} (hrx : t.rx = s.rx) (hpac : t.pac = s.pac)
    (hphase : t.phase = s.phase) (htrace : t.trace = s.trace) : Quiet s t :=
  ⟨hrx, hpac, hphase, [], by simp [htrace], by simp⟩

/-- A page write is a step of the driver. -/
theorem flashWriteAppPage_fmcStep (dest : UInt32) (buf : ℕ → UInt8) :
    Moves FmcStep (flashWriteAppPage dest buf) := by
  intro s
  obtain ⟨r, t, es, hrun, hfmc, -⟩ := writeWords_spec buf (blFlashPacsize / 4) dest 0 s
  rw [flashWriteAppPage, hrun]
  exact hfmc

/-- The erase of the application section is a step of the flash driver. -/
theorem flashEraseAppAll_fmcStep : Moves FmcStep flashEraseAppAll := by
  intro s
  obtain ⟨r, t, es, hrun, hfmc, -⟩ := flashEraseAppAll_spec s
  rw [hrun]
  exact hfmc

/-- Programming a record is a step of the flash driver. -/
theorem programRecord_fmcStep : Moves FmcStep programRecord :=
  .bind .get fun _ => flashWriteAppPage_fmcStep _ _

/-- A LittleFS call sends and receives nothing. -/
theorem lfsInvoke_quiet {ρ : Type} (c : LfsCall) (act : Lfs → LfsVerdict → ρ × Lfs)
    (ret : ρ → ℤ) : Moves Quiet (lfsInvoke c act ret) := by
  intro s
  cases h : c.asserts s.lfs with
  | true =>
      rw [lfsInvoke_apply act ret h]
      exact ⟨rfl, rfl, rfl, _, rfl, fun e he => by rw [List.mem_singleton.mp he]; rfl⟩
  | false =>
      rw [lfsInvoke_assert act ret h]
      exact ⟨rfl, rfl, rfl, _, rfl, fun e he => by rw [List.mem_singleton.mp he]; rfl⟩

/-- A store into the buffer sends and receives nothing. -/
theorem quiet_store (s : Machine) (buf : ℕ → UInt8) : Quiet s { s with blBuffer := buf } :=
  .of_eq rfl rfl rfl rfl

/-- Clearing the buffer sends and receives nothing. -/
theorem clearBuffer_quiet : Moves Quiet clearBuffer :=
  .modify fun s => quiet_store s _

/-- A read of the file sends and receives nothing. -/
theorem lfsFileRead_quiet (size : ℕ) : Moves Quiet (lfsFileRead size) :=
  .bind (lfsInvoke_quiet _ _ _) fun _ => .bind (storeBytes_moves quiet_store _ _) fun _ => .pure _

/-- Reading words of the flash sends and receives nothing. -/
theorem readWords_quiet (base n : ℕ) (addr : UInt32) (i : ℕ) :
    Moves Quiet (readWords base n addr i) :=
  readWords_moves quiet_store (fun _ _ => FmcStep.quiet) base n addr i

/-- The mount sequence sends and receives nothing. -/
theorem mountOrFormat_quiet : Moves Quiet mountOrFormat :=
  .bind (lfsInvoke_quiet _ _ _) fun _ => .ite
    (fun _ => .bind (lfsInvoke_quiet _ _ _) fun _ => .bind (lfsInvoke_quiet _ _ _) fun _ => .pure _)
    (fun _ => .pure _)

/-- A page write sends and receives nothing. -/
theorem flashWriteAppPage_quiet (dest : UInt32) (buf : ℕ → UInt8) :
    Moves Quiet (flashWriteAppPage dest buf) :=
  (flashWriteAppPage_fmcStep dest buf).mono fun _ _ => FmcStep.quiet

/-- The erase of the application section sends and receives nothing. -/
theorem flashEraseAppAll_quiet : Moves Quiet flashEraseAppAll :=
  flashEraseAppAll_fmcStep.mono fun _ _ => FmcStep.quiet

/-- Programming a record sends and receives nothing. -/
theorem programRecord_quiet : Moves Quiet programRecord :=
  programRecord_fmcStep.mono fun _ _ => FmcStep.quiet

/-- The part of `boot_from_fs` behind its loop sends and receives nothing. -/
theorem bootTail_quiet (fsize : ℤ) : Moves Quiet (bootTail fsize) := by
  have hfinish : Moves Quiet (do
      let _ ← lfsFileClose
      let _ ← lfsUnmount
      apromUpdateEnable
      bootLEDOff
      pure successed : Prog UInt8) :=
    .bind (lfsInvoke_quiet _ _ _) fun _ => .bind (lfsInvoke_quiet _ _ _) fun _ =>
      .bind (.modify fun _ => .of_eq rfl rfl rfl rfl) fun _ =>
        .bind (.modify fun _ => .of_eq rfl rfl rfl rfl) fun _ => .pure _
  exact .ite
    (fun _ => .bind clearBuffer_quiet fun _ => .bind (lfsFileRead_quiet _) fun _ =>
      .bind programRecord_quiet fun _ => .ite (fun _ => .pure _) (fun _ => hfinish))
    (fun _ => hfinish)

/-- The record loop sends and receives nothing. -/
theorem bootRecords_quiet (n : ℕ) (fsize : ℤ) : Moves Quiet (bootRecords n fsize) := by
  induction n generalizing fsize with
  | zero => exact bootTail_quiet fsize
  | succ n ih =>
      exact .ite
        (fun _ => .bind (lfsFileRead_quiet _) fun _ => .bind programRecord_quiet fun _ =>
          .ite (fun _ => .pure _) (fun _ => ih _))
        (fun _ => bootTail_quiet fsize)

/-- `boot_from_fs` neither receives nor transmits, and keeps the caller's packet. -/
theorem bootFromFs_quiet : Moves Quiet bootFromFs :=
  .bind (.modify fun _ => .of_eq rfl rfl rfl rfl) fun _ =>
    .bind (.modify fun _ => .of_eq rfl rfl rfl rfl) fun _ =>
      .bind flashEraseAppAll_quiet fun _ => .ite (fun _ => .pure _) fun _ =>
        .bind clearBuffer_quiet fun _ => .bind mountOrFormat_quiet fun _ =>
          .bind (lfsInvoke_quiet _ _ _) fun _ => .bind (lfsInvoke_quiet _ _ _) fun _ =>
            bootRecords_quiet _ _

/-! ### The footprint of get_packet -/

section GetPacket

variable {R : Machine → Machine → Prop} [Std.Refl R]

/-- Receiving a byte takes a poll off the line. -/
theorem comChannelGetc_moves (hpoll : ∀ (s : Machine) p r, s.rx = p :: r → R s (s.withRx r)) :
    Moves R comChannelGetc := by
  intro s
  cases h : s.rx with
  | nil => rw [comChannelGetc_nil h]; exact refl_of R s
  | cons p r => rw [comChannelGetc_cons h]; exact hpoll s p r h

variable [IsTrans Machine R]

/-- The data loop takes polls off the line and fills the buffer. -/
theorem recvData_moves (hget : Moves R comChannelGetc)
    (hstore : ∀ (s : Machine) buf, R s { s with blBuffer := buf }) (n i : ℕ) (c : UInt8) :
    Moves R (recvData n i c) := by
  induction n generalizing i c with
  | zero => exact .pure c
  | succ n ih =>
      exact .bind hget fun b => .bind (storeBuffer_moves hstore i b) fun _ => ih _ _

/-- `get_packet` polls the receive line and stores into the packet and its buffer. -/
theorem getPacket_moves (hpoll : ∀ (s : Machine) p r, s.rx = p :: r → R s (s.withRx r))
    (hpac : ∀ (s : Machine) pac, R s { s with pac := pac })
    (hstore : ∀ (s : Machine) buf, R s { s with blBuffer := buf }) : Moves R getPacket :=
  have hget : Moves R comChannelGetc := comChannelGetc_moves hpoll
  .bind hget fun _ => .ite (fun _ => .pure _) fun _ =>
    .bind hget fun _ => .ite (fun _ => .pure _) fun _ =>
      .bind hget fun _ => .ite (fun _ => .pure _) fun _ =>
        .bind hget fun _ => .bind hget fun _ => .bind hget fun _ =>
          .bind (.modify fun s => hpac s _) fun _ =>
            .bind (recvData_moves hget hstore _ _ _) fun _ => .bind hget fun _ =>
              .ite (fun _ => .pure _) (fun _ => .pure _)

end GetPacket

/-- From `s` to `t` only the receive line, the packet and the buffer moved. -/
def Receives (s t : Machine) : Prop :=
  t = { s with rx := t.rx, pac := t.pac, blBuffer := t.blBuffer }

instance : Std.Refl Receives where
  refl _ := rfl

instance : IsTrans Machine Receives where
  trans s t u h₁ h₂ := by
    rw [Receives, h₂, h₁]

/-- `get_packet` has no effect beyond the packet and its buffer. -/
theorem receives_getPacket : Moves Receives getPacket :=
  getPacket_moves (fun _ _ _ _ => rfl) (fun _ _ => rfl) fun _ _ => rfl

end Num487Boot
