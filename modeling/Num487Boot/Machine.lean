import Num487Boot.Device
import Num487Boot.LittleFs
import Num487Boot.Lib.Exec
import Num487Boot.Lib.Memory

/-!
# The Machine under the Bootloader

The state every function of the bootloader runs on: the receive line, the packet buffer
`bl_buffer` and the current packet, the internal flash with the FMC registers, the LittleFS
instance, the register locks and the boot LED. A program is a `Prog`, an `EStateM` over
that state which halts when the receive line runs dry (`Halt.starved`), when a store would
leave `bl_buffer` (`Halt.overrun`, where C has no defined continuation) or when an
`LFS_ASSERT` fails (`Halt.assertFailed`).

The surroundings enter through verdicts. `Verdicts.isp n c` is how the ISP hardware answers
the `n`-th command it is given, `Verdicts.lfs n c` how LittleFS fares in the `n`-th call; a
call takes the head of its stream and leaves the tail. Quantifying over the verdicts is
quantifying over every pattern of failures.

LittleFS reports errors and repairs with `printf`, and `_write` of retarget.c sends what it
prints out on UART0, the line of the protocol. `Machine.prints n c` is what it prints in the
`n`-th call from now on.

`trace` logs the externally visible effects in order: accepted frames, transmitted bytes,
ISP commands and LittleFS calls with the messages printed in them. No program reads it.
-/

namespace Num487Boot

open Memory

/-- One poll of the UART: a received byte, or a time-out of `UART_Read`, which leaves the
indeterminate `data` of `com_channel_getc` untouched. -/
inductive UartPoll
  | byte (b : UInt8)
  | timeout (residue : UInt8)
  deriving DecidableEq

/-- What `com_channel_getc` returns for a poll. -/
def UartPoll.value : UartPoll → UInt8
  | .byte b => b
  | .timeout residue => residue

/-- A command of the FMC's in-system-programming engine. -/
inductive IspCommand
  | program (addr data : UInt32)
  | read (addr : UInt32)
  | blockErase (addr : UInt32)
  deriving DecidableEq

/-- How the ISP hardware ends a command: done, with `ISPFF` raised and nothing changed, or
still busy when the driver's timeout expires, in which case the command may have been
carried out. -/
inductive IspVerdict
  | done
  | fault
  | timeout (applied : Bool)
  deriving DecidableEq

/-- Whether the command was carried out. -/
def IspVerdict.applies : IspVerdict → Bool
  | .done => true
  | .fault => false
  | .timeout applied => applied

/-- The internal flash, one 32-bit word for each word number `address / 4`. -/
abbrev Flash := ℕ → UInt32

/-- The effect of a carried-out command on the flash: programming clears bits of the
addressed word, a block erase sets the addressed 16 KiB block. -/
def IspCommand.apply (flash : Flash) : IspCommand → Flash
  | .program addr data =>
      Function.update flash (addr.toNat / 4) (flash (addr.toNat / 4) &&& data)
  | .read _ => flash
  | .blockErase addr => fun w => if w / 4096 = addr.toNat / 16384 then 0xFFFFFFFF else flash w

/-- `bl_packet_t`. Its `data` always points to `bl_buffer`. -/
structure BlPacket where
  cmd : UInt8
  length : UInt16
  deriving DecidableEq

/-- The register locks `APROM_update_enable` opens: the write protection of the system
registers, `ISPEN` and `APUEN`. -/
structure UpdateWindow where
  regUnlocked : Bool
  ispEnabled : Bool
  apromUpdate : Bool
  deriving DecidableEq

/-- Where control is: at the head of `main`'s loop, in the loop of
`establish_connection`, or in the loop of `bl_command_process`. -/
inductive Phase
  | loopHead | handshake | command
  deriving DecidableEq

/-- How the hardware and LittleFS answer the calls to come. -/
structure Verdicts where
  isp : ℕ → IspCommand → IspVerdict
  lfs : ℕ → LfsCall → LfsVerdict

/-- A flash nothing has been programmed into. -/
def Flash.blank : Flash := fun _ => 0xFFFFFFFF

/-- Programming a blank word leaves what was programmed. -/
theorem blank_and (w : ℕ) (x : UInt32) : Flash.blank w &&& x = x :=
  UInt32.neg_one_and

/-- Everything succeeds. -/
def Verdicts.allWell : Verdicts where
  isp _ _ := .done
  lfs _ _ := .asDocumented

/-- A character of LittleFS's messages. The format strings of lfs.c and what is inserted into
them, numbers and the names of its files, are ASCII. -/
abbrev MessageChar := { b : UInt8 // b < 0x80 }

/-- An externally visible effect. A LittleFS call is logged with the instance it met, what it
returned, if it did, and what it printed. -/
inductive Event
  | accept (phase : Phase) (cmd : UInt8)
  | tx (b : UInt8)
  | isp (c : IspCommand) (v : IspVerdict)
  | lfs (c : LfsCall) (pre : Lfs) (ret : Option ℤ) (printed : List MessageChar)

/-- Why a run cannot go on. -/
inductive Halt
  | starved
  | overrun (index : ℕ)
  | assertFailed (c : LfsCall)
  deriving DecidableEq

/-- The state of the bootloader with its surroundings. -/
structure Machine where
  rx : List UartPoll
  blBuffer : ℕ → UInt8
  pac : BlPacket
  phase : Phase
  flash : Flash
  ispDat : UInt32
  fmcErrCode : Int32
  lfs : Lfs
  bootLEDOn : Bool
  window : UpdateWindow
  verdicts : Verdicts
  prints : ℕ → LfsCall → List MessageChar
  trace : List Event

/-- A program on the machine. -/
abbrev Prog := EStateM Halt Machine

namespace Machine

/-- A machine out of reset, at the head of `main`'s loop: a zeroed buffer, nothing mounted
and the registers locked, over whatever the two flash memories hold and with whatever
LittleFS is going to print. -/
def reset (rx : List UartPoll) (disk : Disk) (flash : Flash)
    (prints : ℕ → LfsCall → List MessageChar := fun _ _ => []) : Machine where
  rx := rx
  blBuffer _ := 0
  pac := ⟨0, 0⟩
  phase := .loopHead
  flash := flash
  ispDat := 0
  fmcErrCode := 0
  lfs := ⟨disk, false, none⟩
  bootLEDOn := false
  window := ⟨false, false, false⟩
  verdicts := .allWell
  prints := prints
  trace := []

/-- A machine in the command loop, after a handshake. -/
def connected (rx : List UartPoll) (disk : Disk) (flash : Flash)
    (prints : ℕ → LfsCall → List MessageChar := fun _ _ => []) : Machine :=
  { reset rx disk flash prints with phase := .command }

/-- Append to the log. -/
def log (e : Event) (s : Machine) : Machine := { s with trace := s.trace ++ [e] }

/-- Give the machine new surroundings. -/
def load (v : Verdicts) (s : Machine) : Machine := { s with verdicts := v }

end Machine

/-! ### The packet buffer -/

/-- A store into `bl_buffer`. Index `BUFFERSIZE` and beyond is outside the array. -/
def storeBuffer (i : ℕ) (b : UInt8) : Prog Unit := do
  if i < bufferSize then modify fun s => { s with blBuffer := Function.update s.blBuffer i b }
  else throw (.overrun i)

/-- Consecutive stores, as a callee that fills the buffer makes them. -/
def storeBytes : ℕ → List UInt8 → Prog Unit
  | _, [] => pure ()
  | i, b :: bs => do
      storeBuffer i b
      storeBytes (i + 1) bs

/-- A buffer after `memset(bl_buffer, 0, BUFFERSIZE)`. -/
def zeroed (buf : ℕ → UInt8) : ℕ → UInt8 := fun i => if i < bufferSize then 0 else buf i

/-- `memset(bl_buffer, 0, BUFFERSIZE)` -/
def clearBuffer : Prog Unit := modify fun s => { s with blBuffer := zeroed s.blBuffer }

/-- `*(uint16_t *) (buf + i)` on the little-endian target. -/
def leHalf (buf : ℕ → UInt8) (i : ℕ) : UInt16 :=
  (buf i).toUInt16 ||| (buf (i + 1)).toUInt16 <<< 8

/-- `*(uint32_t *) (buf + i)` on the little-endian target. -/
def leWord (buf : ℕ → UInt8) (i : ℕ) : UInt32 :=
  (buf i).toUInt32 ||| (buf (i + 1)).toUInt32 <<< 8 ||| (buf (i + 2)).toUInt32 <<< 16
    ||| (buf (i + 3)).toUInt32 <<< 24

/-- A word is the sum of its bytes, the first one counting least. -/
theorem leWord_toNat (buf : ℕ → UInt8) (i : ℕ) :
    (leWord buf i).toNat = (buf i).toNat + 256 * (buf (i + 1)).toNat
      + 65536 * (buf (i + 2)).toNat + 16777216 * (buf (i + 3)).toNat := by
  have h₀ := (buf i).toNat_lt
  have h₁ := (buf (i + 1)).toNat_lt
  have h₂ := (buf (i + 2)).toNat_lt
  have h₃ := (buf (i + 3)).toNat_lt
  simp only [leWord, UInt32.toNat_or, UInt32.toNat_shiftLeft, UInt8.toNat_toUInt32,
    UInt32.toNat_ofNat, Nat.reduceMod, Nat.reducePow]
  rw [Nat.mod_eq_of_lt (a := (buf (i+1)).toNat <<< 8) (by rw [Nat.shiftLeft_eq]; omega),
    Nat.mod_eq_of_lt (a := (buf (i+2)).toNat <<< 16) (by rw [Nat.shiftLeft_eq]; omega),
    Nat.mod_eq_of_lt (a := (buf (i+3)).toNat <<< 24) (by rw [Nat.shiftLeft_eq]; omega)]
  rw [Nat.or_comm (buf i).toNat, ← Nat.shiftLeft_add_eq_or_of_lt (by omega : (buf i).toNat < 2 ^ 8),
    Nat.or_comm _ ((buf (i+2)).toNat <<< 16),
    ← Nat.shiftLeft_add_eq_or_of_lt (i := 16) (by rw [Nat.shiftLeft_eq]; omega),
    Nat.or_comm _ ((buf (i+3)).toNat <<< 24),
    ← Nat.shiftLeft_add_eq_or_of_lt (i := 24) (by rw [Nat.shiftLeft_eq, Nat.shiftLeft_eq]; omega)]
  simp only [Nat.shiftLeft_eq]
  omega

/-- Four equal bytes make one word. -/
theorem leWord_congr {b₁ b₂ : ℕ → UInt8} {i : ℕ} (h : ∀ j < 4, b₁ (i + j) = b₂ (i + j)) :
    leWord b₁ i = leWord b₂ i := by
  have hlow : b₁ i = b₂ i := h 0 (by decide)
  rw [leWord, leWord, h 1 (by decide), h 2 (by decide), h 3 (by decide), hlow]

/-- Four zeros make the word zero. -/
theorem leWord_eq_zero {buf : ℕ → UInt8} {i : ℕ} (h : ∀ j < 4, buf (i + j) = 0) :
    leWord buf i = 0 := by
  have hlow : buf i = 0 := h 0 (by decide)
  rw [leWord, h 1 (by decide), h 2 (by decide), h 3 (by decide), hlow]
  rfl

/-- A store inside the buffer changes one byte of it. -/
theorem storeBuffer_of_lt {i : ℕ} (h : i < bufferSize) (b : UInt8) (s : Machine) :
    storeBuffer i b s = .ok () { s with blBuffer := Function.update s.blBuffer i b } := by
  rw [storeBuffer, if_pos h]
  rfl

/-- A store outside the buffer halts. -/
theorem storeBuffer_of_le {i : ℕ} (h : bufferSize ≤ i) (b : UInt8) (s : Machine) :
    storeBuffer i b s = .error (.overrun i) s := by
  rw [storeBuffer, if_neg (Nat.not_lt.mpr h)]
  rfl

/-- Clearing touches nothing but the buffer. -/
theorem clearBuffer_apply (s : Machine) :
    clearBuffer s = .ok () { s with blBuffer := zeroed s.blBuffer } := rfl

/-- Bytes that fit overlay the buffer. -/
theorem storeBytes_of_fits {i : ℕ} {bytes : List UInt8} (h : i + bytes.length ≤ bufferSize)
    (s : Machine) :
    storeBytes i bytes s = .ok () { s with blBuffer := overlay s.blBuffer i bytes } := by
  induction bytes generalizing i s with
  | nil => simp [storeBytes]
  | cons b bytes ih =>
      rw [List.length_cons] at h
      rw [storeBytes, Exec.bind_of_ok (storeBuffer_of_lt (by omega) b s), ih (by omega),
        overlay_update]

/-! ### The FMC -/

/-- Trigger an ISP command (`FMC->ISPTRG`) and wait for its end or the timeout. -/
def ispGo (c : IspCommand) : Prog IspVerdict := do
  let s ← get
  let v := s.verdicts.isp 0 c
  modify fun s => { s with
    flash := if v.applies then c.apply s.flash else s.flash
    verdicts := { s.verdicts with isp := fun n => s.verdicts.isp (n + 1) }
    trace := s.trace ++ [.isp c v] }
  pure v

/-- `FMC_Write`: -1 on a timeout or with `ISPFF` raised, else 0. -/
def fmcWrite (addr data : UInt32) : Prog Int32 := do
  modify fun s => { s with fmcErrCode := 0, ispDat := data }
  match ← ispGo (.program addr data) with
  | .done => pure 0
  | .fault | .timeout _ => do
      modify fun s => { s with fmcErrCode := -1 }
      pure (-1)

/-- `FMC_Read`: only a timeout sets `g_FMC_i32ErrCode`. `ISPFF` is not looked at, so after a
fault it returns the data register, which holds 0xFFFFFFFF while `ISPFF` is set
(fmc_reg.h). -/
def fmcRead (addr : UInt32) : Prog UInt32 := do
  modify fun s => { s with fmcErrCode := 0 }
  match ← ispGo (.read addr) with
  | .done => do
      modify fun s => { s with ispDat := s.flash (addr.toNat / 4) }
      return (← get).ispDat
  | .fault => do
      modify fun s => { s with ispDat := 0xFFFFFFFF }
      return (← get).ispDat
  | .timeout _ => do
      modify fun s => { s with fmcErrCode := -1 }
      pure 0xFFFFFFFF

/-- `FMC_Erase_Block`: -1 on a timeout or with `ISPFF` raised, else 0. -/
def fmcEraseBlock (addr : UInt32) : Prog Int32 := do
  modify fun s => { s with fmcErrCode := 0 }
  match ← ispGo (.blockErase addr) with
  | .done => pure 0
  | .fault | .timeout _ => do
      modify fun s => { s with fmcErrCode := -1 }
      pure (-1)

/-! ### LittleFS calls -/

/-- Make a LittleFS call: check its assertions, let the instance move as the next verdict
says, log the call with the instance it met, the value it returned and what it printed. -/
def lfsInvoke {ρ : Type} (c : LfsCall) (act : Lfs → LfsVerdict → ρ × Lfs) (ret : ρ → ℤ) :
    Prog ρ := do
  let s ← get
  if c.asserts s.lfs then do
    let r := act s.lfs (s.verdicts.lfs 0 c)
    modify fun s => { s with
      lfs := r.2
      verdicts := { s.verdicts with lfs := fun n => s.verdicts.lfs (n + 1) }
      prints := fun n => s.prints (n + 1)
      trace := s.trace ++ [.lfs c s.lfs (some (ret r.1)) (s.prints 0 c)] }
    pure r.1
  else do
    modify (·.log (.lfs c s.lfs none (s.prints 0 c)))
    throw (.assertFailed c)

/-- `lfs_mount(&lfs_w25q128jv, &cfg)` -/
def lfsMount : Prog ℤ := lfsInvoke .mount Lfs.mount id
/-- `lfs_format(&lfs_w25q128jv, &cfg)` -/
def lfsFormat : Prog ℤ := lfsInvoke .format Lfs.format id
/-- `lfs_unmount(&lfs_w25q128jv)` -/
def lfsUnmount : Prog ℤ := lfsInvoke .unmount Lfs.unmount id
/-- `lfs_remove(&lfs_w25q128jv, "/boot")` -/
def lfsRemove : Prog ℤ := lfsInvoke .remove Lfs.remove id

/-- `lfs_file_open` of the one handle on `/boot`. -/
def lfsFileOpen (flags : OpenFlags) : Prog ℤ :=
  lfsInvoke (.fileOpen flags) (Lfs.fileOpen flags) id

/-- `lfs_file_close` of the handle. -/
def lfsFileClose : Prog ℤ := lfsInvoke .fileClose Lfs.fileClose id

/-- `lfs_file_rewind` of the handle. -/
def lfsFileRewind : Prog ℤ := lfsInvoke .fileRewind Lfs.fileRewind id

/-- `lfs_file_write` to the handle. -/
def lfsFileWrite (bytes : List UInt8) : Prog ℤ :=
  lfsInvoke (.fileWrite bytes.length) (Lfs.fileWrite bytes) id

/-- `lfs_file_size` of the handle. -/
def lfsFileSize : Prog ℤ := lfsInvoke .fileSize Lfs.fileSize id

/-- `lfs_file_read` into `bl_buffer`. -/
def lfsFileRead (size : ℕ) : Prog ℤ := do
  let r ← lfsInvoke (.fileRead size) (Lfs.fileRead size) Prod.fst
  storeBytes 0 r.2
  pure r.1

/-! ### boot_system.c -/

/-- `bootLED_on` -/
def bootLEDOn : Prog Unit := modify fun s => { s with bootLEDOn := true }

/-- `bootLED_off` -/
def bootLEDOff : Prog Unit := modify fun s => { s with bootLEDOn := false }

/-- `APROM_update_enable`: unlock the registers, enable ISP and the APROM update. -/
def apromUpdateEnable : Prog Unit :=
  modify fun s => { s with window := ⟨true, true, true⟩ }

end Num487Boot
