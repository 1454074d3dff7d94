import Num487Boot.Flash
import Num487Boot.Packet

/-!
# The Boot Protocol

The loops of `establish_connection`, `bl_command_process` and `main` (in programming mode),
and `boot_from_fs`. A loop is given by one pass of its body, which says whether control
stays in the loop or leaves it; `mainPass` is one pass of whichever loop control is in, so
that a run of the bootloader is an iteration of `mainPass`.

The handlers of `bl_command_process` are named after their `case` labels.
-/

namespace Num487Boot

open Memory

/-- Whether control stays in a loop or leaves it. -/
inductive Control
  | again | leave
  deriving DecidableEq

/-! ### boot_from_fs -/

/-- The mount sequence of `boot_from_fs` and `CMD_EXT_FLASH_FOPEN`: reformat when the file
system cannot be mounted. The second mount's result is not looked at. -/
def mountOrFormat : Prog Unit := do
  let err ← lfsMount
  if err ≠ 0 then do
    let _ ← lfsFormat
    let _ ← lfsMount
    pure ()
  else pure ()

/-- `LFS_O_WRONLY | LFS_O_CREAT | LFS_O_APPEND` -/
def bootWriteFlags : OpenFlags := ⟨false, true, true, true⟩

/-- `LFS_O_RDONLY | LFS_O_CREAT` -/
def bootReadFlags : OpenFlags := ⟨true, false, true, false⟩

/-- `flash_write_app_page(*(uint32_t *) bl_buffer, bl_buffer + 4)`. -/
def programRecord : Prog UInt8 := do
  let buf := (← get).blBuffer
  flashWriteAppPage (leWord buf 0) fun i => buf (4 + i)

/-- The size argument of a read, converted from `lfs_soff_t` to `lfs_size_t`. -/
def toLfsSize (fsize : ℤ) : ℕ := (fsize % 4294967296).toNat

/-- `boot_from_fs` after its loop: the shorter last record, the close, the unmount. -/
def bootTail (fsize : ℤ) : Prog UInt8 := do
  let finish : Prog UInt8 := do
    let _ ← lfsFileClose
    let _ ← lfsUnmount
    apromUpdateEnable
    bootLEDOff
    pure successed
  if fsize ≠ 0 then do
    clearBuffer
    let _ ← lfsFileRead (toLfsSize fsize)
    let r ← programRecord
    if r ≠ 0 then pure failed else finish
  else finish

/-- `while (fsize >= BUFFERSIZE)`, with at most `n` passes left. -/
def bootRecords : ℕ → ℤ → Prog UInt8
  | 0, fsize => bootTail fsize
  | n + 1, fsize => do
      if fsize ≥ bufferSize then do
        let _ ← lfsFileRead bufferSize
        let r ← programRecord
        if r ≠ 0 then pure failed
        else bootRecords n (fsize - bufferSize)
      else bootTail fsize

/-- `boot_from_fs`. The results of the mount, the open, the size and the reads go unused. -/
def bootFromFs : Prog UInt8 := do
  bootLEDOn
  apromUpdateEnable
  let res ← flashEraseAppAll
  if res ≠ 0 then pure failed else do
  clearBuffer
  mountOrFormat
  let _ ← lfsFileOpen bootReadFlags
  let fsize ← lfsFileSize
  bootRecords (fsize.toNat / bufferSize) fsize

/-! ### The handlers of bl_command_process -/

/-- `CMD_CHK_PROTOCOL` and `CMD_CHK_DEVICE` answer a status byte and a number. -/
def replyNumber (number : UInt8) : Prog Unit := do
  setLength 2
  storeBuffer 0 successed
  storeBuffer 1 number
  let _ ← putPacket
  pure ()

/-- `case CMD_CHK_PROTOCOL` -/
def handleChkProtocol : Prog Unit := replyNumber 1

/-- `case CMD_CHK_DEVICE` -/
def handleChkDevice : Prog Unit := replyNumber dNum487kmDevb

/-- `CMD_PROG_EXT_FLASH_BOOT`: the result of `boot_from_fs` is not looked at. -/
def handleProgExtFlashBoot : Prog Unit := do
  let _ ← bootFromFs
  sendACK

/-- `case CMD_FLASH_SET_PGSZ` -/
def handleFlashSetPgsz : Prog Unit := do
  let s ← get
  if flashSetPgsz (leHalf s.blBuffer 0) ≠ 0 then sendNACK else sendACK

/-- `case CMD_FLASH_GET_PGSZ` -/
def handleFlashGetPgsz : Prog Unit := do
  setLength 3
  storeBuffer 0 successed
  storeBuffer 1 flashGetPgsz.toUInt8
  storeBuffer 2 (flashGetPgsz >>> 8).toUInt8
  let _ ← putPacket
  pure ()

/-- `case CMD_FLASH_WRITE`, with its guard on the address. -/
def handleFlashWrite : Prog Unit := do
  let buf := (← get).blBuffer
  if leWord buf 0 ≤ bootloaderEnd then sendNACK
  else do
    let r ← flashWriteAppPage (leWord buf 0) fun i => buf (4 + i)
    if r ≠ 0 then sendNACK else sendACK

/-- `case CMD_FLASH_READ`: the page is read into `bl_buffer` behind the status byte. -/
def handleFlashRead : Prog Unit := do
  let s ← get
  let r ← flashReadAppPage (leWord s.blBuffer 0) 1
  if r ≠ 0 then sendNACK
  else do
    setLength (1 + flashGetPgsz)
    storeBuffer 0 successed
    let _ ← putPacket
    pure ()

/-- `case CMD_FLASH_ERASE_ALL` -/
def handleFlashEraseAll : Prog Unit := do
  let r ← flashEraseAppAll
  if r ≠ 0 then sendNACK else sendACK

/-- `case CMD_EXT_FLASH_FOPEN`. Whatever LittleFS returns, it is acknowledged. -/
def handleExtFlashFopen : Prog Unit := do
  mountOrFormat
  let _ ← lfsRemove
  let _ ← lfsFileOpen bootWriteFlags
  sendACK

/-- `case CMD_EXT_FLASH_FCLOSE`. Whatever LittleFS returns, it is acknowledged. -/
def handleExtFlashFclose : Prog Unit := do
  let _ ← lfsFileClose
  let _ ← lfsUnmount
  sendACK

/-- `CMD_EXT_FLASH_WRITE`: the first `BUFFERSIZE` bytes of the buffer are written, however
many of them the frame carried. -/
def handleExtFlashWrite : Prog Unit := do
  let _ ← lfsFileRewind
  let buf := (← get).blBuffer
  let _ ← lfsFileWrite (slice buf 0 bufferSize)
  sendACK

/-- The switch of `bl_command_process` on `pac.cmd`. -/
def dispatch : Command → Prog Control
  | .chkProtocol => do handleChkProtocol; pure .again
  | .chkDevice => do handleChkDevice; pure .again
  | .progEnd => do sendACK; pure .leave
  | .progExtFlashBoot => do handleProgExtFlashBoot; pure .again
  | .flashSetPgsz => do handleFlashSetPgsz; pure .again
  | .flashGetPgsz => do handleFlashGetPgsz; pure .again
  | .flashWrite => do handleFlashWrite; pure .again
  | .flashRead => do handleFlashRead; pure .again
  | .flashVerify | .flashEraseSector => do sendNACK; pure .again
  | .flashEraseAll => do handleFlashEraseAll; pure .again
  | .extFlashFopen => do handleExtFlashFopen; pure .again
  | .extFlashFclose => do handleExtFlashFclose; pure .again
  | .extFlashWrite => do handleExtFlashWrite; pure .again
  | .extFlashRead | .extFlashVerify | .extFlashEraseSector | .extFlashHexDel => pure .again
  | .eepromSetPgsz | .eepromGetPgsz | .eepromWrite | .eepromRead | .eepromEraseAll =>
      pure .again
  | .unsupported => do sendNACK; pure .again

/-! ### The loops -/

/-- Log an accepted frame. -/
def accept : Prog UInt8 := do
  let s ← get
  modify (·.log (.accept s.phase s.pac.cmd))
  pure s.pac.cmd

/-- One pass of the loop of `bl_command_process`. -/
def commandPass : Prog Control := do
  let r ← getPacket
  if r ≠ 0 then pure .again
  else do
    let cmd ← accept
    dispatch (.ofByte cmd)

/-- One pass of the loop of `establish_connection`. -/
def establishPass : Prog Control := do
  let r ← getPacket
  if r ≠ 0 then pure .again
  else do
    let cmd ← accept
    if cmd = cmdChkProtocol then do
      replyNumber 1
      pure .leave
    else do
      sendNACK
      pure .again

/-- Move control to another loop. Both protocol loops start with a zeroed local packet. -/
def enter (phase : Phase) : Prog Unit :=
  modify fun s => { s with phase := phase, pac := ⟨0, 0⟩ }

/-- One pass of the loop control is in. When `bl_command_process` returns, `main` makes its
closing call, which is `APROM_update_enable` as well, and is back at the head of its loop. -/
def mainPass : Prog Unit := do
  match (← get).phase with
  | .loopHead => do
      apromUpdateEnable
      enter .handshake
  | .handshake => do
      match ← establishPass with
      | .again => pure ()
      | .leave => enter .command
  | .command => do
      match ← commandPass with
      | .again => pure ()
      | .leave => do
          apromUpdateEnable
          enter .loopHead

end Num487Boot
