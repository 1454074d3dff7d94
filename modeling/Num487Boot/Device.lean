import Mathlib.Data.Nat.Notation

/-!
# The Code Section Plan and the Protocol Constants

The constants of `Core/boot/device.h`, `Core/boot/bootprotocol.h` and the geometry of the
internal flash, under their source names. A command byte is decoded once, into the
inductive `Command`, which has one constructor for each `case` label of the switch in
`bl_command_process` and one for its `default` branch.
-/

namespace Num487Boot

/-! ### device.h and the internal flash -/

/-- `USER_APP_START` -/
def userAppStart : UInt32 := 0x00010000
/-- `USER_APP_END` -/
def userAppEnd : UInt32 := 0x0007FFFF
/-- `BOOTLOADER_END` -/
def bootloaderEnd : UInt32 := 0x0000FFFF

/-- `D_NUM487KM_DEVB` of `enum device_table`. -/
def dNum487kmDevb : UInt8 := 2

/-- `FMC_FLASH_PAGE_SIZE`: one page of the internal flash. -/
def fmcFlashPageSize : UInt32 := 0x1000

/-- The end of the highest region `fmc.h` names, the page at `FMC_OTP_BASE`. -/
def chipFlashEnd : UInt32 := 0x00311000

/-- `BL_FLASH_PACSIZE`: the bytes moved by one page call of `flash.c`. -/
def blFlashPacsize : ℕ := 512

/-- The application section starts at 64 kB. -/
theorem toNat_userAppStart : userAppStart.toNat = 65536 := rfl

/-- The application section ends with the last byte of 512 kB. -/
theorem toNat_userAppEnd : userAppEnd.toNat = 524287 := rfl

/-- The bootloader ends right in front of it. -/
theorem toNat_bootloaderEnd : bootloaderEnd.toNat = 65535 := rfl

/-- The step of the erase loop: a block of four pages. -/
theorem toNat_eraseStep : (fmcFlashPageSize <<< 2).toNat = 16384 := rfl

/-! ### bootprotocol.h -/

/-- `HEADER` -/
def header : UInt8 := 0xA5
/-- `SUCCESSED` -/
def successed : UInt8 := 0
/-- `FAILED` -/
def failed : UInt8 := 1
/-- `ACK` -/
def ack : UInt8 := 0
/-- `NACK` -/
def nack : UInt8 := 1

/-- The two results differ. -/
theorem failed_ne_successed : failed ≠ successed := by decide

/-- The test `if (res)` of the source on a success. -/
theorem not_successed_ne_zero : ¬ successed ≠ 0 := fun h => h rfl

/-- `BUFFERSIZE`: the size of the one packet buffer `bl_buffer`. -/
def bufferSize : ℕ := 516

/-- `CMD_CHK_PROTOCOL` -/
def cmdChkProtocol : UInt8 := 0x01
/-- `CMD_CHK_DEVICE` -/
def cmdChkDevice : UInt8 := 0x02
/-- `CMD_PROG_END` -/
def cmdProgEnd : UInt8 := 0x03
/-- `CMD_PROG_EXT_FLASH_BOOT` -/
def cmdProgExtFlashBoot : UInt8 := 0x04
/-- `CMD_FLASH_SET_PGSZ` -/
def cmdFlashSetPgsz : UInt8 := 0x10
/-- `CMD_FLASH_GET_PGSZ` -/
def cmdFlashGetPgsz : UInt8 := 0x11
/-- `CMD_FLASH_WRITE` -/
def cmdFlashWrite : UInt8 := 0x12
/-- `CMD_FLASH_READ` -/
def cmdFlashRead : UInt8 := 0x13
/-- `CMD_FLASH_VERIFY` -/
def cmdFlashVerify : UInt8 := 0x14
/-- `CMD_FLASH_ERASE_SECTOR` -/
def cmdFlashEraseSector : UInt8 := 0x15
/-- `CMD_FLASH_ERASE_ALL` -/
def cmdFlashEraseAll : UInt8 := 0x16
/-- `CMD_EEPROM_SET_PGSZ` -/
def cmdEepromSetPgsz : UInt8 := 0x20
/-- `CMD_EEPROM_GET_PGSZ` -/
def cmdEepromGetPgsz : UInt8 := 0x21
/-- `CMD_EEPROM_WRITE` -/
def cmdEepromWrite : UInt8 := 0x22
/-- `CMD_EEPROM_READ` -/
def cmdEepromRead : UInt8 := 0x23
/-- `CMD_EEPROM_ERASE_ALL` -/
def cmdEepromEraseAll : UInt8 := 0x26
/-- `CMD_EXT_FLASH_FOPEN` -/
def cmdExtFlashFopen : UInt8 := 0x30
/-- `CMD_EXT_FLASH_FCLOSE` -/
def cmdExtFlashFclose : UInt8 := 0x31
/-- `CMD_EXT_FLASH_WRITE` -/
def cmdExtFlashWrite : UInt8 := 0x32
/-- `CMD_EXT_FLASH_READ` -/
def cmdExtFlashRead : UInt8 := 0x33
/-- `CMD_EXT_FLASH_VERIFY` -/
def cmdExtFlashVerify : UInt8 := 0x34
/-- `CMD_EXT_FLASH_ERASE_SECTOR` -/
def cmdExtFlashEraseSector : UInt8 := 0x35
/-- `CMD_EXT_FLASH_HEX_DEL` -/
def cmdExtFlashHexDel : UInt8 := 0x36

/-- The branches of the switch in `bl_command_process`. -/
inductive Command
  | chkProtocol | chkDevice | progEnd | progExtFlashBoot
  | flashSetPgsz | flashGetPgsz | flashWrite | flashRead | flashVerify
  | flashEraseSector | flashEraseAll
  | extFlashFopen | extFlashFclose | extFlashWrite | extFlashRead | extFlashVerify
  | extFlashEraseSector | extFlashHexDel
  | eepromSetPgsz | eepromGetPgsz | eepromWrite | eepromRead | eepromEraseAll
  | unsupported
  deriving DecidableEq

/-- The branch a command byte selects. `CMD_EEPROM_VERIFY` (0x24) and
`CMD_EEPROM_ERASE_SECTOR` (0x25) have no `case` label and fall to `default`. -/
def Command.ofByte (cmd : UInt8) : Command :=
  if cmd = cmdChkProtocol then .chkProtocol
  else if cmd = cmdChkDevice then .chkDevice
  else if cmd = cmdProgEnd then .progEnd
  else if cmd = cmdProgExtFlashBoot then .progExtFlashBoot
  else if cmd = cmdFlashSetPgsz then .flashSetPgsz
  else if cmd = cmdFlashGetPgsz then .flashGetPgsz
  else if cmd = cmdFlashWrite then .flashWrite
  else if cmd = cmdFlashRead then .flashRead
  else if cmd = cmdFlashVerify then .flashVerify
  else if cmd = cmdFlashEraseSector then .flashEraseSector
  else if cmd = cmdFlashEraseAll then .flashEraseAll
  else if cmd = cmdExtFlashFopen then .extFlashFopen
  else if cmd = cmdExtFlashFclose then .extFlashFclose
  else if cmd = cmdExtFlashWrite then .extFlashWrite
  else if cmd = cmdExtFlashRead then .extFlashRead
  else if cmd = cmdExtFlashVerify then .extFlashVerify
  else if cmd = cmdExtFlashEraseSector then .extFlashEraseSector
  else if cmd = cmdExtFlashHexDel then .extFlashHexDel
  else if cmd = cmdEepromSetPgsz then .eepromSetPgsz
  else if cmd = cmdEepromGetPgsz then .eepromGetPgsz
  else if cmd = cmdEepromWrite then .eepromWrite
  else if cmd = cmdEepromRead then .eepromRead
  else if cmd = cmdEepromEraseAll then .eepromEraseAll
  else .unsupported

end Num487Boot
