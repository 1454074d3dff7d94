import Num487Boot.Machine

/-!
# The Application Flash Driver

`Drivers/boot/flash.c`, function by function. The `for` loops that step an address and an
index by four are structural recursions on the number of words left.
-/

namespace Num487Boot

/-- `flash_set_pgsz`: only 512-byte pages are supported. -/
def flashSetPgsz (size : UInt16) : UInt8 :=
  if size ≠ 512 then failed else successed

/-- `flash_get_pgsz` -/
def flashGetPgsz : UInt16 := 512

/-- The loop of `flash_write_app_page` with `n` words left. -/
def writeWords (buf : ℕ → UInt8) : ℕ → UInt32 → ℕ → Prog UInt8
  | 0, _, _ => pure successed
  | n + 1, addr, i => do
      let r ← fmcWrite addr (leWord buf i)
      if r ≠ 0 then pure failed
      else writeWords buf n (addr + 4) (i + 4)

/-- `flash_write_app_page`: it stops at the first word that fails. -/
def flashWriteAppPage (dest : UInt32) (buf : ℕ → UInt8) : Prog UInt8 :=
  writeWords buf (blFlashPacsize / 4) dest 0

/-- The loop of `flash_read_app_page` with `n` words left, into `bl_buffer` from `base` on.
The four bytes are stored before the error code is looked at. -/
def readWords (base : ℕ) : ℕ → UInt32 → ℕ → Prog UInt8
  | 0, _, _ => pure successed
  | n + 1, addr, i => do
      let res ← fmcRead addr
      storeBuffer (base + i) res.toUInt8
      storeBuffer (base + i + 1) (res >>> 8).toUInt8
      storeBuffer (base + i + 2) (res >>> 16).toUInt8
      storeBuffer (base + i + 3) (res >>> 24).toUInt8
      let s ← get
      if s.fmcErrCode ≠ 0 then pure failed
      else readWords base n (addr + 4) (i + 4)

/-- `flash_read_app_page`, with `buf` in `bl_buffer` from index `base` on: it stops at the first
word that fails. -/
def flashReadAppPage (src : UInt32) (base : ℕ) : Prog UInt8 :=
  readWords base (blFlashPacsize / 4) src 0

/-- The loop of `flash_verify_app_page` with `n` words left; `pbuf32[i / 4]` is a word of the
buffer. -/
def verifyWords (buf : ℕ → UInt8) : ℕ → UInt32 → ℕ → Prog UInt8
  | 0, _, _ => pure successed
  | n + 1, addr, i => do
      let res ← fmcRead addr
      let s ← get
      if res ≠ leWord buf (4 * (i / 4)) ∨ s.fmcErrCode ≠ 0 then pure failed
      else verifyWords buf n (addr + 4) (i + 4)

/-- `flash_verify_app_page`: it stops at the first word that fails or differs. -/
def flashVerifyAppPage (src : UInt32) (buf : ℕ → UInt8) : Prog UInt8 :=
  verifyWords buf (blFlashPacsize / 4) src 0

/-- The loop of `flash_erase_app_all`, `while (addr < USER_APP_END)`, with the results
OR-ed into a byte. `n` bounds the iterations left. -/
def eraseBlocks : ℕ → UInt32 → UInt8 → Prog UInt8
  | 0, _, res => pure res
  | n + 1, addr, res => do
      if addr < userAppEnd then do
        let r ← fmcEraseBlock addr
        eraseBlocks n (addr + (fmcFlashPageSize <<< 2)) (res ||| r.toUInt32.toUInt8)
      else pure res

/-- The application section is 28 blocks of 16 KiB; the loop condition is false after them. -/
def flashEraseAppAll : Prog UInt8 := eraseBlocks 29 userAppStart 0

end Num487Boot
