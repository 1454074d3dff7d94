import Num487Boot.Machine

/-!
# The Communication Channel and the Packets

`Drivers/boot/commuch.c` and the packet functions of `Core/boot/bootprotocol.c`. The two
`for` loops over `packet->length` are structural recursions on the number of data bytes
left, with the `uint16_t` index as a natural number; `length` is at most 65535, so the
index never wraps.
-/

namespace Num487Boot

/-- `com_channel_putc`. -/
def comChannelPutc (b : UInt8) : Prog Unit :=
  modify (·.log (.tx b))

/-- `com_channel_getc`: whatever the next poll leaves in `data`, received or not. -/
def comChannelGetc : Prog UInt8 := do
  match (← get).rx with
  | [] => throw .starved
  | p :: rest => do
      modify fun s => { s with rx := rest }
      pure p.value

/-- `(len_h << 8) | len_l`. -/
def joinLength (lenH lenL : UInt8) : UInt16 :=
  lenH.toUInt16 <<< 8 ||| lenL.toUInt16

/-- The data loop of `get_packet` with `n` bytes left: store, then add to the checksum. -/
def recvData : ℕ → ℕ → UInt8 → Prog UInt8
  | 0, _, chksum => pure chksum
  | n + 1, i, chksum => do
      let b ← comChannelGetc
      storeBuffer i b
      recvData n (i + 1) (chksum + b)

/-- `get_packet`: it gives up at the first byte that does not fit, with what it has read consumed,
and compares the checksum last. -/
def getPacket : Prog UInt8 := do
  let h₀ ← comChannelGetc
  if h₀ ≠ header then pure failed else do
  let h₁ ← comChannelGetc
  if h₁ ≠ header then pure failed else do
  let h₂ ← comChannelGetc
  if h₂ ≠ header then pure failed else do
  let cmd ← comChannelGetc
  let lenH ← comChannelGetc
  let lenL ← comChannelGetc
  let length := joinLength lenH lenL
  modify fun s => { s with pac := ⟨cmd, length⟩ }
  let chksum ← recvData length.toNat 0 0
  let c ← comChannelGetc
  if c ≠ chksum then pure failed else pure successed

/-- A load from `bl_buffer`. -/
def loadBuffer (i : ℕ) : Prog UInt8 := do
  if i < bufferSize then return (← get).blBuffer i
  else throw (.overrun i)

/-- The data loop of `put_packet` with `n` bytes left. -/
def sendData : ℕ → ℕ → UInt8 → Prog UInt8
  | 0, _, chksum => pure chksum
  | n + 1, i, chksum => do
      let b ← loadBuffer i
      comChannelPutc b
      sendData n (i + 1) (chksum + b)

/-- `put_packet` -/
def putPacket : Prog UInt8 := do
  let pac := (← get).pac
  comChannelPutc header
  comChannelPutc header
  comChannelPutc header
  comChannelPutc pac.cmd
  comChannelPutc (pac.length >>> 8).toUInt8
  comChannelPutc (pac.length &&& 0xFF).toUInt8
  let chksum ← sendData pac.length.toNat 0 0
  comChannelPutc chksum
  pure successed

/-- `packet->length = length`. -/
def setLength (length : UInt16) : Prog Unit :=
  modify fun s => { s with pac := { s.pac with length := length } }

/-- `send_ACK` and `send_NACK` differ in the status byte. -/
def sendStatus (status : UInt8) : Prog Unit := do
  setLength 1
  storeBuffer 0 status
  let _ ← putPacket
  pure ()

/-- `send_ACK` -/
def sendACK : Prog Unit := sendStatus ack

/-- `send_NACK` -/
def sendNACK : Prog Unit := sendStatus nack

end Num487Boot
