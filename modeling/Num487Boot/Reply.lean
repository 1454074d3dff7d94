import Num487Boot.System

/-!
# Replies

Every reply of the protocol is a frame under the command byte of the request.
`Machine.replied s f` is the machine after the reply `f` has been put together in the packet
buffer and sent; each of the reply builders is one such step.
-/

namespace Num487Boot

open Exec Memory

/-- The machine after the frame `f` has been put into the packet and sent. -/
def Machine.replied (s : Machine) (f : Frame) : Machine :=
  { s.holding f with trace := s.trace ++ (encode f).map .tx }

/-- A reply puts its encoding on the line. -/
theorem Machine.txBytes_replied (s : Machine) (f : Frame) :
    txBytes (s.replied f).trace = txBytes s.trace ++ encode f := by
  simp [Machine.replied]

/-- `put_packet` sends the frame that the machine holds. -/
theorem putPacket_holding (s : Machine) (f : Frame) :
    putPacket (s.holding f) = .ok successed (s.replied f) := by
  have hfits : (s.holding f).pac.length.toNat ≤ bufferSize := by
    rw [s.length_holding f]
    exact f.fits
  rw [putPacket_apply _ hfits, frame_holding]
  rfl

/-- A reply of one byte, or of a status byte and a few more, under the command `cmd`. -/
def Frame.reply (cmd : UInt8) (data : List UInt8)
    (h : data.length ≤ 4 := by exact Nat.le_of_ble_eq_true rfl) : Frame where
  cmd := cmd
  data := data
  fits := Nat.le_trans h (by decide)

/-- A status byte is a reply of one byte. -/
theorem sendStatus_apply (status : UInt8) (s : Machine) :
    sendStatus status s = .ok () (s.replied (.reply s.pac.cmd [status])) := by
  have hhold : { s with
      pac := { s.pac with length := 1 }
      blBuffer := Function.update s.blBuffer 0 status } =
      s.holding (.reply s.pac.cmd [status]) := by
    rw [Machine.holding, Frame.reply, ← overlay_update, overlay_nil]
    rfl
  rw [sendStatus, setLength, bind_of_ok (modify_apply _ s),
    bind_of_ok (storeBuffer_of_lt (by decide) _ _), hhold, bind_of_ok (putPacket_holding _ _)]
  rfl

/-- A number is a reply of two bytes. -/
theorem replyNumber_apply (number : UInt8) (s : Machine) :
    replyNumber number s = .ok () (s.replied (.reply s.pac.cmd [successed, number])) := by
  have hhold : { s with
      pac := { s.pac with length := 2 }
      blBuffer := Function.update (Function.update s.blBuffer 0 successed) 1 number } =
      s.holding (.reply s.pac.cmd [successed, number]) := by
    rw [Machine.holding, Frame.reply, ← overlay_update, ← overlay_update, overlay_nil]
    rfl
  rw [replyNumber, setLength, bind_of_ok (modify_apply _ s),
    bind_of_ok (storeBuffer_of_lt (by decide) _ _),
    bind_of_ok (storeBuffer_of_lt (by decide) _ _), hhold, bind_of_ok (putPacket_holding _ _)]
  rfl

/-- `CMD_FLASH_GET_PGSZ` is answered with the page size. -/
theorem handleFlashGetPgsz_apply (s : Machine) :
    handleFlashGetPgsz s = .ok () (s.replied (.reply s.pac.cmd
      [successed, flashGetPgsz.toUInt8, (flashGetPgsz >>> 8).toUInt8])) := by
  have hhold : { s with
      pac := { s.pac with length := 3 }
      blBuffer := Function.update (Function.update (Function.update s.blBuffer 0 successed) 1
        flashGetPgsz.toUInt8) 2 (flashGetPgsz >>> 8).toUInt8 } =
      s.holding (.reply s.pac.cmd
        [successed, flashGetPgsz.toUInt8, (flashGetPgsz >>> 8).toUInt8]) := by
    rw [Machine.holding, Frame.reply, ← overlay_update, ← overlay_update, ← overlay_update,
      overlay_nil]
    rfl
  rw [handleFlashGetPgsz, setLength, bind_of_ok (modify_apply _ s),
    bind_of_ok (storeBuffer_of_lt (by decide) _ _),
    bind_of_ok (storeBuffer_of_lt (by decide) _ _),
    bind_of_ok (storeBuffer_of_lt (by decide) _ _), hhold, bind_of_ok (putPacket_holding _ _)]
  rfl

/-- `CMD_FLASH_SET_PGSZ` is answered with what `flash_set_pgsz` says of the size in the buffer. -/
theorem handleFlashSetPgsz_apply (s : Machine) :
    handleFlashSetPgsz s = .ok () (s.replied
      (.reply s.pac.cmd [if flashSetPgsz (leHalf s.blBuffer 0) ≠ 0 then nack else ack])) := by
  rw [handleFlashSetPgsz, bind_of_ok (get_apply s)]
  split
  · exact sendStatus_apply nack s
  · exact sendStatus_apply ack s

/-- Storing what is already there changes nothing. -/
theorem overlay_slice (buf : ℕ → UInt8) (i n : ℕ) : overlay buf i (slice buf i n) = buf := by
  funext j
  rcases Nat.lt_or_ge j i with hlt | hge
  · exact overlay_apply_of_lt hlt
  · obtain ⟨k, rfl⟩ : ∃ k, j = i + k := ⟨j - i, by omega⟩
    rcases Nat.lt_or_ge k n with hk | hk
    · rw [overlay_apply (by simpa using hk), getElem_slice]
    · exact overlay_apply_of_le (by simpa using hk)

/-- The reply to `CMD_FLASH_READ`: a status byte and the 512 bytes after it in the
buffer. -/
def Frame.page (cmd : UInt8) (buf : ℕ → UInt8) : Frame where
  cmd := cmd
  data := successed :: slice buf 1 512
  fits := by simp [bufferSize]

/-- Only the page in the buffer matters for a page reply. -/
theorem Frame.page_congr {cmd : UInt8} {b₁ b₂ : ℕ → UInt8}
    (h : ∀ i < 512, b₁ (1 + i) = b₂ (1 + i)) : Frame.page cmd b₁ = Frame.page cmd b₂ :=
  Frame.ext rfl (congrArg (successed :: ·) (slice_congr h))

/-- The reply to a page read, with the page already in the buffer. -/
theorem sendPage_apply (s : Machine) :
    (do
      setLength (1 + flashGetPgsz)
      storeBuffer 0 successed
      let _ ← putPacket
      pure () : Prog Unit) s = .ok () (s.replied (.page s.pac.cmd s.blBuffer)) := by
  have hrest : slice s.blBuffer 1 512 = slice (Function.update s.blBuffer 0 successed) 1 512 :=
    slice_congr fun j _ => by rw [Function.update_of_ne (by omega)]
  have hbuf : overlay s.blBuffer 0 (Frame.page s.pac.cmd s.blBuffer).data =
      Function.update s.blBuffer 0 successed := by
    have hdata : (Frame.page s.pac.cmd s.blBuffer).data =
        successed :: slice (Function.update s.blBuffer 0 successed) 1 512 :=
      congrArg (successed :: ·) hrest
    rw [hdata, ← overlay_update, overlay_slice]
  have hlength : (Frame.page s.pac.cmd s.blBuffer).length = 1 + flashGetPgsz := by
    simp [Frame.length, Frame.page, flashGetPgsz]
  have hhold : { s with
      pac := { s.pac with length := 1 + flashGetPgsz }
      blBuffer := Function.update s.blBuffer 0 successed } =
      s.holding (.page s.pac.cmd s.blBuffer) := by
    rw [Machine.holding, hbuf, hlength]
    rfl
  rw [setLength, bind_of_ok (modify_apply _ s), bind_of_ok (storeBuffer_of_lt (by decide) _ _),
    hhold, bind_of_ok (putPacket_holding _ _)]
  rfl

end Num487Boot
