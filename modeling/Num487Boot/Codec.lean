import Mathlib.Algebra.BigOperators.Group.List.Basic
import Mathlib.Data.UInt
import Num487Boot.Packet

/-!
# The Frame Codec

What `put_packet` emits and what `get_packet` accepts. A `Frame` is a packet that fits
`bl_buffer`; `encode` is its byte image. `putPacket_apply` and the `getPacket_*` lemmas are
the specifications of the two functions, one for each way `get_packet` can end:

* `getPacket_noise`: a byte other than the header among the first three;
* `getPacket_frame`: a complete frame that fits the buffer, accepted or not;
* `getPacket_overrun`: a frame whose LENGTH exceeds the buffer.

## Main results

* `putPacket_getPacket_roundTrip`: the codec is a round trip in both directions.
* `getPacket_documented_iff`: when the receiver's verdict on a stream, and the sender's
  checksum, are the documented ones (`sum(data) % 255`).
-/

namespace Num487Boot

open Exec Memory

/-! ### Frames -/

/-- The transmitted bytes of a log. -/
def txBytes (trace : List Event) : List UInt8 :=
  trace.filterMap fun
    | .tx b => some b
    | _ => none

/-- The bytes of two logs in a row. -/
@[simp] theorem txBytes_append (t u : List Event) :
    txBytes (t ++ u) = txBytes t ++ txBytes u :=
  List.filterMap_append

/-- A log of bytes. -/
@[simp] theorem txBytes_map_tx (bytes : List UInt8) : txBytes (bytes.map .tx) = bytes := by
  simp [txBytes, List.filterMap_map]

/-- The bytes a program puts on the communication channel. -/
def sentBy {α : Type} (x : Prog α) (s : Machine) : List UInt8 :=
  (txBytes (after (x s)).trace).drop (txBytes s.trace).length

/-- A packet whose data fits the buffer. -/
structure Frame where
  cmd : UInt8
  data : List UInt8
  fits : data.length ≤ bufferSize

/-- `LENGTH`, the number of data bytes. -/
def Frame.length (f : Frame) : UInt16 := .ofNat f.data.length

/-- The byte image of a frame: three headers, the command, the length with its high byte
first, the data, and the 8-bit sum of the data. -/
def encode (f : Frame) : List UInt8 :=
  [header, header, header, f.cmd, (f.length >>> 8).toUInt8, (f.length &&& 0xFF).toUInt8]
    ++ f.data ++ [f.data.sum]

/-- A request without data. -/
def Frame.request (cmd : UInt8) : Frame := ⟨cmd, [], Nat.zero_le _⟩

/-- Requests without data, back to back. -/
def requests (cmds : List UInt8) : List UInt8 := (cmds.map Frame.request).flatMap encode

/-- Requests without data, as they are received. -/
def received (cmds : List UInt8) : List UartPoll := (requests cmds).map .byte

/-- The length of a frame does not wrap around, as the data fit the buffer. -/
theorem Frame.toNat_length (f : Frame) : f.length.toNat = f.data.length := by
  have := f.fits
  rw [Frame.length, UInt16.toNat_ofNat']
  simp only [bufferSize] at this
  omega

/-- A frame is its command and its data. -/
theorem Frame.ext {f g : Frame} (hcmd : f.cmd = g.cmd) (hdata : f.data = g.data) : f = g := by
  cases f
  cases g
  simp_all

/-- The packet a machine holds, as a frame. -/
def Machine.frame (s : Machine) (h : s.pac.length.toNat ≤ bufferSize) : Frame where
  cmd := s.pac.cmd
  data := slice s.blBuffer 0 s.pac.length.toNat
  fits := by simpa using h

/-- The frame in the machine has the length of the packet. -/
@[simp] theorem Machine.length_frame (s : Machine) (h : s.pac.length.toNat ≤ bufferSize) :
    (s.frame h).length = s.pac.length := by
  simp [Machine.frame, Frame.length]

/-- The machine with frame `f` as its current packet, its data at the start of the
buffer. -/
def Machine.holding (s : Machine) (f : Frame) : Machine :=
  { s with pac := ⟨f.cmd, f.length⟩, blBuffer := overlay s.blBuffer 0 f.data }

/-- A machine that holds a frame has its length in the packet. -/
theorem Machine.length_holding (s : Machine) (f : Frame) :
    (s.holding f).pac.length.toNat = f.data.length :=
  f.toNat_length

/-- A machine holds the data of a frame at the front of its buffer. -/
@[simp] theorem Machine.slice_holding (s : Machine) (f : Frame) :
    slice (s.holding f).blBuffer 0 f.data.length = f.data :=
  slice_overlay s.blBuffer 0 f.data

/-! ### The length field -/

/-- The high byte comes first on the line. -/
theorem joinLength_toNat (h l : UInt8) : (joinLength h l).toNat = h.toNat * 256 + l.toNat := by
  have hh := h.toNat_lt
  have hl := l.toNat_lt
  have hshift : h.toNat <<< 8 % 65536 = h.toNat <<< 8 := by
    rw [Nat.shiftLeft_eq]
    omega
  simp only [joinLength, UInt16.toNat_or, UInt16.toNat_shiftLeft, UInt8.toNat_toUInt16,
    UInt16.toNat_ofNat, Nat.reduceMod, Nat.reducePow, hshift]
  rw [← Nat.shiftLeft_add_eq_or_of_lt hl, Nat.shiftLeft_eq]

/-- The low byte comes first in the buffer. -/
theorem leHalf_toNat (buf : ℕ → UInt8) (i : ℕ) :
    (leHalf buf i).toNat = (buf (i + 1)).toNat * 256 + (buf i).toNat := by
  rw [leHalf, UInt16.or_comm]
  exact joinLength_toNat (buf (i + 1)) (buf i)

/-- The low byte of a number. -/
private theorem and_255 (n : ℕ) : n &&& 255 = n % 256 :=
  Nat.and_two_pow_sub_one_eq_mod n 8

/-- Joining the two bytes of a length gives the length back. -/
theorem joinLength_split (n : UInt16) :
    joinLength (n >>> 8).toUInt8 (n &&& 0xFF).toUInt8 = n := by
  have hn := n.toNat_lt
  apply UInt16.toNat_inj.mp
  simp only [joinLength_toNat, UInt16.toNat_toUInt8, UInt16.toNat_shiftRight, UInt16.toNat_and,
    UInt16.toNat_ofNat, Nat.reduceMod, Nat.reducePow, and_255, Nat.shiftRight_eq_div_pow]
  omega

/-- The high byte of a joined length. -/
theorem joinLength_hi (h l : UInt8) : (joinLength h l >>> 8).toUInt8 = h := by
  have hh := h.toNat_lt
  have hl := l.toNat_lt
  apply UInt8.toNat_inj.mp
  simp only [UInt16.toNat_toUInt8, UInt16.toNat_shiftRight, joinLength_toNat,
    UInt16.toNat_ofNat, Nat.reduceMod, Nat.reducePow, Nat.shiftRight_eq_div_pow]
  omega

/-- The low byte of a joined length. -/
theorem joinLength_lo (h l : UInt8) : (joinLength h l &&& 0xFF).toUInt8 = l := by
  have hh := h.toNat_lt
  have hl := l.toNat_lt
  apply UInt8.toNat_inj.mp
  simp only [UInt16.toNat_toUInt8, UInt16.toNat_and, joinLength_toNat, UInt16.toNat_ofNat,
    Nat.reduceMod, Nat.reducePow, and_255]
  omega

/-! ### put_packet -/

/-- A load inside the buffer. -/
theorem loadBuffer_of_lt {i : ℕ} (h : i < bufferSize) (s : Machine) :
    loadBuffer i s = .ok (s.blBuffer i) s := by
  rw [loadBuffer, if_pos h]
  rfl

/-- The data loop sends a range of the buffer and adds it up. -/
theorem sendData_apply {n i : ℕ} (h : i + n ≤ bufferSize) (c : UInt8) (s : Machine) :
    sendData n i c s = .ok (c + (slice s.blBuffer i n).sum)
      { s with trace := s.trace ++ (slice s.blBuffer i n).map .tx } := by
  induction n generalizing i c s with
  | zero => simp [sendData]
  | succ n ih =>
      rw [sendData, bind_of_ok (loadBuffer_of_lt (by omega) s), comChannelPutc,
        bind_of_ok (modify_apply _ s), ih (by omega), slice_succ]
      simp [Machine.log, UInt8.add_assoc]

/-- `put_packet` emits the image of the current packet and changes nothing else. -/
theorem putPacket_apply (s : Machine) (h : s.pac.length.toNat ≤ bufferSize) :
    putPacket s =
      .ok successed { s with trace := s.trace ++ (encode (s.frame h)).map .tx } := by
  have hsend := sendData_apply (n := s.pac.length.toNat) (i := 0) (by omega) 0
  simp only [putPacket, comChannelPutc, bind_apply, get_apply, modify_apply, hsend, pure_apply,
    Machine.log, encode, Machine.length_frame]
  simp [Machine.frame]

/-- The bytes `put_packet` puts on the channel. -/
theorem sentBy_putPacket (s : Machine) (h : s.pac.length.toNat ≤ bufferSize) :
    sentBy putPacket s = encode (s.frame h) := by
  rw [sentBy, putPacket_apply s h]
  simp [after]

/-! ### get_packet -/

/-- The machine with another rest of input. -/
def Machine.withRx (s : Machine) (r : List UartPoll) : Machine := { s with rx := r }

/-- The receive line that was put there. -/
@[simp] theorem Machine.rx_withRx (s : Machine) (r : List UartPoll) : (s.withRx r).rx = r := rfl

/-- Only the last one counts. -/
@[simp] theorem Machine.withRx_withRx (s : Machine) (q r : List UartPoll) :
    (s.withRx q).withRx r = s.withRx r := rfl

/-- A poll is taken off the line. -/
theorem comChannelGetc_cons {s : Machine} {p : UartPoll} {r : List UartPoll}
    (h : s.rx = p :: r) : comChannelGetc s = .ok p.value (s.withRx r) := by
  simp only [comChannelGetc, bind_apply, get_apply, h, modify_apply, pure_apply, Machine.withRx]

/-- On an empty line the program waits forever. -/
theorem comChannelGetc_nil {s : Machine} (h : s.rx = []) :
    comChannelGetc s = .error .starved s := by
  simp only [comChannelGetc, bind_apply, get_apply, h, throw_apply]

/-- The values `com_channel_getc` returns for a run of polls. -/
def values (ps : List UartPoll) : List UInt8 := ps.map UartPoll.value

/-- A poll has one value. -/
@[simp] theorem length_values (ps : List UartPoll) : (values ps).length = ps.length := by
  simp [values]

/-- The value of the first poll, and the others. -/
@[simp] theorem values_cons (p : UartPoll) (ps : List UartPoll) :
    values (p :: ps) = p.value :: values ps := rfl

/-- No polls, no values. -/
@[simp] theorem values_nil : values [] = [] := rfl

/-- The values of two parts of the line. -/
@[simp] theorem values_append (ps qs : List UartPoll) :
    values (ps ++ qs) = values ps ++ values qs :=
  List.map_append

/-- A byte that arrives is its value. -/
@[simp] theorem values_byte (bytes : List UInt8) : values (bytes.map .byte) = bytes := by
  simp [values, Function.comp_def, UartPoll.value]

/-- The data loop on data that fits: it stores and sums what it receives. -/
theorem recvData_of_fits {ps r : List UartPoll} {i : ℕ} (c : UInt8) {s : Machine}
    (hrx : s.rx = ps ++ r) (h : i + ps.length ≤ bufferSize) :
    recvData ps.length i c s = .ok (c + (values ps).sum)
      { s.withRx r with blBuffer := overlay s.blBuffer i (values ps) } := by
  induction ps generalizing i c s with
  | nil =>
      obtain rfl : s.rx = r := hrx
      simp [recvData, values, Machine.withRx]
  | cons p ps ih =>
      rw [List.length_cons] at h
      rw [List.length_cons, recvData, bind_of_ok (comChannelGetc_cons hrx),
        bind_of_ok (storeBuffer_of_lt (by omega) _ _), ih _ rfl (by omega), values_cons,
        List.sum_cons, ← UInt8.add_assoc, ← overlay_update]
      rfl

/-- The data loop on data that does not fit: the store at index `BUFFERSIZE` is reached. -/
theorem recvData_of_overrun (ps : List UartPoll) {r : List UartPoll} {n i : ℕ} (c : UInt8)
    {s : Machine} (hrx : s.rx = ps ++ r) (hps : i + ps.length = bufferSize + 1) (hn : ps.length ≤ n)
    (hi : i ≤ bufferSize) : ∃ t, recvData n i c s = .error (.overrun bufferSize) t := by
  induction ps generalizing n i c s with
  | nil => simp only [List.length_nil] at hps; omega
  | cons p ps ih =>
      obtain ⟨n, rfl⟩ : ∃ m, n = m + 1 := ⟨n - 1, by rw [List.length_cons] at hn; omega⟩
      rw [List.length_cons] at hps hn
      rw [recvData, bind_of_ok (comChannelGetc_cons hrx)]
      rcases Nat.lt_or_ge i bufferSize with hlt | hge
      · rw [bind_of_ok (storeBuffer_of_lt hlt _ _)]
        exact ih _ rfl (by omega) (by omega) (by omega)
      · obtain rfl : i = bufferSize := by omega
        exact ⟨_, bind_of_error (storeBuffer_of_le (Nat.le_refl _) _ _)⟩

/-- The first byte that is not a header ends the attempt, and nothing after it is read. -/
theorem getPacket_noise {s : Machine} (hs : List UartPoll) {r : List UartPoll} {p : UartPoll}
    (hrx : s.rx = hs ++ p :: r) (hhs : ∀ q ∈ hs, q.value = header) (hlen : hs.length < 3)
    (hp : p.value ≠ header) : getPacket s = .ok failed (s.withRx r) := by
  rcases hs with _ | ⟨q₀, _ | ⟨q₁, _ | ⟨q₂, hs⟩⟩⟩
  · rw [getPacket, bind_of_ok (comChannelGetc_cons hrx), if_pos hp]
    rfl
  · have h₀ := hhs q₀ (by simp)
    rw [getPacket, bind_of_ok (comChannelGetc_cons hrx), if_neg (not_not.mpr h₀),
      bind_of_ok (comChannelGetc_cons rfl), if_pos hp]
    rfl
  · have h₀ := hhs q₀ (by simp)
    have h₁ := hhs q₁ (by simp)
    rw [getPacket, bind_of_ok (comChannelGetc_cons hrx), if_neg (not_not.mpr h₀),
      bind_of_ok (comChannelGetc_cons rfl), if_neg (not_not.mpr h₁),
      bind_of_ok (comChannelGetc_cons rfl), if_pos hp]
    rfl
  · simp only [List.length_cons] at hlen
    omega

/-- The polls of a frame up to its data: three headers, the command, the length. -/
structure Preamble (ps : List UartPoll) (cmd lenH lenL : UInt8) : Prop where
  values_eq : values ps = [header, header, header, cmd, lenH, lenL]

/-- After a preamble `get_packet` is its data loop and its checksum test. -/
theorem getPacket_preamble {s : Machine} {ps r : List UartPoll} {cmd lenH lenL : UInt8}
    (hps : Preamble ps cmd lenH lenL) (hrx : s.rx = ps ++ r) :
    getPacket s = (do
      let chksum ← recvData (joinLength lenH lenL).toNat 0 0
      let c ← comChannelGetc
      if c ≠ chksum then pure failed else pure successed : Prog UInt8)
        { s.withRx r with pac := ⟨cmd, joinLength lenH lenL⟩ } := by
  obtain ⟨hvals⟩ := hps
  rcases ps with _ | ⟨p₀, _ | ⟨p₁, _ | ⟨p₂, _ | ⟨p₃, _ | ⟨p₄, _ | ⟨p₅, _ | ⟨p₆, ps⟩⟩⟩⟩⟩⟩⟩ <;>
    simp only [values, List.map_nil, List.map_cons, List.cons.injEq, reduceCtorEq, and_false,
      and_true] at hvals
  obtain ⟨h₀, h₁, h₂, rfl, rfl, rfl⟩ := hvals
  rw [getPacket, bind_of_ok (comChannelGetc_cons hrx), if_neg (not_not.mpr h₀),
    bind_of_ok (comChannelGetc_cons rfl), if_neg (not_not.mpr h₁),
    bind_of_ok (comChannelGetc_cons rfl), if_neg (not_not.mpr h₂),
    bind_of_ok (comChannelGetc_cons rfl), bind_of_ok (comChannelGetc_cons rfl),
    bind_of_ok (comChannelGetc_cons rfl), bind_of_ok (modify_apply _ _)]
  rfl

/-- A complete frame that fits the buffer is consumed exactly; it is accepted when its last
byte is the sum of its data. -/
theorem getPacket_frame {s : Machine} {ps ds r : List UartPoll} {k : UartPoll}
    {cmd lenH lenL : UInt8} (hps : Preamble ps cmd lenH lenL)
    (hrx : s.rx = ps ++ (ds ++ k :: r)) (hds : ds.length = (joinLength lenH lenL).toNat)
    (hfits : ds.length ≤ bufferSize) :
    getPacket s =
      .ok (if k.value ≠ (values ds).sum then failed else successed)
        { s.withRx r with
          pac := ⟨cmd, joinLength lenH lenL⟩
          blBuffer := overlay s.blBuffer 0 (values ds) } := by
  rw [getPacket_preamble hps hrx, ← hds, bind_of_ok (recvData_of_fits 0 rfl (by omega)),
    bind_of_ok (comChannelGetc_cons rfl), UInt8.zero_add]
  split <;> rfl

/-- A frame that announces more data than the buffer holds makes the data loop store past
the end of the buffer, as soon as the data is there. -/
theorem getPacket_overrun {s : Machine} {ps r : List UartPoll} {cmd lenH lenL : UInt8}
    (hps : Preamble ps cmd lenH lenL) (hrx : s.rx = ps ++ r)
    (hlong : bufferSize < (joinLength lenH lenL).toNat) (hr : bufferSize < r.length) :
    ∃ t, getPacket s = .error (.overrun bufferSize) t := by
  obtain ⟨t, ht⟩ := recvData_of_overrun (r.take (bufferSize + 1)) 0 (i := 0)
    (n := (joinLength lenH lenL).toNat)
    (s := { s.withRx r with pac := ⟨cmd, joinLength lenH lenL⟩ })
    (List.take_append_drop _ r).symm (by rw [List.length_take]; omega)
    (by rw [List.length_take]; omega) (by omega)
  exact ⟨t, by rw [getPacket_preamble hps hrx, bind_of_error ht]⟩

/-! ### Decoding an encoded frame -/

/-- An encoding is a preamble, the data and their sum. -/
theorem encode_eq (f : Frame) : encode f =
    [header, header, header, f.cmd, (f.length >>> 8).toUInt8, (f.length &&& 0xFF).toUInt8]
      ++ (f.data ++ [f.data.sum]) := by
  rw [encode, List.append_assoc]

/-- `get_packet` accepts polls that show the image of a frame, consuming exactly them. -/
theorem getPacket_image {s : Machine} {f : Frame} {ps r : List UartPoll} (hrx : s.rx = ps ++ r)
    (hps : values ps = encode f) : getPacket s = .ok successed ((s.withRx r).holding f) := by
  rw [encode_eq] at hps
  obtain ⟨pre, qs, rfl, hpre, hqs⟩ := List.map_eq_append_iff.mp hps
  obtain ⟨ds, ks, rfl, hds, hks⟩ := List.map_eq_append_iff.mp hqs
  obtain ⟨k, rfl, hk⟩ := List.map_eq_singleton_iff.mp hks
  have hjoin := joinLength_split f.length
  have hlen : ds.length = f.data.length := by rw [← hds, List.length_map]
  have hdata : values ds = f.data := hds
  rw [List.append_assoc, List.append_assoc] at hrx
  rw [getPacket_frame ⟨hpre⟩ hrx (by rw [hjoin, f.toNat_length, hlen]) (by rw [hlen]; exact f.fits),
    hk, hdata, if_neg (not_not.mpr rfl), hjoin]
  rfl

/-- `get_packet` accepts the image of a frame, consuming exactly it. -/
theorem getPacket_encode {s : Machine} {f : Frame} {r : List UartPoll}
    (hrx : s.rx = (encode f).map .byte ++ r) :
    getPacket s = .ok successed ((s.withRx r).holding f) :=
  getPacket_image hrx (values_byte _)

/-- Lines of bytes are equal when their bytes are. -/
private theorem map_byte_injective {xs ys : List UInt8} (h : xs.map UartPoll.byte = ys.map .byte) :
    xs = ys := by
  rw [← values_byte xs, h, values_byte]

/-- The image of a frame is never the start of the image of another: what follows it and the
frame itself can be read off. -/
theorem encode_append_inj {f g : Frame} {xs ys : List UInt8}
    (h : encode f ++ xs = encode g ++ ys) : f = g ∧ xs = ys := by
  let s : Machine := .reset ((encode f ++ xs).map .byte) .unformatted .blank
  have hf : getPacket s = .ok successed ((s.withRx (xs.map .byte)).holding f) :=
    getPacket_encode (by simp [s, Machine.reset])
  have hg : getPacket s = .ok successed ((s.withRx (ys.map .byte)).holding g) :=
    getPacket_encode (by simp [s, Machine.reset, h])
  have heq := hf.symm.trans hg
  simp only [EStateM.Result.ok.injEq, true_and] at heq
  have hcmd : f.cmd = g.cmd := congrArg (·.pac.cmd) heq
  have hlen : f.data.length = g.data.length := by
    rw [← f.toNat_length, ← g.toNat_length]
    exact congrArg (·.pac.length.toNat) heq
  have hdata : f.data = g.data := by
    rw [← Machine.slice_holding (s.withRx (xs.map .byte)) f,
      ← Machine.slice_holding (s.withRx (ys.map .byte)) g, heq, hlen]
  exact ⟨Frame.ext hcmd hdata, map_byte_injective (congrArg (·.rx) heq)⟩

/-- No two frames have one encoding. -/
theorem encode_injective {f g : Frame} (h : encode f = encode g) : f = g :=
  (encode_append_inj (congrArg (· ++ []) h)).1

/-- A concatenation of images determines the frames. -/
theorem flatMap_encode_injective {fs gs : List Frame} (h : fs.flatMap encode = gs.flatMap encode) :
    fs = gs := by
  induction fs generalizing gs with
  | nil =>
      cases gs with
      | nil => rfl
      | cons g gs => simp [encode] at h
  | cons f fs ih =>
      cases gs with
      | nil => simp [encode] at h
      | cons g gs =>
          rw [List.flatMap_cons, List.flatMap_cons] at h
          obtain ⟨rfl, hrest⟩ := encode_append_inj h
          rw [ih hrest]

/-! ### Inverting an accepted frame -/

/-- A poll that returns has taken the first one off the line. -/
theorem comChannelGetc_eq_ok {s t : Machine} {b : UInt8} (h : comChannelGetc s = .ok b t) :
    ∃ p r, s.rx = p :: r ∧ b = p.value ∧ t = s.withRx r := by
  cases hrx : s.rx with
  | nil =>
      rw [comChannelGetc_nil hrx] at h
      cases h
  | cons p r =>
      rw [comChannelGetc_cons hrx] at h
      cases h
      exact ⟨p, r, rfl, rfl, rfl⟩

/-- A store that returns was inside the buffer. -/
theorem storeBuffer_eq_ok {s t : Machine} {i : ℕ} {b : UInt8} (h : storeBuffer i b s = .ok () t) :
    i < bufferSize ∧ t = { s with blBuffer := Function.update s.blBuffer i b } := by
  rcases Nat.lt_or_ge i bufferSize with hlt | hge
  · rw [storeBuffer_of_lt hlt] at h
    cases h
    exact ⟨hlt, rfl⟩
  · rw [storeBuffer_of_le hge] at h
    cases h

/-- A data loop that ends received its bytes and stored them inside the buffer. -/
theorem recvData_eq_ok {n i : ℕ} {c k : UInt8} {s t : Machine} (hi : i ≤ bufferSize)
    (h : recvData n i c s = .ok k t) :
    ∃ ps r, s.rx = ps ++ r ∧ ps.length = n ∧ i + n ≤ bufferSize ∧ k = c + (values ps).sum ∧
      t = { s.withRx r with blBuffer := overlay s.blBuffer i (values ps) } := by
  induction n generalizing i c s with
  | zero =>
      cases h
      exact ⟨[], t.rx, rfl, rfl, hi, by simp [values], by simp [values, Machine.withRx]⟩
  | succ n ih =>
      rw [recvData, bind_eq_ok] at h
      obtain ⟨b, s₁, hget, h⟩ := h
      obtain ⟨p, r, hrx, rfl, rfl⟩ := comChannelGetc_eq_ok hget
      rw [bind_eq_ok] at h
      obtain ⟨⟨⟩, s₂, hstore, h⟩ := h
      obtain ⟨hlt, rfl⟩ := storeBuffer_eq_ok hstore
      obtain ⟨ps, q, hps, hlen, hfits, hk, ht⟩ := ih hlt h
      refine ⟨p :: ps, q, ?_, by rw [List.length_cons, hlen], by omega, ?_, ?_⟩
      · rw [hrx, List.cons_append, ← hps]
        rfl
      · rw [hk, values_cons, List.sum_cons, UInt8.add_assoc]
      · rw [values_cons, ← overlay_update]
        exact ht

/-- A test that gives up was passed where the end is a success. -/
private theorem ite_failed_eq_ok {c : Prop} [Decidable c] {x : Prog UInt8} {s t : Machine} :
    (if c then pure failed else x) s = .ok successed t ↔ ¬ c ∧ x s = .ok successed t := by
  by_cases h : c
  · simp [h, failed, successed]
  · simp [h]

/-- An accepted frame was received: the polls `get_packet` consumed are the image of the
frame it leaves, and everything else is as it was. -/
theorem getPacket_successed {s t : Machine} (h : getPacket s = .ok successed t) :
    ∃ (f : Frame) (ps r : List UartPoll), s.rx = ps ++ r ∧ values ps = encode f ∧
      t = (s.withRx r).holding f := by
  simp only [getPacket, bind_eq_ok, ite_failed_eq_ok, not_not] at h
  obtain ⟨_, _, g₀, h₀, _, _, g₁, h₁, _, _, g₂, h₂, _, _, g₃, _, _, g₄, _, _, g₅, h⟩ := h
  obtain ⟨p₀, r₀, e₀, rfl, rfl⟩ := comChannelGetc_eq_ok g₀
  obtain ⟨p₁, r₁, e₁, rfl, rfl⟩ := comChannelGetc_eq_ok g₁
  obtain ⟨p₂, r₂, e₂, rfl, rfl⟩ := comChannelGetc_eq_ok g₂
  obtain ⟨p₃, r₃, e₃, rfl, rfl⟩ := comChannelGetc_eq_ok g₃
  obtain ⟨p₄, r₄, e₄, rfl, rfl⟩ := comChannelGetc_eq_ok g₄
  obtain ⟨p₅, r₅, e₅, rfl, rfl⟩ := comChannelGetc_eq_ok g₅
  obtain ⟨_, _, hmod, chksum, s₆, hrecv, _, _, g₆, hk, hdone⟩ := h
  cases hmod
  obtain ⟨ds, q, hds, hlen, hfits, hsum, rfl⟩ := recvData_eq_ok (Nat.zero_le _) hrecv
  obtain ⟨p₆, r₆, e₆, rfl, rfl⟩ := comChannelGetc_eq_ok g₆
  cases hdone
  have hlength : UInt16.ofNat ds.length = joinLength p₄.value p₅.value := by
    rw [hlen, UInt16.ofNat_toNat]
  refine ⟨⟨p₃.value, values ds, by rw [length_values]; omega⟩,
    p₀ :: p₁ :: p₂ :: p₃ :: p₄ :: p₅ :: (ds ++ [p₆]), r₆, ?_, ?_, ?_⟩
  · simp_all
  · simp only [values_cons, values_append, values_nil, h₀, h₁, h₂, hk, hsum, encode, Frame.length,
      length_values, hlength, joinLength_hi, joinLength_lo, UInt8.zero_add]
    rfl
  · simp [Machine.holding, Machine.withRx, Frame.length, hlength]

/-! ### The round trip -/

/-- Send frames back to back. -/
def sendPackets : List Frame → Prog Unit
  | [] => pure ()
  | f :: fs => do
      modify (·.holding f)
      let _ ← putPacket
      sendPackets fs

/-- Receive `n` packets: what each `get_packet` returned, with the packet it left. -/
def receivePackets : ℕ → Prog (List (UInt8 × UInt8 × List UInt8))
  | 0 => pure []
  | n + 1 => do
      let r ← getPacket
      let s ← get
      let rest ← receivePackets n
      pure ((r, s.pac.cmd, slice s.blBuffer 0 s.pac.length.toNat) :: rest)

/-- The frame in a machine that holds one. -/
theorem frame_holding (s : Machine) (f : Frame) (h : (s.holding f).pac.length.toNat ≤ bufferSize) :
    (s.holding f).frame h = f := by
  have hdata : slice (s.holding f).blBuffer 0 (s.holding f).pac.length.toNat = f.data := by
    rw [s.length_holding f, Machine.slice_holding]
  exact Frame.ext (f := (s.holding f).frame h) (g := f) rfl hdata

/-- What `put_packet` sends of it. -/
theorem sentBy_putPacket_holding (s : Machine) (f : Frame) :
    sentBy putPacket (s.holding f) = encode f := by
  have hfits : (s.holding f).pac.length.toNat ≤ bufferSize := by
    rw [s.length_holding f]
    exact f.fits
  rw [sentBy_putPacket _ hfits, frame_holding]

/-- Packets are sent one after the other. -/
theorem sendPackets_apply (fs : List Frame) (s : Machine) :
    ∃ t, sendPackets fs s = .ok () t ∧ t.trace = s.trace ++ (fs.flatMap encode).map .tx := by
  induction fs generalizing s with
  | nil => exact ⟨s, rfl, by simp⟩
  | cons f fs ih =>
      have hfits : (s.holding f).pac.length.toNat ≤ bufferSize := by
        rw [s.length_holding f]
        exact f.fits
      obtain ⟨t, ht, htrace⟩ := ih { s.holding f with
        trace := (s.holding f).trace ++ (encode ((s.holding f).frame hfits)).map .tx }
      refine ⟨t, ?_, ?_⟩
      · rw [sendPackets, bind_of_ok (modify_apply _ s), bind_of_ok (putPacket_apply _ hfits), ht]
      · rw [htrace, frame_holding, List.flatMap_cons, List.map_append, List.append_assoc]
        rfl

/-- What they put on the channel. -/
theorem sentBy_sendPackets (fs : List Frame) (s : Machine) :
    sentBy (sendPackets fs) s = fs.flatMap encode := by
  obtain ⟨t, ht, htrace⟩ := sendPackets_apply fs s
  rw [sentBy, ht, after, htrace]
  simp

/-- Back-to-back images are received as the same frames, and nothing beyond them is read. -/
theorem receivePackets_encode (fs : List Frame) {s : Machine} {r : List UartPoll}
    (hrx : s.rx = (fs.flatMap encode).map .byte ++ r) :
    ∃ t, receivePackets fs.length s = .ok (fs.map fun f => (successed, f.cmd, f.data)) t ∧
      t.rx = r := by
  induction fs generalizing s with
  | nil => exact ⟨s, rfl, hrx⟩
  | cons f fs ih =>
      rw [List.flatMap_cons, List.map_append, List.append_assoc] at hrx
      obtain ⟨t, ht, hr⟩ :=
        ih (s := (s.withRx ((fs.flatMap encode).map .byte ++ r)).holding f) rfl
      refine ⟨t, ?_, hr⟩
      rw [List.length_cons, receivePackets, bind_of_ok (getPacket_encode hrx),
        bind_of_ok (get_apply _), bind_of_ok ht, Machine.length_holding, Machine.slice_holding]
      rfl

/-- **The frame codec is a round trip.** What `put_packet` emits for a frame, `get_packet`
accepts as that frame, leaving whatever follows unread; whatever `get_packet` accepts is
what `put_packet` emits for the packet it leaves; and frames sent back to back are
received one by one. -/
theorem putPacket_getPacket_roundTrip :
    (∀ (f : Frame) (s t : Machine) (r : List UartPoll), ∃ t',
      getPacket (t.withRx ((sentBy putPacket (s.holding f)).map .byte ++ r)) =
        .ok successed t' ∧
      t'.pac.cmd = f.cmd ∧ t'.pac.length.toNat = f.data.length ∧
      slice t'.blBuffer 0 f.data.length = f.data ∧ t'.rx = r) ∧
    (∀ s t : Machine, getPacket s = .ok successed t →
      ∃ ps, s.rx = ps ++ t.rx ∧ values ps = sentBy putPacket t) ∧
    (∀ (fs : List Frame) (s t : Machine) (r : List UartPoll), ∃ t',
      receivePackets fs.length (t.withRx ((sentBy (sendPackets fs) s).map .byte ++ r)) =
        .ok (fs.map fun f => (successed, f.cmd, f.data)) t' ∧ t'.rx = r) := by
  refine ⟨?_, ?_, ?_⟩
  · intro f s t r
    rw [sentBy_putPacket_holding]
    exact ⟨_, getPacket_encode rfl, rfl, f.toNat_length, Machine.slice_holding _ f, rfl⟩
  · intro s t h
    obtain ⟨f, ps, r, hrx, hps, rfl⟩ := getPacket_successed h
    exact ⟨ps, hrx, by rw [hps, sentBy_putPacket_holding]⟩
  · intro fs s t r
    rw [sentBy_sendPackets]
    exact receivePackets_encode fs rfl

/-- A frame whose data are a frame, with the header bytes and a command of its own. -/
def nestedFrame : Frame := ⟨cmdFlashWrite, encode (.request cmdChkProtocol), by decide⟩

/-- The middle part of the round trip on header bytes inside the data, with more on the line. -/
theorem putPacket_getPacket_roundTrip_nested :
    let r : List UartPoll := [.timeout 0, .byte header]
    let s : Machine := .reset ((encode nestedFrame).map .byte ++ r) .unformatted .blank
    ∃ ps, s.rx = ps ++ r ∧ values ps = sentBy putPacket ((s.withRx r).holding nestedFrame) :=
  putPacket_getPacket_roundTrip.2.1 _ _
    (getPacket_encode (f := nestedFrame) (r := [.timeout 0, .byte header]) rfl)

/-! ### The documented checksum -/

/-- `CHECKSUM : sum(data) % 255`, as the packet format comment has it. -/
def documentedChecksum (data : List UInt8) : ℕ := (data.map UInt8.toNat).sum % 255

/-- The sum the two loops compute is the sum modulo 256. -/
theorem toNat_sum (data : List UInt8) : data.sum.toNat = (data.map UInt8.toNat).sum % 256 := by
  induction data with
  | nil => rfl
  | cons b data ih =>
      rw [List.sum_cons, UInt8.toNat_add, ih, List.map_cons, List.sum_cons]
      omega

/-- The two moduli agree on a sum exactly when it is below 255 modulo their product. -/
theorem mod_agree_iff (n : ℕ) : n % 256 = n % 255 ↔ n % 65280 < 255 := by
  omega

/-- The most bytes one call of `get_packet` can read. -/
def longestFrame : ℕ := 65542

/-- The machine reading an endless byte stream, of which one call sees at most
`longestFrame` bytes. -/
def Machine.onStream (s : Machine) (bs : ℕ → UInt8) : Machine :=
  s.withRx ((slice bs 0 longestFrame).map .byte)

/-- The LENGTH field of a stream that starts with a preamble. -/
def streamLength (bs : ℕ → UInt8) : ℕ := (bs 4).toNat * 256 + (bs 5).toNat

/-- The stream starts with a frame in the documented format that fits the buffer. -/
def DocumentedFrame (bs : ℕ → UInt8) (cmd : UInt8) (data : List UInt8) : Prop :=
  bs 0 = header ∧ bs 1 = header ∧ bs 2 = header ∧ bs 3 = cmd ∧
    streamLength bs = data.length ∧ data.length ≤ bufferSize ∧
    data = slice bs 6 data.length ∧ (bs (6 + data.length)).toNat = documentedChecksum data

/-- `get_packet` accepts exactly the documented frames on this stream, and fails on it
otherwise. -/
def ReceivesDocumented (bs : ℕ → UInt8) : Prop :=
  ∀ s : Machine,
    (∀ cmd data, DocumentedFrame bs cmd data ↔
      ∃ t, getPacket (s.onStream bs) = .ok successed t ∧ t.pac.cmd = cmd ∧
        t.pac.length.toNat = data.length ∧ slice t.blBuffer 0 data.length = data) ∧
    ((¬ ∃ cmd data, DocumentedFrame bs cmd data) →
      ∃ t, getPacket (s.onStream bs) = .ok failed t)

/-- `put_packet` ends the image of this frame with the documented checksum. -/
def SendsDocumented (f : Frame) : Prop :=
  ∀ s : Machine, ∃ front c, sentBy putPacket (s.holding f) = front ++ [c] ∧
    c.toNat = documentedChecksum f.data

/-- The condition on a stream: when it starts with the three headers, its length field fits
the buffer, and its checksum byte does not fall where the two moduli differ. -/
def StreamAgrees (bs : ℕ → UInt8) : Prop :=
  bs 0 = header → bs 1 = header → bs 2 = header →
    streamLength bs ≤ bufferSize ∧
    let sum := ((slice bs 6 (streamLength bs)).map UInt8.toNat).sum
    let chksum := (bs (6 + streamLength bs)).toNat
    sum % 65280 < 255 ∨ chksum ≠ sum % 256 ∧ chksum ≠ sum % 255

section Stream

variable (s : Machine) (bs : ℕ → UInt8)

/-- The LENGTH field as `get_packet` joins it. -/
theorem streamLength_eq : streamLength bs = (joinLength (bs 4) (bs 5)).toNat :=
  (joinLength_toNat _ _).symm

/-- The LENGTH field has 16 bits. -/
theorem streamLength_lt : streamLength bs < 65536 := by
  have h₄ := (bs 4).toNat_lt
  have h₅ := (bs 5).toNat_lt
  rw [streamLength]
  omega

/-- The input of a stream, cut after the preamble. -/
theorem rx_onStream : (s.onStream bs).rx =
    (slice bs 0 6).map .byte ++ (slice bs 6 (longestFrame - 6)).map .byte := by
  rw [Machine.onStream, Machine.rx_withRx, ← List.map_append, ← slice_append bs 0 6]
  rfl

variable {bs}

/-- A stream that starts with the three headers starts with a preamble. -/
theorem preamble_stream (h₀ : bs 0 = header) (h₁ : bs 1 = header) (h₂ : bs 2 = header) :
    Preamble ((slice bs 0 6).map .byte) (bs 3) (bs 4) (bs 5) := by
  refine ⟨?_⟩
  rw [values_byte]
  simp only [slice_succ, slice_zero, h₀, h₁, h₂]

/-- A stream that does not start with the three headers is refused. -/
theorem getPacket_onStream_noise (h : ¬ (bs 0 = header ∧ bs 1 = header ∧ bs 2 = header)) :
    ∃ t, getPacket (s.onStream bs) = .ok failed t := by
  have hrx : (s.onStream bs).rx = .byte (bs 0) :: .byte (bs 1) :: .byte (bs 2) ::
      (slice bs 3 (longestFrame - 3)).map .byte := rfl
  by_cases h₀ : bs 0 = header
  · by_cases h₁ : bs 1 = header
    · have h₂ : bs 2 ≠ header := fun h₂ => h ⟨h₀, h₁, h₂⟩
      exact ⟨_, getPacket_noise [.byte (bs 0), .byte (bs 1)] hrx
        (by simp [UartPoll.value, h₀, h₁]) (by simp) h₂⟩
    · exact ⟨_, getPacket_noise [.byte (bs 0)] hrx (by simp [UartPoll.value, h₀])
        (by simp) h₁⟩
  · exact ⟨_, getPacket_noise [] hrx (by simp) (by simp) h₀⟩

/-- A stream that starts with a frame fitting the buffer is accepted on its sum. -/
theorem getPacket_onStream_frame (h₀ : bs 0 = header) (h₁ : bs 1 = header)
    (h₂ : bs 2 = header) (hfits : streamLength bs ≤ bufferSize) :
    ∃ t, getPacket (s.onStream bs) =
        .ok (if bs (6 + streamLength bs) ≠ (slice bs 6 (streamLength bs)).sum then failed
          else successed) t ∧
      t.pac.cmd = bs 3 ∧ t.pac.length.toNat = streamLength bs ∧
      slice t.blBuffer 0 (streamLength bs) = slice bs 6 (streamLength bs) := by
  have hlt := streamLength_lt bs
  have hcut : longestFrame - 6 = streamLength bs + (1 + (65535 - streamLength bs)) := by
    rw [longestFrame]
    omega
  have hrx := rx_onStream s bs
  rw [hcut, slice_append, slice_append bs _ 1, List.map_append, List.map_append] at hrx
  have hget := getPacket_frame (preamble_stream h₀ h₁ h₂) hrx (by simp [streamLength_eq])
    (by simpa using hfits)
  have hdata := slice_overlay (s.onStream bs).blBuffer 0 (slice bs 6 (streamLength bs))
  rw [length_slice] at hdata
  rw [values_byte] at hget
  exact ⟨_, hget, rfl, (streamLength_eq bs).symm, hdata⟩

/-- A stream whose length field exceeds the buffer makes `get_packet` leave the buffer. -/
theorem getPacket_onStream_overrun (h₀ : bs 0 = header) (h₁ : bs 1 = header)
    (h₂ : bs 2 = header) (hlong : bufferSize < streamLength bs) :
    ∃ t, getPacket (s.onStream bs) = .error (.overrun bufferSize) t := by
  rw [streamLength_eq] at hlong
  exact getPacket_overrun (preamble_stream h₀ h₁ h₂) (rx_onStream s bs) hlong
    (by simp [longestFrame, bufferSize])

end Stream

/-- On a frame that fits the buffer, the documented checksum and the one `get_packet`
computes accept the same byte exactly under the condition of `StreamAgrees`. -/
theorem checksum_agrees_iff (data : List UInt8) (c : UInt8) :
    (c.toNat = documentedChecksum data ↔ c = data.sum) ↔
      (data.map UInt8.toNat).sum % 65280 < 255 ∨
        c.toNat ≠ (data.map UInt8.toNat).sum % 256 ∧
        c.toNat ≠ (data.map UInt8.toNat).sum % 255 := by
  rw [← UInt8.toNat_inj, toNat_sum, documentedChecksum, ← mod_agree_iff]
  generalize (data.map UInt8.toNat).sum = n
  omega

/-- Behind a preamble, a documented frame is one whose data and checksum are where the LENGTH field
says. -/
theorem documentedFrame_iff {bs : ℕ → UInt8} {cmd : UInt8} {data : List UInt8}
    (h₀ : bs 0 = header) (h₁ : bs 1 = header) (h₂ : bs 2 = header)
    (hfits : streamLength bs ≤ bufferSize) :
    DocumentedFrame bs cmd data ↔
      (bs 3 = cmd ∧ data = slice bs 6 (streamLength bs)) ∧
      (bs (6 + streamLength bs)).toNat = documentedChecksum (slice bs 6 (streamLength bs)) := by
  constructor
  · rintro ⟨-, -, -, hcmd, hlen, -, hdata, hchk⟩
    rw [← hlen] at hdata hchk
    exact ⟨⟨hcmd, hdata⟩, hdata ▸ hchk⟩
  · rintro ⟨⟨hcmd, rfl⟩, hchk⟩
    simpa [DocumentedFrame, h₀, h₁, h₂, hcmd, hfits] using hchk

/-- The receiver is as documented on a stream exactly when the two moduli agree on it. -/
theorem receivesDocumented_iff (bs : ℕ → UInt8) :
    ReceivesDocumented bs ↔ StreamAgrees bs := by
  by_cases hh : bs 0 = header ∧ bs 1 = header ∧ bs 2 = header
  case neg =>
    -- No preamble: nothing is documented, and the attempt fails.
    refine iff_of_true (fun s => ?_) (fun h₀ h₁ h₂ => absurd ⟨h₀, h₁, h₂⟩ hh)
    obtain ⟨t, ht⟩ := getPacket_onStream_noise s hh
    refine ⟨fun cmd data => iff_of_false (fun hdoc => hh ⟨hdoc.1, hdoc.2.1, hdoc.2.2.1⟩) ?_,
      fun _ => ⟨t, ht⟩⟩
    rintro ⟨u, hu, -⟩
    rw [ht] at hu
    cases hu
  obtain ⟨h₀, h₁, h₂⟩ := hh
  rcases Nat.lt_or_ge bufferSize (streamLength bs) with hlong | hfits
  · -- The buffer is left, so `get_packet` does not even return.
    refine iff_of_false (fun h => ?_) (fun h => absurd (h h₀ h₁ h₂).1 (by omega))
    obtain ⟨t, ht⟩ := getPacket_onStream_overrun (.reset [] .unformatted .blank) h₀ h₁ h₂ hlong
    obtain ⟨u, hu⟩ := (h (.reset [] .unformatted .blank)).2 (by
      rintro ⟨cmd, data, hdoc⟩
      have := hdoc.2.2.2.2.1
      have := hdoc.2.2.2.2.2.1
      omega)
    rw [ht] at hu
    cases hu
  have hagrees : StreamAgrees bs ↔
      ((bs (6 + streamLength bs)).toNat = documentedChecksum (slice bs 6 (streamLength bs)) ↔
        bs (6 + streamLength bs) = (slice bs 6 (streamLength bs)).sum) := by
    rw [checksum_agrees_iff]
    exact ⟨fun h => (h h₀ h₁ h₂).2, fun h _ _ _ => ⟨hfits, h⟩⟩
  rw [hagrees]
  constructor
  · intro h
    obtain ⟨t, ht, hcmd, hlen, hdata⟩ :=
      getPacket_onStream_frame (.reset [] .unformatted .blank) h₀ h₁ h₂ hfits
    obtain ⟨hacc, hrej⟩ := h (.reset [] .unformatted .blank)
    constructor
    · intro hdoc
      obtain ⟨u, hu, -⟩ := (hacc (bs 3) (slice bs 6 (streamLength bs))).mp
        ((documentedFrame_iff h₀ h₁ h₂ hfits).mpr ⟨⟨rfl, rfl⟩, hdoc⟩)
      by_contra hne
      rw [ht, if_pos hne] at hu
      cases hu
    · intro hsum
      by_contra hdoc
      obtain ⟨u, hu⟩ := hrej (by
        rintro ⟨cmd, data, hd⟩
        exact hdoc ((documentedFrame_iff h₀ h₁ h₂ hfits).mp hd).2)
      rw [ht, if_neg (not_not.mpr hsum)] at hu
      cases hu
  · intro hiff s
    obtain ⟨t, ht, hcmd, hlen, hdata⟩ := getPacket_onStream_frame s h₀ h₁ h₂ hfits
    simp only [documentedFrame_iff h₀ h₁ h₂ hfits, hiff]
    constructor
    · intro cmd data
      constructor
      · rintro ⟨⟨rfl, rfl⟩, hsum⟩
        rw [if_neg (not_not.mpr hsum)] at ht
        exact ⟨t, ht, hcmd, by simpa using hlen, by simpa using hdata⟩
      · rintro ⟨u, hu, hucmd, hulen, hudata⟩
        by_cases hsum : bs (6 + streamLength bs) = (slice bs 6 (streamLength bs)).sum
        · rw [ht, if_neg (not_not.mpr hsum)] at hu
          cases hu
          rw [← hulen, hlen, hdata] at hudata
          exact ⟨⟨hcmd.symm.trans hucmd, hudata.symm⟩, hsum⟩
        · rw [ht, if_pos hsum] at hu
          cases hu
    · intro hnone
      have hsum : bs (6 + streamLength bs) ≠ (slice bs 6 (streamLength bs)).sum :=
        fun hsum => hnone ⟨_, _, ⟨rfl, rfl⟩, hsum⟩
      rw [if_pos hsum] at ht
      exact ⟨t, ht⟩

/-- The sender is as documented on data exactly when the two moduli agree on their sum. -/
theorem sendsDocumented_iff (f : Frame) :
    SendsDocumented f ↔ (f.data.map UInt8.toNat).sum % 65280 < 255 := by
  have hlast : SendsDocumented f ↔ f.data.sum.toNat = documentedChecksum f.data := by
    constructor
    · intro h
      obtain ⟨front, c, hfront, hc⟩ := h (.reset [] .unformatted .blank)
      rw [sentBy_putPacket_holding, encode] at hfront
      obtain ⟨-, hlast⟩ := List.append_inj' hfront rfl
      cases hlast
      exact hc
    · intro h s
      rw [sentBy_putPacket_holding, encode]
      exact ⟨_, _, rfl, h⟩
  rw [hlast, toNat_sum, documentedChecksum, mod_agree_iff]

/-- **When the code follows the documented packet format.** The receiver's verdict on a
stream is the documented one exactly when the stream meets `StreamAgrees`; the sender's
checksum is the documented one exactly when the data sum is below 255 modulo 65280. -/
theorem getPacket_documented_iff (bs : ℕ → UInt8) (f : Frame) :
    (ReceivesDocumented bs ↔ StreamAgrees bs) ∧
    (SendsDocumented f ↔ (f.data.map UInt8.toNat).sum % 65280 < 255) :=
  ⟨receivesDocumented_iff bs, sendsDocumented_iff f⟩

/-- A frame with the one data byte 255: its sum is 255 modulo 256, and 0 modulo 255. -/
def driftFrame : Frame := ⟨cmdChkProtocol, [255], by decide⟩

/-- The image of `driftFrame` is accepted although its checksum byte is not the documented
one, and `put_packet` emits it. -/
theorem driftFrame_not_documented :
    ¬ ReceivesDocumented (fun i => (encode driftFrame).getD i 0) ∧
      ¬ SendsDocumented driftFrame := by
  rw [receivesDocumented_iff, sendsDocumented_iff]
  refine ⟨fun h => ?_, by decide⟩
  have hcond := (h rfl rfl rfl).2
  revert hcond
  decide

end Num487Boot
