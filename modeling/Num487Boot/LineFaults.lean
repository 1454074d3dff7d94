import Num487Boot.Resync

/-!
# Faults of the Receive Line

What `get_packet` makes of a line that loses or changes bytes.

A poll of the UART may time out. `UART_Read` then reports that it has read nothing, but
`com_channel_getc` drops the report and returns its indeterminate variable, so `get_packet`
works with the residues of time-outs as with received bytes. It accepts received bytes only as
long as no residue completes a frame.

A changed byte among the data or the checksum of a frame is noticed by the sum, and the attempt
has by then consumed exactly the frame, whatever its data looks like.

## Main results

* `getPacket_status`, `getPacket_consumes`: any attempt that returns.
* `onlyReceived_iff`: when what is accepted was received.
* `corruptedFrame_contained`: one changed byte of data or checksum.
-/

namespace Num487Boot

open Exec

/-! ### Any attempt that returns -/

/-- `get_packet` returns one of two values. -/
theorem getPacket_status {s t : Machine} {v : UInt8} (h : getPacket s = .ok v t) :
    v = failed ∨ v = successed := by
  have hgets : Triple (fun _ => True) getPacket (fun v _ => v = failed ∨ v = successed)
      fun _ _ => True := by
    refine .bind (.any _) fun _ => .ite (fun _ => .pure fun _ _ => .inl rfl) fun _ => ?_
    refine .bind (.any _) fun _ => .ite (fun _ => .pure fun _ _ => .inl rfl) fun _ => ?_
    refine .bind (.any _) fun _ => .ite (fun _ => .pure fun _ _ => .inl rfl) fun _ => ?_
    refine .bind (.any _) fun _ => .bind (.any _) fun _ => .bind (.any _) fun _ => ?_
    refine .bind (.any _) fun _ => .bind (.any _) fun _ => .bind (.any _) fun _ => ?_
    exact .ite (fun _ => .pure fun _ _ => .inl rfl) fun _ => .pure fun _ _ => .inr rfl
  have hv := hgets s trivial
  rw [h] at hv
  exact hv

/-- What is left of the receive line is an end of it. -/
def Consumes (s t : Machine) : Prop := t.rx <:+ s.rx

instance : Std.Refl Consumes where
  refl s := List.suffix_refl s.rx

instance : IsTrans Machine Consumes where
  trans _ _ _ h₁ h₂ := List.IsSuffix.trans h₂ h₁

/-- Receiving a packet consumes a part of the line. -/
theorem getPacket_consumes : Moves Consumes getPacket :=
  getPacket_moves (fun s p r h => by rw [Consumes, h]; exact List.suffix_cons p r)
    (fun s _ => List.suffix_refl s.rx) fun s _ => List.suffix_refl s.rx

/-- The polls an attempt that returns has taken. -/
theorem getPacket_taken {s t : Machine} {v : UInt8} (h : getPacket s = .ok v t) :
    ∃ ps, s.rx = ps ++ t.rx := by
  obtain ⟨ps, hps⟩ := getPacket_consumes.of_ok h
  exact ⟨ps, hps.symm⟩

/-! ### Time-outs -/

/-- The poll received its byte. -/
def UartPoll.delivered : UartPoll → Bool
  | .byte _ => true
  | .timeout _ => false

/-- A line on which everything arrives is given by its bytes. -/
theorem eq_values_of_delivered {ps : List UartPoll} (h : ∀ p ∈ ps, p.delivered) :
    ps = (values ps).map .byte := by
  induction ps with
  | nil => rfl
  | cons p ps ih =>
      obtain ⟨hp, hps⟩ := List.forall_mem_cons.mp h
      cases p with
      | byte b => rw [values_cons, List.map_cons, ← ih hps]; rfl
      | timeout residue => cases hp

/-- Bytes arrive. -/
theorem delivered_of_mem_map_byte {bytes : List UInt8} {p : UartPoll}
    (h : p ∈ bytes.map UartPoll.byte) : p.delivered := by
  obtain ⟨b, -, rfl⟩ := List.mem_map.mp h
  rfl

/-- An attempt to receive from `s` goes by received bytes only: if it accepts, the polls it has
taken have all delivered their bytes, which in order are the image of the packet it leaves; and
if a poll it has taken timed out, it fails. -/
def OnlyReceived (s : Machine) : Prop :=
  ∀ v t, getPacket s = .ok v t → ∃ ps, s.rx = ps ++ t.rx ∧
    (v = successed → ∃ f, ps = (encode f).map .byte ∧ t = (s.withRx t.rx).holding f) ∧
    ((∃ p ∈ ps, p.delivered = false) → v = failed)

/-- Where the polls read as a frame, residues included, they are bytes of a frame. -/
def NoPhantom (rx : List UartPoll) : Prop :=
  ∀ f : Frame, encode f <+: values rx → ∀ p ∈ rx.take (encode f).length, p.delivered

/-- Without a phantom poll, what is used has been received. -/
theorem onlyReceived_of_noPhantom {s : Machine} (h : NoPhantom s.rx) : OnlyReceived s := by
  intro v t hget
  obtain ⟨ps, hps⟩ := getPacket_taken hget
  refine ⟨ps, hps, ?_⟩
  rcases getPacket_status hget with rfl | rfl
  · exact ⟨fun hv => absurd hv failed_ne_successed, fun _ => rfl⟩
  obtain ⟨f, qs, r, hqs, hvals, rfl⟩ := getPacket_successed hget
  obtain rfl : ps = qs := List.append_cancel_right (hps.symm.trans hqs)
  have hlen : (encode f).length = ps.length := by rw [← hvals, length_values]
  have hall : ∀ p ∈ ps, p.delivered := by
    have hfront := h f (by rw [hqs, values_append, hvals]; exact List.prefix_append _ _)
    rwa [hqs, hlen, List.take_left' rfl] at hfront
  constructor
  · intro _
    exact ⟨f, hvals ▸ eq_values_of_delivered hall, rfl⟩
  · rintro ⟨p, hp, htimeout⟩
    rw [hall p hp] at htimeout
    cases htimeout

/-- A frame that a residue completes is accepted. -/
theorem not_onlyReceived_of_phantom {s : Machine} {f : Frame} {ps r : List UartPoll}
    {p : UartPoll} (hrx : s.rx = ps ++ r) (hps : values ps = encode f) (hp : p ∈ ps)
    (htimeout : p.delivered = false) : ¬ OnlyReceived s := by
  intro h
  obtain ⟨qs, hqs, hbytes, -⟩ := h successed _ (getPacket_image hrx hps)
  obtain rfl : ps = qs := List.append_cancel_right (hrx.symm.trans hqs)
  obtain ⟨g, hg, -⟩ := hbytes rfl
  rw [delivered_of_mem_map_byte (hg ▸ hp)] at htimeout
  cases htimeout

/-- **Time-outs.** Whatever the timing of the line, `get_packet` goes by received bytes only
exactly when no frame at the front of the line is completed by the residue of a time-out. -/
theorem onlyReceived_iff (s : Machine) : OnlyReceived s ↔ NoPhantom s.rx := by
  constructor
  · rintro h f ⟨rest, hrest⟩ p hp
    by_contra htimeout
    obtain ⟨ps, r, hrx, hps, -⟩ := List.map_eq_append_iff.mp hrest.symm
    have hlen : (encode f).length = ps.length := by rw [← hps, List.length_map]
    rw [hrx, hlen, List.take_left' rfl] at hp
    exact not_onlyReceived_of_phantom hrx hps hp (by simpa using htimeout) h
  · exact onlyReceived_of_noPhantom

/-- A request whose checksum is never received: the residue of the last poll is 0. -/
def phantomChecksum : List UartPoll :=
  [header, header, header, cmdChkProtocol, 0, 0].map .byte ++ [.timeout 0]

/-- The residue is accepted for the checksum of `phantomChecksum`. -/
theorem phantomChecksum_accepted :
    ¬ OnlyReceived (.connected phantomChecksum .unformatted .blank) :=
  not_onlyReceived_of_phantom (f := .request cmdChkProtocol) (p := .timeout 0)
    (List.append_nil phantomChecksum).symm rfl
    (List.mem_append_right _ (List.mem_singleton.mpr rfl)) rfl

/-! ### Changed bytes -/

/-- The bytes of a frame up to its data. -/
def Frame.preamble (f : Frame) : List UInt8 :=
  [header, header, header, f.cmd, (f.length >>> 8).toUInt8, (f.length &&& 0xFF).toUInt8]

/-- Replacing one of the bytes changes their 8-bit sum. -/
theorem sum_set_ne {data : List UInt8} {i : ℕ} {b : UInt8} (hi : i < data.length)
    (hb : b ≠ data[i]) : (data.set i b).sum ≠ data.sum := by
  intro hsum
  rw [List.sum_set', dif_pos hi, add_eq_left, neg_add_eq_zero] at hsum
  exact hb hsum.symm

/-- A frame with one byte of data or checksum replaced: the preamble and the length are those of
the frame, and the checksum is not the sum of the data. -/
theorem set_encode {f : Frame} {k : ℕ} {b : UInt8} (hk : 6 ≤ k) (hlt : k < (encode f).length)
    (hb : b ≠ (encode f)[k]) :
    ∃ data c, (encode f).set k b = f.preamble ++ (data ++ [c]) ∧
      data.length = f.data.length ∧ c ≠ data.sum := by
  have himage : encode f = f.preamble ++ (f.data ++ [f.data.sum]) := encode_eq f
  obtain ⟨i, rfl⟩ : ∃ i, k = f.preamble.length + i := ⟨k - 6, (Nat.add_sub_cancel' hk).symm⟩
  simp only [himage, List.length_append, List.length_singleton] at hlt
  simp only [himage, List.getElem_append_right (Nat.le_add_right _ i),
    Nat.add_sub_cancel_left] at hb
  rw [himage, List.set_append_right _ _ (Nat.le_add_right _ i), Nat.add_sub_cancel_left]
  rcases Nat.lt_or_ge i f.data.length with hi | hi
  · rw [List.getElem_append_left hi] at hb
    rw [List.set_append_left _ _ hi]
    exact ⟨f.data.set i b, f.data.sum, rfl, List.length_set, (sum_set_ne hi hb).symm⟩
  · obtain rfl : i = f.data.length := by omega
    rw [List.getElem_append_right hi] at hb
    rw [List.set_append_right _ _ hi]
    simp only [Nat.sub_self, List.getElem_cons_zero] at hb
    simp only [Nat.sub_self, List.set_cons_zero]
    exact ⟨f.data, b, rfl, rfl, hb⟩

/-- An attempt on a frame whose checksum is not the sum of its data fails, and consumes exactly
the frame. -/
theorem getPacket_badSum {s : Machine} {f : Frame} {data : List UInt8} {c : UInt8}
    {r : List UartPoll} (hrx : s.rx = (f.preamble ++ (data ++ [c])).map .byte ++ r)
    (hlen : data.length = f.data.length) (hc : c ≠ data.sum) :
    ∃ t, getPacket s = .ok failed t ∧ t.rx = r := by
  have hpolls : s.rx = f.preamble.map .byte ++ (data.map .byte ++ .byte c :: r) := by
    rw [hrx]
    simp
  have hjoin := joinLength_split f.length
  have hcount : (data.map UartPoll.byte).length =
      (joinLength (f.length >>> 8).toUInt8 (f.length &&& 0xFF).toUInt8).toNat := by
    rw [hjoin, f.toNat_length, List.length_map, hlen]
  have hfits : (data.map UartPoll.byte).length ≤ bufferSize := by
    rw [List.length_map, hlen]
    exact f.fits
  have hsum : (UartPoll.byte c).value ≠ data.sum := hc
  have hframe := getPacket_frame ⟨values_byte f.preamble⟩ hpolls hcount hfits
  rw [values_byte, if_pos hsum] at hframe
  exact ⟨_, hframe, rfl⟩

/-- **Changed bytes.** Whatever byte of the data or the checksum of a frame is replaced, the
pass of the protocol loop that meets it fails to receive, and has no effect but on the receive
line, the packet and the buffer. It consumes exactly the frame: the next attempt finds the frame
behind it, and accepts it as it was sent. -/
theorem corruptedFrame_contained (p q : Frame) (k : ℕ) (b : UInt8) (s : Machine) (v : Verdicts)
    (r : List UartPoll) (hk : 6 ≤ k) (hlt : k < (encode p).length) (hb : b ≠ (encode p)[k])
    (hphase : s.phase ≠ .loopHead)
    (hrx : s.rx = ((encode p).set k b ++ encode q).map .byte ++ r) :
    ∃ t, getPacket (s.load v) = .ok failed t ∧ (Config.live s).step v = .live t ∧
      Receives (s.load v) t ∧ t.rx = (encode q).map .byte ++ r ∧
      ∀ w, getPacket (t.load w) = .ok successed (((t.load w).withRx r).holding q) := by
  obtain ⟨data, c, hset, hlen, hc⟩ := set_encode hk hlt hb
  rw [hset, List.map_append, List.append_assoc] at hrx
  obtain ⟨t, hget, hrest⟩ := getPacket_badSum (s := s.load v) hrx hlen hc
  have hpass : mainPass (s.load v) = .ok () t := mainPass_of_failed hphase hget
  exact ⟨t, hget, Config.step_of_ok hpass, receives_getPacket.of_ok hget, hrest,
    fun w => getPacket_encode hrest⟩

/-- A request whose data holds headers, the second of them replaced, in the command loop. -/
theorem corruptedFrame_contained_headers :
    let p : Frame := ⟨cmdFlashSetPgsz, [header, header], by decide⟩
    let q : Frame := .request cmdChkProtocol
    let s : Machine := .connected (((encode p).set 7 0 ++ encode q).map .byte) .unformatted .blank
    ∃ t, getPacket (s.load .allWell) = .ok failed t ∧ (Config.live s).step .allWell = .live t ∧
      Receives (s.load .allWell) t ∧ t.rx = (encode q).map .byte ++ [] ∧
      ∀ w, getPacket (t.load w) = .ok successed (((t.load w).withRx []).holding q) := by
  intro p q s
  exact corruptedFrame_contained p q 7 0 s .allWell [] (by decide) (by decide) (by decide)
    (by decide) (List.append_nil _).symm

end Num487Boot
