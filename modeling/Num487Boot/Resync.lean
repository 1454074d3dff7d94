import Num487Boot.Footprint

/-!
# Resynchronisation after Line Noise

Between two frames the receive line may carry noise. Both protocol loops call `get_packet`
again after a failed attempt, and an attempt consumes one, two or three bytes before it
fails, so a frame could be lost when an attempt starts in the noise and ends in the frame.
It is not, as long as the noise contains no three headers in a row and does not end in one:
every attempt on such noise ends inside it, and leaves noise of the same kind behind.

## Main results

* `noise_cases`: one attempt's share of the noise.
* `resynchronises`: the loops skip the noise and accept the frame behind it.
-/

namespace Num487Boot

open Exec

/-- Bytes that `get_packet` cannot mistake for the start of a frame, alone or together with
what follows them. -/
structure Noise (bytes : List UInt8) : Prop where
  noPreamble : ¬ [header, header, header] <:+: bytes
  last : bytes.getLast? ≠ some header

/-- The rest of the noise is noise. -/
theorem Noise.tail (hs : List UInt8) {rest : List UInt8} {b : UInt8}
    (h : Noise (hs ++ b :: rest)) : Noise rest := by
  obtain ⟨hpre, hlast⟩ := h
  have hsuffix : rest <:+ hs ++ b :: rest :=
    (List.suffix_cons b rest).trans (List.suffix_append hs _)
  refine ⟨fun hpreamble => hpre (hpreamble.trans hsuffix.isInfix), fun hend => ?_⟩
  rw [List.getLast?_append, List.getLast?_cons, hend] at hlast
  exact hlast rfl

/-- Noise starts with at most two headers and a byte that is not one, and what is left is
noise again. -/
theorem noise_cases {bytes : List UInt8} (h : Noise bytes) :
    bytes = [] ∨ ∃ hs b rest, bytes = hs ++ b :: rest ∧ (∀ x ∈ hs, x = header) ∧ hs.length < 3 ∧
      b ≠ header ∧ Noise rest := by
  rcases bytes with _ | ⟨a, l⟩
  · exact .inl rfl
  right
  by_cases ha : a = header
  case neg => exact ⟨[], a, l, rfl, by simp, by simp, ha, h.tail []⟩
  rcases l with _ | ⟨b, l⟩
  · exact absurd (congrArg some ha) h.last
  by_cases hb : b = header
  case neg => exact ⟨[a], b, l, rfl, by simp [ha], by simp, hb, h.tail [a]⟩
  rcases l with _ | ⟨c, l⟩
  · exact absurd (congrArg some hb) h.last
  by_cases hc : c = header
  case neg => exact ⟨[a, b], c, l, rfl, by simp [ha, hb], by simp, hc, h.tail [a, b]⟩
  exact absurd ⟨[], l, by rw [ha, hb, hc]; rfl⟩ h.noPreamble

/-- From `s` to `t` only the receive line moved: nothing was sent or accepted, and no call was
made. -/
def Waits (s t : Machine) : Prop := t = { s with rx := t.rx, verdicts := t.verdicts }

instance : Std.Refl Waits where
  refl _ := rfl

instance : IsTrans Machine Waits where
  trans s t u h₁ h₂ := by
    rw [Waits, h₂, h₁]

/-- A pass of a protocol loop whose attempt fails goes back to the head of the loop. -/
theorem mainPass_of_failed {s t : Machine} (hphase : s.phase ≠ .loopHead)
    (hget : getPacket s = .ok failed t) : mainPass s = .ok () t := by
  have hstop : failed ≠ 0 := failed_ne_successed
  cases hp : s.phase with
  | loopHead => exact absurd hp hphase
  | handshake =>
      have hpass : establishPass s = .ok .again t := by
        rw [establishPass, bind_of_ok hget, if_pos hstop]
        rfl
      rw [mainPass_handshake hp, bind_of_ok hpass]
      rfl
  | command =>
      have hpass : commandPass s = .ok .again t := by
        rw [commandPass, bind_of_ok hget, if_pos hstop]
        rfl
      rw [mainPass_command hp, bind_of_ok hpass]
      rfl

/-- A pass of a protocol loop whose attempt ends in noise only consumes it. -/
theorem mainPass_noise {s : Machine} {hs : List UInt8} {b : UInt8} {r : List UartPoll}
    (hphase : s.phase ≠ .loopHead) (hrx : s.rx = (hs ++ [b]).map .byte ++ r)
    (hhs : ∀ x ∈ hs, x = header) (hlen : hs.length < 3) (hb : b ≠ header) :
    mainPass s = .ok () (s.withRx r) := by
  refine mainPass_of_failed hphase (getPacket_noise (hs.map .byte) (p := .byte b)
    (by simpa using hrx) ?_ (by simpa using hlen) hb)
  simpa [UartPoll.value] using hhs

/-- The passes a loop spends on noise are all failed attempts, and together they consume
exactly the noise. Their number depends on the noise only. -/
theorem run_noise (bytes : List UInt8) (hnoise : Noise bytes) (r : List UartPoll) :
    ∃ k, ∀ (s : Machine) (vs : List Verdicts), s.phase ≠ .loopHead →
      s.rx = bytes.map .byte ++ r → vs.length ≤ k →
        ∃ t, (Config.live s).run vs = .live t ∧ Waits s t ∧ (vs.length = k → t.rx = r) := by
  -- an attempt takes several bytes, so the induction is on the length of the noise
  induction hn : bytes.length using Nat.strong_induction_on generalizing bytes with
  | _ n ih =>
      rcases noise_cases hnoise with rfl | ⟨hs, b, rest, rfl, hhs, hlen, hb, hrest⟩
      · refine ⟨0, fun s vs _ hrx hvs => ?_⟩
        obtain rfl := List.eq_nil_of_length_eq_zero (Nat.le_zero.mp hvs)
        exact ⟨s, rfl, Std.Refl.refl s, fun _ => hrx⟩
      · have hshort : rest.length < n := by
          rw [← hn, List.length_append, List.length_cons]
          omega
        obtain ⟨k, hk⟩ := ih rest.length hshort rest hrest rfl
        refine ⟨k + 1, fun s vs hphase hrx hvs => ?_⟩
        rcases vs with _ | ⟨v, vs⟩
        · exact ⟨s, rfl, Std.Refl.refl s, fun hzero => by cases hzero⟩
        have hfront : s.rx = (hs ++ [b]).map .byte ++ (rest.map .byte ++ r) := by
          rw [hrx]
          simp
        let u := (s.load v).withRx (rest.map .byte ++ r)
        have hpass : mainPass (s.load v) = .ok () u := mainPass_noise hphase hfront hhs hlen hb
        obtain ⟨t, hrun, hwaits, hend⟩ := hk u vs hphase rfl (by simpa using hvs)
        refine ⟨t, ?_, hwaits, fun hall => hend (by simpa using hall)⟩
        rw [Config.run, Runs.run_cons, Config.step_of_ok hpass]
        exact hrun

/-- **Resynchronisation.** For every noise, every packet that fits the buffer and whatever
follows it, a protocol loop accepts the packet as its first: the attempts before consume
exactly the noise and do nothing else, and the attempt after them returns the packet and
consumes exactly its image. -/
theorem resynchronises (bytes : List UInt8) (p : Frame) (r : List UartPoll)
    (hpre : ¬ [header, header, header] <:+: bytes) (hlast : bytes.getLast? ≠ some header) :
    ∃ k, ∀ (s : Machine) (vs : List Verdicts), s.phase ≠ .loopHead →
      s.rx = (bytes ++ encode p).map .byte ++ r → vs.length ≤ k →
        ∃ t, (Config.live s).run vs = .live t ∧ Waits s t ∧
          (vs.length = k → ∀ v, getPacket (t.load v) =
            .ok successed (((s.load v).withRx r).holding p)) := by
  obtain ⟨k, hk⟩ := run_noise bytes ⟨hpre, hlast⟩ ((encode p).map .byte ++ r)
  refine ⟨k, fun s vs hphase hrx hvs => ?_⟩
  rw [List.map_append, List.append_assoc] at hrx
  obtain ⟨t, hrun, hwaits, hend⟩ := hk s vs hphase hrx hvs
  refine ⟨t, hrun, hwaits, fun hall v => ?_⟩
  have hload : (t.load v).withRx r = (s.load v).withRx r := by
    rw [hwaits]
    rfl
  rw [← hload]
  exact getPacket_encode (hend hall)

/-- A broken preamble and a stray header before a handshake. -/
theorem resynchronises_brokenPreamble :
    ∃ k, ∀ (s : Machine) (vs : List Verdicts), s.phase ≠ .loopHead →
      s.rx = ([header, header, 0, header, 7] ++ encode (.request cmdChkProtocol)).map .byte →
        vs.length ≤ k → ∃ t, (Config.live s).run vs = .live t ∧ Waits s t ∧
          (vs.length = k → ∀ v, getPacket (t.load v) =
            .ok successed (((s.load v).withRx []).holding (.request cmdChkProtocol))) := by
  obtain ⟨k, hk⟩ := resynchronises [header, header, 0, header, 7] (.request cmdChkProtocol) []
    (by decide) (by decide)
  exact ⟨k, fun s vs hphase hrx => hk s vs hphase (by rw [hrx, List.append_nil])⟩

end Num487Boot
