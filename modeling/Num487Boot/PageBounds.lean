import Num487Boot.Gating
import Num487Boot.ProgrammingPaths

/-!
# The Bounds Check of CMD_FLASH_WRITE

`CMD_FLASH_WRITE` compares the address of its page with `BOOTLOADER_END` only. A page that
starts above the application section, or runs past its end, or wraps around the address
space, is handed to `flash_write_app_page`, which programs it word by word until the
hardware refuses a word.

## Main results

* `flashWriteAppPage_head`: the first word of a page decides whether anything is programmed.
* `flashWrite_refused_iff`: exactly when a page outside the section is refused without an
  effect.
-/

namespace Num487Boot

open Exec Memory

/-- The page of 512 bytes at `addr` lies in the application section. -/
def PageInside (addr : UInt32) : Prop :=
  userAppStart.toNat ≤ addr.toNat ∧ addr.toNat + 511 ≤ userAppEnd.toNat

instance : DecidablePred PageInside :=
  fun addr => inferInstanceAs
    (Decidable (userAppStart.toNat ≤ addr.toNat ∧ addr.toNat + 511 ≤ userAppEnd.toNat))

/-- A command word is programmed by an event. -/
def Event.programs : Event → Bool
  | .isp (.program _ _) v => v.applies
  | .isp (.read _) _ | .isp (.blockErase _) _ | .lfs _ _ _ _ | .tx _ | .accept _ _ => false

/-- Between `s` and `t` one NACK was sent for the command `cmd`, and no word of the flash was
programmed. -/
def Refused (cmd : UInt8) (s t : Machine) : Prop :=
  ∃ es, t.trace = s.trace ++ es ∧ txBytes es = encode (.reply cmd [nack]) ∧
    ∀ e ∈ es, e.programs = false

/-- How a page write starts: the first program command, which is the only one if the
hardware does not carry it out. -/
theorem flashWriteAppPage_head (dest : UInt32) (buf : ℕ → UInt8) (s : Machine) :
    let c : IspCommand := .program dest (leWord buf 0)
    ∃ r t es, flashWriteAppPage dest buf s = .ok r t ∧ FmcStep s t ∧
      t.trace = s.trace ++ .isp c (s.verdicts.isp 0 c) :: es ∧
      ((s.verdicts.isp 0 c).applies = false → r ≠ successed ∧ es = []) := by
  intro c
  let s₁ := s.afterFmcWrite dest (leWord buf 0)
  have hstep : FmcStep s s₁ := fmcStep_afterIsp s c _ _
  have hcount : blFlashPacsize / 4 = 127 + 1 := rfl
  rw [flashWriteAppPage, hcount, writeWords_succ]
  by_cases hv : s.verdicts.isp 0 c = .done
  · rw [if_pos hv]
    obtain ⟨r, t, es, hrun, hfmc, htrace, -⟩ := writeWords_spec buf 127 (dest + 4) (0 + 4) s₁
    refine ⟨r, t, es, hrun, hstep.trans hfmc, ?_, fun hrefused => ?_⟩
    · rw [htrace]
      exact List.append_assoc s.trace [_] es
    · rw [hv] at hrefused
      cases hrefused
  · rw [if_neg hv]
    exact ⟨failed, s₁, [], rfl, hstep, rfl, fun _ => ⟨failed_ne_successed, rfl⟩⟩

/-- A handler that has made the calls `es` and then sends a NACK has refused its command if
none of the calls programmed a word. -/
theorem refused_of_nack {s t : Machine} {cmd : UInt8} {es : List Event}
    (ht : t.trace = s.trace ++ .accept .command cmd :: es)
    (hcalls : ∀ e ∈ es, e.isCall = true) (hes : ∀ e ∈ es, e.programs = false) :
    Refused cmd s (t.replied (.reply cmd [nack])) := by
  refine ⟨.accept .command cmd :: (es ++ (encode (.reply cmd [nack])).map .tx), ?_, ?_, ?_⟩
  · rw [Machine.replied, ht]
    simp
  · rw [← List.singleton_append, txBytes_append, txBytes_append, txBytes_of_isCall hcalls,
      txBytes_map_tx]
    rfl
  · simpa [Event.programs, List.forall_mem_append, or_imp, forall_and] using hes

/-- A command that programmed a word was not refused. -/
theorem not_refused_of_programs {s t : Machine} {cmd : UInt8} {f : Frame} {es : List Event}
    (ht : t.trace = s.trace ++ es) (hes : ∃ e ∈ es, e.programs = true) :
    ¬ Refused cmd s (t.replied f) := by
  rintro ⟨es', htrace, -, hnone⟩
  obtain ⟨e, he, hprograms⟩ := hes
  rw [Machine.replied, ht, List.append_assoc] at htrace
  obtain rfl := List.append_cancel_left htrace
  rw [hnone e (List.mem_append_left _ he)] at hprograms
  cases hprograms

/-- The first word of the page in a request. -/
def pageWord (bytes : List UInt8) : UInt32 := leWord (fun i => bytes.getD (4 + i) 0) 0

/-! ### Serving a request -/

section Request

variable {s : Machine} {f : Frame}

/-- A request for a page at the front of the receive line of the command loop. -/
structure PageRequest (s : Machine) (f : Frame) : Prop where
  phase : s.phase = .command
  incoming : s.Incoming f
  cmd : f.cmd = cmdFlashWrite
  size : f.data.length = bufferSize

/-- The machine that handles a request. -/
theorem PageRequest.handled (h : PageRequest s f) :
    ∃ s' : Machine, commandPass s = (do handleFlashWrite; pure .again : Prog Control) s' ∧
      s'.trace = s.trace ++ [.accept .command cmdFlashWrite] ∧ s'.pac.cmd = cmdFlashWrite ∧
      s'.verdicts = s.verdicts ∧ leWord s'.blBuffer 0 = recordAddr f.data ∧
      leWord (fun i => s'.blBuffer (4 + i)) 0 = pageWord f.data := by
  obtain ⟨hphase, ⟨ps, r, hrx, hps⟩, hcmd, hsize⟩ := h
  let s' := ((s.withRx r).holding f).accepting
  have hbuf : ∀ i < bufferSize, s'.blBuffer i = f.data.getD i 0 := by
    intro i hi
    have hlt : i < f.data.length := by rwa [hsize]
    rw [List.getD_eq_getElem?_getD, List.getElem?_eq_getElem hlt]
    exact overlay_zero_apply hlt
  refine ⟨s', ?_, ?_, hcmd, rfl,
    leWord_congr fun j hj => hbuf (0 + j) (by simp only [bufferSize]; omega),
    leWord_congr fun j hj => hbuf (4 + (0 + j)) (by simp only [bufferSize]; omega)⟩
  · have hpac : ((s.withRx r).holding f).pac.cmd = cmdFlashWrite := hcmd
    rw [commandPass_serves (getPacket_image hrx hps), hpac]
    rfl
  · rw [← hphase, ← hcmd]
    rfl

/-- How the hardware answers the first program command of a request. -/
def firstVerdict (s : Machine) (f : Frame) : IspVerdict :=
  s.verdicts.isp 0 (.program (recordAddr f.data) (pageWord f.data))

/-- A request that passes the guard starts with its first program command, and ends with a
reply. -/
theorem PageRequest.starts (h : PageRequest s f) (hguard : ¬ recordAddr f.data ≤ bootloaderEnd) :
    ∃ (u : Machine) (es : List Event) (status : UInt8),
      commandPass s = .ok .again (u.replied (.reply cmdFlashWrite [status])) ∧
      u.trace = s.trace ++ .accept .command cmdFlashWrite ::
        .isp (.program (recordAddr f.data) (pageWord f.data)) (firstVerdict s f) :: es ∧
      ((firstVerdict s f).applies = false → status = nack ∧ es = []) := by
  obtain ⟨s', hpass, hlog, hpac, hverdicts, haddr, hword⟩ := h.handled
  obtain ⟨res, u, es, hrun, hfmc, htrace, hhead⟩ :=
    flashWriteAppPage_head (recordAddr f.data) (fun i => s'.blBuffer (4 + i)) s'
  rw [hword, hverdicts] at htrace hhead
  have htrace : u.trace = s.trace ++ .accept .command cmdFlashWrite ::
      .isp (.program (recordAddr f.data) (pageWord f.data)) (firstVerdict s f) :: es := by
    rw [htrace, hlog, List.append_assoc]
    rfl
  have hucmd : u.pac.cmd = cmdFlashWrite := by rw [hfmc.pac, hpac]
  by_cases hres : res ≠ 0
  · have hend : handleFlashWrite s' = .ok () (u.replied (.reply cmdFlashWrite [nack])) := by
      rw [handleFlashWrite, bind_of_ok (get_apply s'), haddr, if_neg hguard, bind_of_ok hrun,
        if_pos hres, ← hucmd]
      exact sendStatus_apply nack u
    exact ⟨u, es, nack, by rw [hpass, bind_of_ok hend]; rfl, htrace,
      fun hv => ⟨rfl, (hhead hv).2⟩⟩
  · have hend : handleFlashWrite s' = .ok () (u.replied (.reply cmdFlashWrite [ack])) := by
      rw [handleFlashWrite, bind_of_ok (get_apply s'), haddr, if_neg hguard, bind_of_ok hrun,
        if_neg hres, ← hucmd]
      exact sendStatus_apply ack u
    exact ⟨u, es, ack, by rw [hpass, bind_of_ok hend]; rfl, htrace,
      fun hv => absurd (hhead hv).1 hres⟩

/-- A request at an address that is not above the bootloader is refused. -/
theorem PageRequest.refused_of_low (h : PageRequest s f)
    (hguard : recordAddr f.data ≤ bootloaderEnd) :
    ∃ t, commandPass s = .ok .again t ∧ Refused cmdFlashWrite s t := by
  obtain ⟨s', hpass, hlog, hpac, -, haddr, -⟩ := h.handled
  have hrun : handleFlashWrite s' = .ok () (s'.replied (.reply cmdFlashWrite [nack])) := by
    rw [handleFlashWrite, bind_of_ok (get_apply s'), haddr, if_pos hguard, ← hpac]
    exact sendStatus_apply nack s'
  exact ⟨_, by rw [hpass, bind_of_ok hrun]; rfl, refused_of_nack hlog (by simp) (by simp)⟩

/-- A request above the bootloader is refused exactly when the hardware does not carry out
its first program command. -/
theorem PageRequest.refused_iff (h : PageRequest s f)
    (hguard : ¬ recordAddr f.data ≤ bootloaderEnd) :
    ∃ t, commandPass s = .ok .again t ∧
      (Refused cmdFlashWrite s t ↔ (firstVerdict s f).applies = false) := by
  obtain ⟨u, es, status, hpass, htrace, hhead⟩ := h.starts hguard
  refine ⟨_, hpass, fun hrefused => ?_, fun hv => ?_⟩
  · by_contra hv
    exact not_refused_of_programs htrace ⟨_, List.mem_cons_of_mem _ List.mem_cons_self,
      by simpa [Event.programs] using hv⟩ hrefused
  · obtain ⟨rfl, rfl⟩ := hhead hv
    exact refused_of_nack htrace (by simp [Event.isCall]) (by simpa [Event.programs] using hv)

end Request

/-- **When a page outside the section is refused.** For every accepted `CMD_FLASH_WRITE`
frame of 516 bytes and every outcome of the FMC calls the command is served, and the rule
that a page outside the application section gets a NACK with no word programmed holds if and
only if the page is inside the section, or its address is not above the bootloader, or the
hardware does not carry out the first program command. -/
theorem flashWrite_refused_iff (s : Machine) (f : Frame) (hphase : s.phase = .command)
    (hf : s.Incoming f) (hcmd : f.cmd = cmdFlashWrite) (hlen : f.data.length = bufferSize) :
    ∃ t, commandPass s = .ok .again t ∧
      ((¬ PageInside (recordAddr f.data) → Refused cmdFlashWrite s t) ↔
        PageInside (recordAddr f.data) ∨ recordAddr f.data ≤ bootloaderEnd ∨
          (firstVerdict s f).applies = false) := by
  have hrequest : PageRequest s f := ⟨hphase, hf, hcmd, hlen⟩
  by_cases hguard : recordAddr f.data ≤ bootloaderEnd
  · obtain ⟨t, hpass, hrefused⟩ := hrequest.refused_of_low hguard
    exact ⟨t, hpass, iff_of_true (fun _ => hrefused) (.inr (.inl hguard))⟩
  · obtain ⟨t, hpass, hrefused⟩ := hrequest.refused_iff hguard
    refine ⟨t, hpass, fun h => ?_, ?_⟩
    · by_cases hin : PageInside (recordAddr f.data)
      · exact .inl hin
      · exact .inr (.inr (hrefused.mp (h hin)))
    · rintro (hin | hlow | hfault) hout
      · exact absurd hin hout
      · exact absurd hlow hguard
      · exact hrefused.mpr hfault

/-- A request to program zeros at `addr`. -/
def zeroPage (addr : List UInt8) (h : addr.length = 4) : Frame where
  cmd := cmdFlashWrite
  data := addr ++ List.replicate 512 0
  fits := by rw [List.length_append, List.length_replicate, h]; decide

/-- The machine that is about to receive the frame `f`, when nothing fails. -/
def beforeFrame (f : Frame) : Machine := .connected ((encode f).map .byte) .unformatted .blank

/-- The frame is the next one in `beforeFrame`. -/
theorem incoming_beforeFrame (f : Frame) : (beforeFrame f).Incoming f :=
  ⟨_, [], (List.append_nil _).symm, values_byte _⟩

/-- The request for the first page above the bootloader. -/
def firstZeroPage : Frame := zeroPage [0, 0, 1, 0] rfl

/-- The request for a page that starts in the last page of the section and runs past it. -/
def straddlingPage : Frame := zeroPage [0, 0xFF, 7, 0] rfl

/-- A page inside the section. -/
theorem flashWrite_refused_firstZeroPage :
    ∃ t, commandPass (beforeFrame firstZeroPage) = .ok .again t ∧
      ((¬ PageInside (recordAddr firstZeroPage.data) →
          Refused cmdFlashWrite (beforeFrame firstZeroPage) t) ↔
        PageInside (recordAddr firstZeroPage.data) ∨
          recordAddr firstZeroPage.data ≤ bootloaderEnd ∨
          (firstVerdict (beforeFrame firstZeroPage) firstZeroPage).applies = false) :=
  flashWrite_refused_iff _ _ rfl (incoming_beforeFrame _) rfl
    (by rw [firstZeroPage, zeroPage, List.length_append, List.length_replicate]; rfl)

/-- The straddling page is not inside the section, and its request is not refused. -/
theorem straddlingPage_programmed :
    ¬ PageInside (recordAddr straddlingPage.data) ∧
      ∃ t, commandPass (beforeFrame straddlingPage) = .ok .again t ∧
        ¬ Refused cmdFlashWrite (beforeFrame straddlingPage) t := by
  have hrequest : PageRequest (beforeFrame straddlingPage) straddlingPage :=
    ⟨rfl, incoming_beforeFrame _, rfl,
      by rw [straddlingPage, zeroPage, List.length_append, List.length_replicate]; rfl⟩
  obtain ⟨t, hpass, hrefused⟩ := hrequest.refused_iff (by decide)
  refine ⟨by decide, t, hpass, fun h => ?_⟩
  have happlies := hrefused.mp h
  cases happlies

end Num487Boot
