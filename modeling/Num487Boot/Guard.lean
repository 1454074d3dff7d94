import Num487Boot.BootOutcome

/-!
# Guarded Passes

A general rule for invariants of the bootloader. A `Safeguard I A` says what an invariant
`I` on the machine has to survive: changes it does not look at, log entries other than ISP
commands, the erase of the application section, reads of the flash, and the programming of
a page at an address in `A`. Under the step condition `Config.Meets A`, which speaks about
the front of the receive line and, where a boot from the file system gets past the erase,
about what LittleFS will deliver, every pass keeps `I` and stays inside the packet buffer.

## Main results

* `Safeguard.bootFromFs`, `Safeguard.mainPass`: one call, one pass.
* `Safeguard.run`: a run whose steps all meet the condition.
-/

namespace Num487Boot

open Exec Memory

/-! ### Runs that keep an invariant and stay inside the buffer -/

/-- A halt in a state with `I`, for another reason than leaving the buffer. -/
def InBounds (I : Machine → Prop) (e : Halt) (t : Machine) : Prop := (∀ i, e ≠ .overrun i) ∧ I t

/-- From a state with `I`, `x` keeps `I` and does not leave the buffer. -/
def Safe {α : Type} (I : Machine → Prop) (x : Prog α) : Prop :=
  Triple I x (fun _ => I) (InBounds I)

/-- What an invariant must be preserved by. `A` are the addresses a page may be programmed
at. -/
structure Safeguard (I : Machine → Prop) (A : UInt32 → Prop) : Prop where
  frame : ∀ {s t : Machine}, t.flash = s.flash → t.verdicts.isp = s.verdicts.isp →
    t.trace = s.trace → I s → I t
  log : ∀ {s : Machine} {es : List Event}, (∀ e ∈ es, ∀ c v, e ≠ .isp c v) → I s →
    I { s with trace := s.trace ++ es }
  page : ∀ {dest : UInt32}, A dest → ∀ (buf : ℕ → UInt8) (s : Machine), I s →
    I (after (flashWriteAppPage dest buf s))
  eraseAll : ∀ s : Machine, I s → I (after (flashEraseAppAll s))
  read : ∀ {addr : UInt32} (s : Machine) (dat : UInt32) (err : Int32), I s →
    I { s.afterIsp (.read addr) with ispDat := dat, fmcErrCode := err }

/-! ### What get_packet and the buffer contribute -/

/-- Clearing forgets bytes that fit the buffer. -/
theorem zeroed_overlay {buf : ℕ → UInt8} {bytes : List UInt8} (h : bytes.length ≤ bufferSize) :
    zeroed (overlay buf 0 bytes) = zeroed buf := by
  funext i
  rw [zeroed, zeroed]
  rcases Nat.lt_or_ge i bufferSize with hlt | hge
  · rw [if_pos hlt, if_pos hlt]
  · rw [if_neg (by omega), if_neg (by omega), overlay_apply_of_le (by omega)]

/-- Receiving a byte ends early on an empty line only. -/
private theorem getc_ends {f : UInt8 → Prog UInt8} {Q : UInt8 → Machine → Prop} {s : Machine}
    (h : ∀ p r, s.rx = p :: r →
      Ends Q (fun e _ => e = .starved) (f p.value (s.withRx r))) :
    Ends Q (fun e _ => e = .starved) ((comChannelGetc >>= f) s) := by
  cases hrx : s.rx with
  | nil =>
      rw [bind_of_error (comChannelGetc_nil hrx)]
      exact rfl
  | cons p r =>
      rw [bind_of_ok (comChannelGetc_cons hrx)]
      exact h p r hrx

/-- The test for a header byte halts only because the receive line runs dry. -/
private theorem header_ends {x : Prog UInt8} {s : Machine}
    (h : ∀ p r, s.rx = p :: r → p.value = header →
      Ends (fun _ _ => True) (fun e _ => e = .starved) (x (s.withRx r))) :
    Ends (fun _ _ => True) (fun e _ => e = .starved)
      ((comChannelGetc >>= fun b => if b ≠ header then pure failed else x) s) := by
  refine getc_ends fun p r hrx => ?_
  by_cases hp : p.value = header
  · rw [if_neg (not_not.mpr hp)]
    exact h p r hrx hp
  · rw [if_pos hp]
    trivial

/-- The data loop of a frame that fits runs dry or ends; it does not leave the buffer. -/
theorem recvData_ends {n i : ℕ} (c : UInt8) (s : Machine) (hfits : i + n ≤ bufferSize) :
    Ends (fun _ _ => True) (fun e _ => e = .starved) (recvData n i c s) := by
  induction n generalizing i c s with
  | zero => trivial
  | succ n ih =>
      refine getc_ends fun p r _ => ?_
      rw [bind_of_ok (storeBuffer_of_lt (by omega) _ _)]
      exact ih _ _ (by omega)

/-- When no frame at the front announces more data than the buffer holds, `get_packet` can
only halt because the receive line runs dry. -/
theorem getPacket_ends {s : Machine} (hlen : ∀ n ∈ s.announced, n ≤ bufferSize) :
    Ends (fun _ _ => True) (fun e _ => e = .starved) (getPacket s) := by
  refine header_ends fun p₀ r₀ hrx₀ h₀ => header_ends fun p₁ r₁ hrx₁ h₁ =>
    header_ends fun p₂ r₂ hrx₂ h₂ => getc_ends fun p₃ r₃ hrx₃ => getc_ends fun p₄ r₄ hrx₄ =>
    getc_ends fun p₅ r₅ hrx₅ => ?_
  have hrx : s.rx = p₀ :: p₁ :: p₂ :: p₃ :: p₄ :: p₅ :: r₅ := by
    simp only [Machine.rx_withRx] at hrx₁ hrx₂ hrx₃ hrx₄ hrx₅
    rw [hrx₀, hrx₁, hrx₂, hrx₃, hrx₄, hrx₅]
  have hfits := hlen (joinLength p₄.value p₅.value).toNat (by
    simp [Machine.announced, hrx, h₀, h₁, h₂])
  rw [bind_of_ok (modify_apply _ _)]
  refine (recvData_ends 0 _ (by omega)).bind fun chksum t _ => getc_ends fun p r _ => ?_
  split <;> trivial

section Safe

variable {I : Machine → Prop} {A : UInt32 → Prop} (hI : Safeguard I A)
include hI

/-- The invariant survives an event that is no ISP command. -/
theorem Safeguard.logOne {s : Machine} {e : Event} (he : ∀ c v, e ≠ .isp c v) (hs : I s) :
    I (s.log e) :=
  hI.log (by simpa using he) hs

/-- A LittleFS call. -/
theorem Safeguard.afterCall {ρ : Type} {s : Machine} (c : LfsCall)
    (act : Lfs → LfsVerdict → ρ × Lfs) (ret : ρ → ℤ) (hs : I s) : I (s.afterCall c act ret) :=
  hI.frame (s := s.log (.lfs c s.lfs (some (ret (s.volume.ret c act))) (s.prints 0 c))) rfl rfl rfl
    (hI.logOne (fun _ _ h => by cases h) hs)

/-- A change it does not look at. -/
theorem Safeguard.modify {f : Machine → Machine} (hflash : ∀ s, (f s).flash = s.flash)
    (hisp : ∀ s, (f s).verdicts.isp = s.verdicts.isp) (htrace : ∀ s, (f s).trace = s.trace) :
    Safe I (modify f) :=
  fun s hs => hI.frame (hflash s) (hisp s) (htrace s) hs

/-- A LittleFS call as a program, whose failing assertion may halt it. -/
theorem Safeguard.lfsInvoke {ρ : Type} (c : LfsCall) (act : Lfs → LfsVerdict → ρ × Lfs)
    (ret : ρ → ℤ) : Safe I (lfsInvoke c act ret) := by
  intro s hs
  cases h : c.asserts s.lfs with
  | true =>
      rw [lfsInvoke_apply act ret h]
      exact hI.afterCall c act ret hs
  | false =>
      rw [lfsInvoke_assert act ret h]
      exact ⟨fun _ h => (by cases h), hI.logOne (fun _ _ h => by cases h) hs⟩

/-- The programming of a record at an address in `A`. -/
theorem Safeguard.programRecord {s : Machine} (hs : I s) (hA : A (leWord s.blBuffer 0)) :
    ∃ r t, programRecord s = .ok r t ∧ FmcStep s t ∧ I t := by
  obtain ⟨r, t, es, hrun, hfmc, -⟩ :=
    writeWords_spec (fun i => s.blBuffer (4 + i)) (blFlashPacsize / 4) (leWord s.blBuffer 0) 0 s
  have hkeep := hI.page hA (fun i => s.blBuffer (4 + i)) s hs
  rw [flashWriteAppPage, hrun] at hkeep
  exact ⟨r, t, by rw [Num487Boot.programRecord, bind_of_ok (get_apply s)]; exact hrun, hfmc, hkeep⟩

/-- One read of the record loop with the programming of its record: it returns, or the
read's assertion has failed. -/
theorem Safeguard.delivery {s : Machine} (size : ℕ) (hs : I s)
    (hlen : (s.volume.ret (.fileRead size) (Lfs.fileRead size)).2.length ≤ bufferSize)
    (hA : A (leWord (overlay s.blBuffer 0
      (s.volume.ret (.fileRead size) (Lfs.fileRead size)).2) 0)) :
    (∃ r t, (lfsFileRead size >>= fun _ => Num487Boot.programRecord) s = .ok r t ∧ I t ∧
      t.volume = s.volume.next (.fileRead size) (Lfs.fileRead size) ∧
      t.blBuffer = overlay s.blBuffer 0
        (s.volume.ret (.fileRead size) (Lfs.fileRead size)).2) ∨
    (∃ t, (lfsFileRead size >>= fun _ => Num487Boot.programRecord) s =
      .error (.assertFailed (.fileRead size)) t ∧ I t) := by
  cases h : (LfsCall.fileRead size).asserts s.lfs with
  | true =>
      left
      let u := s.afterCall (.fileRead size) (Lfs.fileRead size) Prod.fst
      let stored := overlay s.blBuffer 0 (s.volume.ret (.fileRead size) (Lfs.fileRead size)).2
      have hu : I { u with blBuffer := stored } :=
        hI.frame (s := u) rfl rfl rfl (hI.afterCall _ _ _ hs)
      obtain ⟨r, t, hrun, hfmc, ht⟩ := hI.programRecord hu hA
      refine ⟨r, t, ?_, ht, ?_, hfmc.blBuffer⟩
      · rw [lfsFileRead, ← hrun]
        simp only [bind_assoc]
        rw [bind_of_ok (lfsInvoke_apply _ _ h),
          bind_of_ok (storeBytes_of_fits (by simpa [Volume.ret, Machine.volume] using hlen) _)]
        rfl
      · rw [Machine.volume, hfmc.lfs, hfmc.lfsVerdicts]
        rfl
  | false =>
      right
      exact ⟨_, bind_of_error (bind_of_error (lfsInvoke_assert _ _ h)),
        hI.logOne (fun _ _ h => by cases h) hs⟩

/-- The part of `boot_from_fs` behind its loop. -/
theorem Safeguard.bootTail {s : Machine} {fsize : ℤ} (hs : I s)
    (hacc : Acceptable A (s.volume.tailDelivery fsize) s.blBuffer) :
    Ends (fun _ => I) (InBounds I) (Num487Boot.bootTail fsize s) := by
  have hfinish : Safe I (do
      let _ ← lfsFileClose
      let _ ← lfsUnmount
      apromUpdateEnable
      bootLEDOff
      pure successed : Prog UInt8) :=
    .bind (hI.lfsInvoke _ _ _) fun _ => .bind (hI.lfsInvoke _ _ _) fun _ =>
      .bind (hI.modify (fun _ => rfl) (fun _ => rfl) fun _ => rfl) fun _ =>
        .bind (hI.modify (fun _ => rfl) (fun _ => rfl) fun _ => rfl) fun _ => .pure fun _ h => h
  rw [Num487Boot.bootTail]
  by_cases hsize : fsize ≠ 0
  · rw [Volume.tailDelivery, if_pos hsize] at hacc
    rw [if_pos hsize, bind_of_ok (clearBuffer_apply s)]
    have hclear : I { s with blBuffer := zeroed s.blBuffer } := hI.frame (s := s) rfl rfl rfl hs
    rcases hI.delivery (toLfsSize fsize) hclear hacc.head.1 hacc.head.2 with
      ⟨r, t, hrun, ht, -⟩ | ⟨t, hrun, ht⟩
    · rw [← bind_assoc, bind_of_ok hrun]
      by_cases hr : r ≠ 0
      · rw [if_pos hr]
        exact ht
      · rw [if_neg hr]
        exact hfinish t ht
    · rw [← bind_assoc, bind_of_error hrun]
      exact ⟨fun _ h => (by cases h), ht⟩
  · rw [if_neg hsize]
    exact hfinish s hs

/-- **The record loop.** With acceptable deliveries it keeps the invariant and stays inside
the buffer. -/
theorem Safeguard.bootRecords {s : Machine} {n : ℕ} {fsize : ℤ} (hs : I s)
    (hacc : Acceptable A (s.volume.deliveries n fsize) s.blBuffer) :
    Ends (fun _ => I) (InBounds I) (Num487Boot.bootRecords n fsize s) := by
  induction n generalizing s fsize with
  | zero => exact hI.bootTail hs hacc
  | succ n ih =>
      rw [Num487Boot.bootRecords]
      rw [Volume.deliveries] at hacc
      by_cases hsize : fsize ≥ bufferSize
      · rw [if_pos hsize] at hacc ⊢
        have htail := hacc.tail
        rcases hI.delivery bufferSize hs hacc.head.1 hacc.head.2 with
          ⟨r, t, hrun, ht, hvol, hbuf⟩ | ⟨t, hrun, ht⟩
        · rw [← bind_assoc, bind_of_ok hrun]
          by_cases hr : r ≠ 0
          · rw [if_pos hr]
            exact ht
          · rw [if_neg hr]
            exact ih ht (by rw [hvol, hbuf]; exact htail)
        · rw [← bind_assoc, bind_of_error hrun]
          exact ⟨fun _ h => (by cases h), ht⟩
      · rw [if_neg hsize] at hacc ⊢
        exact hI.bootTail hs hacc

/-- The mount sequence. -/
theorem Safeguard.afterMount {s : Machine} (hs : I s) : I s.afterMount := by
  rw [Machine.afterMount]
  split
  · exact hI.afterCall _ _ _ (hI.afterCall _ _ _ (hI.afterCall _ _ _ hs))
  · exact hI.afterCall _ _ _ hs

/-- **boot_from_fs** keeps the invariant and stays inside the buffer when the erase fails, or
what LittleFS delivers is acceptable. -/
theorem Safeguard.bootFromFs {s : Machine} (hs : I s)
    (hacc : Carried s.verdicts.isp eraseCommands →
      Acceptable A s.volume.bootDeliveries (zeroed s.blBuffer)) :
    Ends (fun _ => I) (InBounds I) (Num487Boot.bootFromFs s) := by
  let s₁ : Machine := { s with bootLEDOn := true, window := ⟨true, true, true⟩ }
  have hs₁ : I s₁ := hI.frame (s := s) rfl rfl rfl hs
  obtain ⟨r, s₂, herase, hfmc, hr', -⟩ := flashEraseAppAll_outcome s₁
  have hs₂ : I s₂ := by
    have := hI.eraseAll s₁ hs₁
    rwa [herase] at this
  rw [Num487Boot.bootFromFs, bootLEDOn, bind_of_ok (modify_apply _ s), apromUpdateEnable,
    bind_of_ok (modify_apply _ _), bind_of_ok herase]
  by_cases hr : r ≠ 0
  · rw [if_pos hr]
    exact hs₂
  have hacc := hacc (hr'.mp (not_not.mp hr))
  rw [if_neg hr, bind_of_ok (clearBuffer_apply s₂)]
  let s₃ : Machine := { s₂ with blBuffer := zeroed s₂.blBuffer }
  have hs₃ : I s₃.afterMount := hI.afterMount (hI.frame (s := s₂) rfl rfl rfl hs₂)
  have hvol : s₃.afterMount.volume = s.volume.mountOrFormat := by
    rw [volume_afterMount]
    simp only [s₃, s₁, Machine.volume, hfmc.lfs, hfmc.lfsVerdicts]
  have hbuf : s₃.afterMount.blBuffer = zeroed s.blBuffer := by
    rw [blBuffer_afterMount]
    simp only [s₃, s₁, hfmc.blBuffer]
  rw [bind_of_ok (mountOrFormat_apply s₃), lfsFileOpen]
  cases hopen : (LfsCall.fileOpen bootReadFlags).asserts s₃.afterMount.lfs with
  | false =>
      rw [bind_of_error (lfsInvoke_assert _ _ hopen)]
      exact ⟨fun _ h => (by cases h), hI.logOne (fun _ _ h => by cases h) hs₃⟩
  | true =>
      rw [bind_of_ok (lfsInvoke_apply _ _ hopen), lfsFileSize]
      have hs₄ := hI.afterCall (.fileOpen bootReadFlags) (Lfs.fileOpen bootReadFlags) id hs₃
      cases hsize : LfsCall.fileSize.asserts (s₃.afterMount.afterCall (.fileOpen bootReadFlags)
          (Lfs.fileOpen bootReadFlags) id).lfs with
      | false =>
          rw [bind_of_error (lfsInvoke_assert _ _ hsize)]
          exact ⟨fun _ h => (by cases h), hI.logOne (fun _ _ h => by cases h) hs₄⟩
      | true =>
          rw [bind_of_ok (lfsInvoke_apply _ _ hsize)]
          refine hI.bootRecords (hI.afterCall _ _ _ hs₄) ?_
          rw [Volume.bootDeliveries, Volume.bootSize, Volume.bootOpened, ← hvol] at hacc
          rw [← hbuf] at hacc
          exact hacc

/-- A reply. -/
theorem Safeguard.replied {s : Machine} (f : Frame) (hs : I s) : I (s.replied f) :=
  hI.log (s := s.holding f) (by simp) (hI.frame (s := s) rfl rfl rfl hs)

/-- A status reply. -/
theorem Safeguard.sendStatus (status : UInt8) : Safe I (sendStatus status) := by
  intro s hs
  rw [sendStatus_apply]
  exact hI.replied _ hs

/-- A reply with a number. -/
theorem Safeguard.replyNumber (number : UInt8) : Safe I (replyNumber number) := by
  intro s hs
  rw [replyNumber_apply]
  exact hI.replied _ hs

/-- A store inside the buffer. -/
theorem Safeguard.storeBuffer {i : ℕ} (h : i < bufferSize) (b : UInt8) :
    Safe I (storeBuffer i b) := by
  intro s hs
  rw [storeBuffer_of_lt h]
  exact hI.frame (s := s) rfl rfl rfl hs

/-- A read of the flash. -/
theorem Safeguard.fmcRead (addr : UInt32) : Safe I (fmcRead addr) := by
  intro s hs
  rw [fmcRead_apply]
  exact hI.read s _ _ hs

/-- Reads of the flash into a part of the buffer. -/
theorem Safeguard.readWords (base n : ℕ) (addr : UInt32) (i : ℕ)
    (hfits : base + i + 4 * n ≤ bufferSize) : Safe I (readWords base n addr i) := by
  induction n generalizing addr i with
  | zero => exact .pure fun _ h => h
  | succ n ih =>
      rw [Num487Boot.readWords]
      refine .bind (hI.fmcRead addr) fun _ => .bind (hI.storeBuffer (by omega) _) fun _ =>
        .bind (hI.storeBuffer (by omega) _) fun _ => .bind (hI.storeBuffer (by omega) _) fun _ =>
          .bind (hI.storeBuffer (by omega) _) fun _ => .bind (.get) fun _ => ?_
      exact .ite (fun _ => .pure fun _ h => h.1)
        fun _ => (ih (addr + 4) (i + 4) (by omega)).conseq (fun _ h => h.1) fun _ _ h => h

/-- The erase of the application section. -/
theorem Safeguard.flashEraseAppAll : Safe I flashEraseAppAll := by
  intro s hs
  obtain ⟨r, t, es, hrun, -⟩ := flashEraseAppAll_spec s
  have hkeep := hI.eraseAll s hs
  rw [hrun] at hkeep ⊢
  exact hkeep

/-- A page write at an address in `A`. -/
theorem Safeguard.flashWriteAppPage {dest : UInt32} (hA : A dest) (buf : ℕ → UInt8) :
    Safe I (flashWriteAppPage dest buf) := by
  intro s hs
  obtain ⟨r, t, es, hrun, -⟩ := writeWords_spec buf (blFlashPacsize / 4) dest 0 s
  have hkeep := hI.page hA buf s hs
  rw [Num487Boot.flashWriteAppPage, hrun] at hkeep ⊢
  exact hkeep

/-! ### Handlers and passes -/

/-- The acceptance of a frame. -/
theorem Safeguard.accept : Safe I accept := by
  intro s hs
  exact hI.logOne (fun _ _ h => by cases h) hs

/-- The handler of `CMD_FLASH_SET_PGSZ`. -/
theorem Safeguard.handleFlashSetPgsz : Safe I handleFlashSetPgsz :=
  .bind .get fun _ => (Triple.ite (fun _ => hI.sendStatus nack) (fun _ => hI.sendStatus ack)).conseq
    (fun _ h => h.1) fun _ _ h => h

/-- The handler of `CMD_FLASH_GET_PGSZ`. -/
theorem Safeguard.handleFlashGetPgsz : Safe I handleFlashGetPgsz := by
  intro s hs
  rw [handleFlashGetPgsz_apply]
  exact hI.replied _ hs

/-- The handler of `CMD_FLASH_WRITE`: its guard keeps addresses out of the bootloader. -/
theorem Safeguard.handleFlashWrite (hA : ∀ dest, bootloaderEnd < dest → A dest) :
    Safe I handleFlashWrite := by
  refine .bind .get fun u => Triple.conseq (P := I) ?_ (fun _ h => h.1) fun _ _ h => h
  refine .ite (fun _ => hI.sendStatus nack) fun hdest => ?_
  refine .bind (hI.flashWriteAppPage (hA _ (UInt32.not_le.mp hdest)) _) fun _ => ?_
  exact .ite (fun _ => hI.sendStatus nack) (fun _ => hI.sendStatus ack)

/-- The handler of `CMD_FLASH_READ`: the page fits behind the status byte. -/
theorem Safeguard.handleFlashRead : Safe I handleFlashRead := by
  refine .bind .get fun u => Triple.conseq (P := I) ?_ (fun _ h => h.1) fun _ _ h => h
  refine .bind (hI.readWords 1 _ _ 0 (by decide)) fun _ => .ite (fun _ => hI.sendStatus nack) ?_
  intro _ s hs
  rw [sendPage_apply]
  exact hI.replied _ hs

/-- The handler of `CMD_FLASH_ERASE_ALL`. -/
theorem Safeguard.handleFlashEraseAll : Safe I handleFlashEraseAll :=
  .bind hI.flashEraseAppAll fun _ =>
    .ite (fun _ => hI.sendStatus nack) (fun _ => hI.sendStatus ack)

/-- The handler of `CMD_EXT_FLASH_FOPEN`. -/
theorem Safeguard.handleExtFlashFopen : Safe I handleExtFlashFopen := by
  have hmount : Safe I Num487Boot.mountOrFormat := by
    intro s hs
    rw [mountOrFormat_apply]
    exact hI.afterMount hs
  exact .bind hmount fun _ => .bind (hI.lfsInvoke _ _ _) fun _ =>
    .bind (hI.lfsInvoke _ _ _) fun _ => hI.sendStatus ack

/-- The handler of `CMD_EXT_FLASH_FCLOSE`. -/
theorem Safeguard.handleExtFlashFclose : Safe I handleExtFlashFclose :=
  .bind (hI.lfsInvoke _ _ _) fun _ => .bind (hI.lfsInvoke _ _ _) fun _ => hI.sendStatus ack

/-- The handler of `CMD_EXT_FLASH_WRITE`. -/
theorem Safeguard.handleExtFlashWrite : Safe I handleExtFlashWrite :=
  .bind (hI.lfsInvoke _ _ _) fun _ => .bind .get fun _ =>
    .bind ((hI.lfsInvoke _ _ _).conseq (fun _ h => h.1) fun _ _ h => h) fun _ => hI.sendStatus ack

/-- One command: only `CMD_PROG_EXT_FLASH_BOOT` depends on what LittleFS delivers. -/
theorem Safeguard.dispatch (hA : ∀ dest, bootloaderEnd < dest → A dest) {s : Machine} (c : Command)
    (hs : I s)
    (hboot : c = .progExtFlashBoot → Carried s.verdicts.isp eraseCommands →
      Acceptable A s.volume.bootDeliveries (zeroed s.blBuffer)) :
    Ends (fun _ => I) (InBounds I) (dispatch c s) := by
  have hstay {x : Prog Unit} (control : Control) (hx : Safe I x) :
      Safe I (do x; pure control : Prog Control) :=
    .bind hx fun _ => .pure fun _ h => h
  cases c with
  | chkProtocol => exact hstay .again (hI.replyNumber 1) s hs
  | chkDevice => exact hstay .again (hI.replyNumber dNum487kmDevb) s hs
  | progEnd => exact hstay .leave (hI.sendStatus ack) s hs
  | progExtFlashBoot =>
      have hrun := hI.bootFromFs hs (hboot rfl)
      rw [Num487Boot.dispatch, handleProgExtFlashBoot, bind_assoc]
      exact hrun.bind fun _ t ht => hstay .again (hI.sendStatus ack) t ht
  | flashSetPgsz => exact hstay .again hI.handleFlashSetPgsz s hs
  | flashGetPgsz => exact hstay .again hI.handleFlashGetPgsz s hs
  | flashWrite => exact hstay .again (hI.handleFlashWrite hA) s hs
  | flashRead => exact hstay .again hI.handleFlashRead s hs
  | flashVerify | flashEraseSector | unsupported =>
      exact hstay .again (hI.sendStatus nack) s hs
  | flashEraseAll => exact hstay .again hI.handleFlashEraseAll s hs
  | extFlashFopen => exact hstay .again hI.handleExtFlashFopen s hs
  | extFlashFclose => exact hstay .again hI.handleExtFlashFclose s hs
  | extFlashWrite => exact hstay .again hI.handleExtFlashWrite s hs
  | extFlashRead | extFlashVerify | extFlashEraseSector | extFlashHexDel | eepromSetPgsz
  | eepromGetPgsz | eepromWrite | eepromRead | eepromEraseAll => exact hs

/-- A pass that starts with `get_packet`: what follows an accepted frame decides. -/
theorem Safeguard.receive {s : Machine} {x : Prog Control}
    (hlen : ∀ n ∈ s.announced, n ≤ bufferSize) (hs : I s)
    (hx : ∀ f r, s.Incoming f → I ((s.withRx r).holding f) →
      Ends (fun _ => I) (InBounds I) (x ((s.withRx r).holding f))) :
    Ends (fun _ => I) (InBounds I)
      ((do let r ← getPacket; if r ≠ 0 then pure .again else x : Prog Control) s) := by
  have hmoves := receives_getPacket s
  cases hget : getPacket s with
  | error e t =>
      rw [bind_of_error hget]
      have hends := getPacket_ends hlen
      rw [hget] at hends hmoves
      obtain rfl : e = .starved := hends
      have ht : t = { s with rx := t.rx, pac := t.pac, blBuffer := t.blBuffer } := hmoves
      exact ⟨fun _ h => (by cases h), hI.frame (by rw [ht]) (by rw [ht]) (by rw [ht]) hs⟩
  | ok r t =>
      rw [bind_of_ok hget]
      rw [hget] at hmoves
      have ht' : t = { s with rx := t.rx, pac := t.pac, blBuffer := t.blBuffer } := hmoves
      have ht : I t := hI.frame (by rw [ht']) (by rw [ht']) (by rw [ht']) hs
      by_cases hr : r ≠ 0
      · rw [if_pos hr]
        exact ht
      · obtain rfl : r = successed := not_not.mp hr
        obtain ⟨f, ps, r, hrx, hps, rfl⟩ := getPacket_successed hget
        rw [if_neg hr]
        exact hx f r ⟨ps, r, hrx, hps⟩ ht

/-- A pass of the handshake loop. -/
theorem Safeguard.establishPass {s : Machine} (hlen : ∀ n ∈ s.announced, n ≤ bufferSize)
    (hs : I s) : Ends (fun _ => I) (InBounds I) (establishPass s) := by
  refine hI.receive hlen hs fun f r _ ht => ?_
  have hanswer : Safe I (do
      let cmd ← Num487Boot.accept
      if cmd = cmdChkProtocol then do
        Num487Boot.replyNumber 1
        pure .leave
      else do
        sendNACK
        pure .again : Prog Control) :=
    .bind hI.accept fun _ => .ite
      (fun _ => .bind (hI.replyNumber 1) fun _ => .pure fun _ h => h)
      (fun _ => .bind (hI.sendStatus nack) fun _ => .pure fun _ h => h)
  exact hanswer _ ht

/-- A pass of the command loop. -/
theorem Safeguard.commandPass (hA : ∀ dest, bootloaderEnd < dest → A dest) {s : Machine}
    (hlen : ∀ n ∈ s.announced, n ≤ bufferSize) (hs : I s)
    (hboot : ∀ f, s.Incoming f → Command.ofByte f.cmd = .progExtFlashBoot →
      Carried s.verdicts.isp eraseCommands →
        Acceptable A s.volume.bootDeliveries (zeroed s.blBuffer)) :
    Ends (fun _ => I) (InBounds I) (commandPass s) := by
  refine hI.receive hlen hs fun f r hf ht => ?_
  have haccept := hI.accept _ ht
  rw [Num487Boot.accept, bind_of_ok (get_apply _), bind_of_ok (modify_apply _ _)] at haccept
  rw [Num487Boot.accept, bind_assoc, bind_of_ok (get_apply _), bind_assoc,
    bind_of_ok (modify_apply _ _)]
  refine hI.dispatch hA (.ofByte f.cmd) haccept fun hcmd hcarried => ?_
  have hacc := hboot f hf hcmd hcarried
  rw [← zeroed_overlay f.fits] at hacc
  exact hacc

/-- **One pass** under the condition on the state it starts in. -/
theorem Safeguard.mainPass (hA : ∀ dest, bootloaderEnd < dest → A dest) {s : Machine}
    (hlen : ∀ n ∈ s.announced, n ≤ bufferSize) (hs : I s)
    (hboot : ∀ f, s.phase = .command → s.Incoming f → Command.ofByte f.cmd = .progExtFlashBoot →
      Carried s.verdicts.isp eraseCommands →
        Acceptable A s.volume.bootDeliveries (zeroed s.blBuffer)) :
    Ends (fun _ => I) (InBounds I) (mainPass s) := by
  have hopen : Safe I apromUpdateEnable :=
    hI.modify (fun _ => rfl) (fun _ => rfl) fun _ => rfl
  have henter (phase : Phase) : Safe I (enter phase) :=
    hI.modify (fun _ => rfl) (fun _ => rfl) fun _ => rfl
  cases hphase : s.phase with
  | loopHead =>
      rw [mainPass_loopHead hphase]
      exact Triple.bind hopen (fun _ => henter .handshake) s hs
  | handshake =>
      have hpass := hI.establishPass hlen hs
      rw [mainPass_handshake hphase]
      refine hpass.bind fun control t ht => ?_
      cases control with
      | again => exact ht
      | leave => exact henter .command t ht
  | command =>
      have hpass := hI.commandPass hA hlen hs fun f => hboot f hphase
      rw [mainPass_command hphase]
      refine hpass.bind fun control t ht => ?_
      cases control with
      | again => exact ht
      | leave => exact Triple.bind hopen (fun _ => henter .loopHead) t ht

end Safe

/-! ### Runs -/

/-- The step condition: no frame at the front of the receive line announces more data than
the buffer holds, and when the next command boots from the file system and the erase is going
to be carried out, what LittleFS will deliver is acceptable. -/
def Config.Meets (A : UInt32 → Prop) : Config → Verdicts → Prop
  | .live s, v =>
      (∀ n ∈ s.announced, n ≤ bufferSize) ∧
      ∀ f, s.phase = .command → s.Incoming f → Command.ofByte f.cmd = .progExtFlashBoot →
        Carried v.isp eraseCommands →
          Acceptable A (Volume.mk s.lfs v.lfs).bootDeliveries (zeroed s.blBuffer)
  | .dead _ _, _ => True

/-- The condition, checked on the machine of a configuration. -/
theorem Config.meets_of_machine {A : UInt32 → Prop} {c : Config} {v : Verdicts}
    (hlen : ∀ n ∈ c.machine.announced, n ≤ bufferSize)
    (hacc : c.machine.phase = .command →
      Acceptable A (Volume.mk c.machine.lfs v.lfs).bootDeliveries (zeroed c.machine.blBuffer)) :
    c.Meets A v := by
  cases c with
  | live s => exact ⟨hlen, fun _ hphase _ _ _ => hacc hphase⟩
  | dead e s => trivial

/-- The machine has `J`, and has not been halted by a store outside the buffer. -/
def Config.Sound (J : Machine → Prop) : Config → Prop
  | .live s => J s
  | .dead e s => InBounds J e s

/-- **Runs.** From a state with `J`, a run whose steps all meet the condition ends in a state
with `J` and never leaves the buffer. `I` is what a pass keeps under surroundings with `V`. -/
theorem Safeguard.run {I J : Machine → Prop} {A : UInt32 → Prop} {V : Verdicts → Prop}
    (hI : Safeguard I A) (hA : ∀ dest, bootloaderEnd < dest → A dest)
    (hload : ∀ s v, V v → J s → I (s.load v)) (hkeep : ∀ s, I s → J s) {c : Config}
    {vs : List Verdicts} (hV : ∀ v ∈ vs, V v)
    (hguard : Runs.Guarded Config.step (Config.Meets A) c vs) (hc : c.Sound J) :
    (c.run vs).Sound J := by
  refine (hguard.and_forall hV).invariant _ ?_ hc
  rintro (s | ⟨e, s⟩) v ⟨hmeets, hv⟩ hs
  · have hpass := hI.mainPass hA (s := s.load v) hmeets.1 (hload s v hv hs) hmeets.2
    rw [Config.step]
    cases hrun : Num487Boot.mainPass (s.load v) with
    | ok _ t =>
        rw [hrun] at hpass
        exact hkeep t hpass
    | error e t =>
        rw [hrun] at hpass
        exact ⟨hpass.1, hkeep t hpass.2⟩
  · exact hs

end Num487Boot
