import Num487Boot.Documented
import Num487Boot.RequestResponse

/-!
# The Two Programming Paths

A host can program the application in two ways: page by page with `CMD_FLASH_WRITE`, or by
appending the same 516-byte records to the file `/boot` and having `boot_from_fs` replay it.
With nothing failing both sessions leave the same internal flash, which is the erased section
with the records programmed one after the other (`Flash.record`).

## Main results

* `bootRecords_allWell`: the record loop of `boot_from_fs` programs the records of the file
  in order, each once.
* `programmingPaths_agree`: the two sessions agree.
-/

namespace Num487Boot

open Exec Memory

/-! ### Records -/

/-- The address in the first four bytes of a record. -/
def recordAddr (bytes : List UInt8) : UInt32 := leWord (fun i => bytes.getD i 0) 0

/-- A record whose page lies in the application section. -/
structure Record where
  bytes : List UInt8
  size : bytes.length = bufferSize
  low : userAppStart ≤ recordAddr bytes
  high : (recordAddr bytes).toNat + 511 ≤ userAppEnd.toNat

/-- A file of records has 516 bytes for each. -/
theorem length_image (ps : List Record) :
    (ps.flatMap (·.bytes)).length = ps.length * bufferSize := by
  induction ps with
  | nil => rfl
  | cons p ps ih =>
      rw [List.flatMap_cons, List.length_append, ih, p.size, List.length_cons, Nat.succ_mul,
        Nat.add_comm]

/-- The frame that carries a record. -/
def Record.frame (cmd : UInt8) (p : Record) : Frame := ⟨cmd, p.bytes, Nat.le_of_eq p.size⟩

/-- The flash after a record has been programmed. -/
def Flash.record (flash : Flash) (p : Record) : Flash :=
  flash.burn (fun i => p.bytes.getD (4 + i) 0) 128 (recordAddr p.bytes) 0

/-- Burning depends on the bytes of the page only. -/
theorem Flash.burn_congr {b₁ b₂ : ℕ → UInt8} {n : ℕ} (flash : Flash) (addr : UInt32) {i : ℕ}
    (h : ∀ j < 4 * n, b₁ (i + j) = b₂ (i + j)) :
    flash.burn b₁ n addr i = flash.burn b₂ n addr i := by
  induction n generalizing flash addr i with
  | zero => rfl
  | succ n ih =>
      rw [burn, burn, leWord_congr fun j hj => h j (by omega),
        ih _ (addr + 4) fun j hj => by rw [Nat.add_assoc, h (4 + j) (by omega)]]

/-- A buffer that starts with a record programs that record. -/
theorem Flash.burn_record (flash : Flash) {p : Record} {buf : ℕ → UInt8}
    (h : ∀ i < bufferSize, buf i = p.bytes.getD i 0) :
    leWord buf 0 = recordAddr p.bytes ∧
      flash.burn (fun i => buf (4 + i)) 128 (leWord buf 0) 0 = flash.record p := by
  have haddr : leWord buf 0 = recordAddr p.bytes :=
    leWord_congr fun j hj => h (0 + j) (by simp only [bufferSize]; omega)
  refine ⟨haddr, ?_⟩
  rw [haddr]
  exact burn_congr flash _ fun j hj => h _ (by simp only [bufferSize]; omega)

/-- A record fills the buffer. -/
theorem overlay_record {p : Record} (buf : ℕ → UInt8) {i : ℕ} (hi : i < bufferSize) :
    overlay buf 0 p.bytes i = p.bytes.getD i 0 := by
  have hlt : i < p.bytes.length := by rwa [p.size]
  rw [overlay_zero_apply hlt, List.getD_eq_getElem?_getD, List.getElem?_eq_getElem hlt]
  rfl

/-- A record is addressed above the bootloader. -/
theorem Record.not_guarded (p : Record) : ¬ recordAddr p.bytes ≤ bootloaderEnd := by
  have hlow := p.low
  rw [UInt32.le_iff_toNat_le] at hlow ⊢
  rw [toNat_bootloaderEnd]
  rw [toNat_userAppStart] at hlow
  omega

/-! ### Replaying the file -/

section Replay

variable {s : Machine}

/-- Reading the next record of the file into the buffer. -/
theorem lfsFileRead_record {f : LfsFile} {p : Record} {rest : List UInt8}
    (hs : s.verdicts = .allWell) (hfile : s.lfs.file = some f) (hread : f.flags.rdonly = true)
    (hcontent : f.content.1.drop f.pos = p.bytes ++ rest) :
    ∃ t : Machine, lfsFileRead bufferSize s =
        .ok (bufferSize : ℤ) { t with blBuffer := overlay s.blBuffer 0 p.bytes } ∧
      t.verdicts = .allWell ∧ t.flash = s.flash ∧
      t.lfs = { s.lfs with file := some { f with pos := f.pos + bufferSize } } := by
  have htake : (f.content.1.drop f.pos).take bufferSize = p.bytes := by
    rw [hcontent, ← p.size, List.take_left]
  have hret : (Lfs.fileRead bufferSize s.lfs .asDocumented) =
      (((bufferSize : ℤ), p.bytes),
        { s.lfs with file := some { f with pos := f.pos + bufferSize } }) := by
    simp [Lfs.fileRead, hfile, htake, p.size]
  let t := s.called (.fileRead bufferSize) bufferSize
    { s.lfs with file := some { f with pos := f.pos + bufferSize } }
  refine ⟨t, ?_, hs, rfl, rfl⟩
  have hcall : (LfsCall.fileRead bufferSize).asserts s.lfs = true := by
    simp [LfsCall.asserts, hfile, hread]
  rw [lfsFileRead, bind_of_ok (lfsInvoke_allWell (Lfs.fileRead bufferSize) Prod.fst hs hcall), hret,
    bind_of_ok (storeBytes_of_fits (by rw [p.size]; decide) _)]
  rfl

/-- A record in the buffer is programmed. -/
theorem programRecord_allWell {p : Record} (hs : s.verdicts = .allWell)
    (hbuf : ∀ i < bufferSize, s.blBuffer i = p.bytes.getD i 0) :
    ∃ t, programRecord s = .ok successed t ∧ FmcStep s t ∧ t.flash = s.flash.record p := by
  obtain ⟨t, hrun, hstep, hflash⟩ :=
    flashWriteAppPage_allWell (leWord s.blBuffer 0) (fun i => s.blBuffer (4 + i)) hs
  refine ⟨t, ?_, hstep, hflash.trans (s.flash.burn_record hbuf).2⟩
  rw [programRecord, bind_of_ok (get_apply s)]
  exact hrun

/-- After the last record the file is closed and the instance unmounted. -/
theorem bootTail_allWell {f : LfsFile} (hs : s.verdicts = .allWell)
    (hfile : s.lfs.file = some f) : ∃ t, bootTail 0 s = .ok successed t ∧ t.flash = s.flash := by
  have hcall : LfsCall.fileClose.asserts s.lfs = true := by simp [LfsCall.asserts, hfile]
  rw [bootTail, if_neg (by simp), lfsFileClose,
    bind_of_ok (lfsInvoke_allWell Lfs.fileClose id hs hcall), lfsUnmount,
    bind_of_ok (lfsInvoke_allWell Lfs.unmount id (by exact hs) rfl)]
  exact ⟨_, rfl, rfl⟩

/-- **Replay.** The loop of `boot_from_fs` over a file of whole records programs them in
order, each once. -/
theorem bootRecords_allWell (ps : List Record) {f : LfsFile} (hs : s.verdicts = .allWell)
    (hfile : s.lfs.file = some f) (hread : f.flags.rdonly = true)
    (hcontent : f.content.1.drop f.pos = ps.flatMap (·.bytes)) :
    ∃ t, bootRecords ps.length (ps.length * bufferSize : ℕ) s = .ok successed t ∧
      t.flash = ps.foldl Flash.record s.flash := by
  induction ps generalizing s f with
  | nil => exact bootTail_allWell hs hfile
  | cons p ps ih =>
      rw [List.flatMap_cons] at hcontent
      obtain ⟨t, hfread, ht, hflash, hlfs⟩ := lfsFileRead_record hs hfile hread hcontent
      obtain ⟨u, hprog, hstep, huflash⟩ :=
        programRecord_allWell (s := { t with blBuffer := overlay s.blBuffer 0 p.bytes }) ht
          fun i hi => overlay_record s.blBuffer hi
      have hsize : ((ps.length + 1) * bufferSize : ℕ) ≥ (bufferSize : ℤ) := by
        simp only [bufferSize]
        omega
      have hrest : ((ps.length + 1) * bufferSize : ℕ) - (bufferSize : ℤ) =
          (ps.length * bufferSize : ℕ) := by
        simp only [bufferSize]
        omega
      have hfile' : u.lfs.file = some { f with pos := f.pos + bufferSize } := by
        rw [hstep.lfs]
        exact congrArg Lfs.file hlfs
      have hcontent' : f.content.1.drop (f.pos + bufferSize) = ps.flatMap (·.bytes) := by
        rw [← List.drop_drop, hcontent, ← p.size, List.drop_left]
      obtain ⟨w, hloop, hwflash⟩ := ih (hstep.allWell ht) hfile' hread hcontent'
      refine ⟨w, ?_, ?_⟩
      · rw [List.length_cons, bootRecords, if_pos hsize, bind_of_ok hfread, bind_of_ok hprog,
          if_neg not_successed_ne_zero, hrest]
        exact hloop
      · rw [hwflash, huflash, List.foldl_cons]
        exact congrArg (fun fl => ps.foldl Flash.record (Flash.record fl p)) hflash

/-- `CMD_PROG_EXT_FLASH_BOOT` on a file of whole records. -/
theorem handleProgExtFlashBoot_does (ps : List Record) {content : FileData}
    (hs : s.verdicts = .allWell) (hlfs : s.lfs.disk = .formatted (some content))
    (hcontent : content.1 = ps.flatMap (·.bytes)) :
    ∃ l es, Does handleProgExtFlashBoot s (.reply s.pac.cmd [ack])
      (ps.foldl Flash.record (s.flash.erasedFrom 4)) l es := by
  let s₁ : Machine := { s with bootLEDOn := true, window := ⟨true, true, true⟩ }
  obtain ⟨s₂, herase, hstep, hflash₂⟩ := flashEraseAppAll_allWell (s := s₁) hs
  obtain ⟨s₃, hmount, -, hs₃, hflash₃, -, hlfs₃⟩ :=
    mountOrFormat_allWell (s := { s₂ with blBuffer := zeroed s₂.blBuffer }) (hstep.allWell hs)
  replace hlfs₃ : s₃.lfs = ⟨.formatted (some content), true, none⟩ := by
    have hdisk : s₂.lfs.disk = .formatted (some content) := by
      rw [hstep.lfs]
      exact hlfs
    rw [hlfs₃, hdisk]
    rfl
  let f : LfsFile := ⟨bootReadFlags, 0, content, false, false⟩
  let s₄ := s₃.called (.fileOpen bootReadFlags) 0 { s₃.lfs with file := some f }
  have hopen : lfsFileOpen bootReadFlags s₃ = .ok 0 s₄ := by
    rw [lfsFileOpen, lfsInvoke_allWell (Lfs.fileOpen bootReadFlags) id hs₃ (by rw [hlfs₃]; rfl)]
    simp only [Lfs.fileOpen, hlfs₃, s₄, f]
    rfl
  let s₅ := s₄.called .fileSize content.1.length s₄.lfs
  have hsize : lfsFileSize s₄ = .ok (content.1.length : ℤ) s₅ :=
    lfsInvoke_allWell Lfs.fileSize id (by exact hs₃) rfl
  have hlen : content.1.length = ps.length * bufferSize := by rw [hcontent, length_image]
  have hpasses : (content.1.length : ℤ).toNat / bufferSize = ps.length := by
    rw [hlen, Int.toNat_natCast]
    exact Nat.mul_div_cancel _ (by decide)
  obtain ⟨t, hloop, hflash⟩ :=
    bootRecords_allWell ps (s := s₅) (f := f) (by exact hs₃) rfl rfl hcontent
  have hboot : bootFromFs s = .ok successed t := by
    have henabled : Machine.mk .. = s₁ := rfl
    rw [bootFromFs, bootLEDOn, bind_of_ok (modify_apply _ s), apromUpdateEnable,
      bind_of_ok (modify_apply _ _), henabled, bind_of_ok herase,
      if_neg not_successed_ne_zero, bind_of_ok (clearBuffer_apply s₂), bind_of_ok hmount,
      bind_of_ok hopen, bind_of_ok hsize, hpasses, hlen]
    exact hloop
  have hquiet : Quiet s t := bootFromFs_quiet.of_ok hboot
  obtain ⟨es, htrace, -⟩ := hquiet.trace
  refine ⟨t.lfs, es, t, ?_, hquiet, ?_, rfl, htrace⟩
  · rw [handleProgExtFlashBoot, bind_of_ok hboot, ← hquiet.pac]
    exact sendStatus_apply ack t
  · rw [hflash]
    exact congrArg (ps.foldl Flash.record) (hflash₃.trans hflash₂)

end Replay

/-! ### Serving a session -/

/-- Between `s` and `t` the calls `es` were made. -/
def Calls (es : List Event) (s t : Machine) : Prop :=
  ∃ x, t.trace = s.trace ++ x ∧ x.filter Event.isCall = es

/-- The calls of two runs in a row. -/
theorem Calls.trans {es₁ es₂ : List Event} {s t u : Machine} (h₁ : Calls es₁ s t)
    (h₂ : Calls es₂ t u) : Calls (es₁ ++ es₂) s u := by
  obtain ⟨x₁, ht, rfl⟩ := h₁
  obtain ⟨x₂, hu, rfl⟩ := h₂
  exact ⟨x₁ ++ x₂, by rw [hu, ht, List.append_assoc], List.filter_append _ _⟩

/-- The calls made are the calls in the log between. -/
theorem Calls.newCalls {es : List Event} {s t : Machine} (h : Calls es s t) :
    newCalls s t = es := by
  obtain ⟨x, ht, rfl⟩ := h
  rw [Num487Boot.newCalls, ht, List.drop_left]

/-- Between `s` and `t` the bytes `bytes` were sent. -/
def Sends (bytes : List UInt8) (s t : Machine) : Prop :=
  txBytes t.trace = txBytes s.trace ++ bytes

/-- The bytes of two runs in a row. -/
theorem Sends.trans {xs ys : List UInt8} {s t u : Machine} (h₁ : Sends xs s t)
    (h₂ : Sends ys t u) : Sends (xs ++ ys) s u := by
  rw [Sends] at h₁ h₂ ⊢
  rw [h₂, h₁, List.append_assoc]

/-- A machine that waits for its next request, with `r` to receive. -/
structure Waiting (r : List UartPoll) (flash : Flash) (l : Lfs) (s : Machine) : Prop where
  phase : s.phase = .command
  rx : s.rx = r
  flash : s.flash = flash
  lfs : s.lfs = l

/-- The command loop serves a request whose handler answers. -/
theorem step_serves {s : Machine} {f g : Frame} {r : List UartPoll} {x : Prog Unit} {flash : Flash}
    {l : Lfs} {es : List Event} (hphase : s.phase = .command)
    (hrx : s.rx = (encode f).map .byte ++ r)
    (hx : dispatch (.ofByte f.cmd) = (do x; pure .again))
    (h : Does x ((s.load .allWell).accepted f r) g flash l es) :
    ∃ t, Config.step (.live s) .allWell = .live t ∧ Waiting r flash l t ∧ Calls es s t ∧
      Sends (encode g) s t := by
  obtain ⟨u, hrun, hquiet, hflash, hlfs, htrace⟩ := h
  have hpass : mainPass (s.load .allWell) = .ok () (u.replied g) := by
    have hpass : commandPass (s.load .allWell) = .ok .again (u.replied g) := by
      rw [commandPass_encode (s := s.load .allWell) hrx, hx, bind_of_ok hrun]
      rfl
    rw [mainPass_command (s := s.load .allWell) hphase, bind_of_ok hpass]
    rfl
  refine ⟨_, Config.step_of_ok hpass,
    ⟨hquiet.phase.trans hphase, hquiet.rx, hflash, hlfs⟩,
    ⟨.accept s.phase f.cmd :: (es ++ (encode g).map .tx), ?_, ?_⟩, ?_⟩
  · show u.trace ++ (encode g).map .tx = _
    rw [htrace]
    simp [Machine.accepted, Machine.log, Machine.load, Machine.holding, Machine.withRx]
  · obtain ⟨es', htrace', hes'⟩ := hquiet.trace
    obtain rfl := List.append_cancel_left (htrace.symm.trans htrace')
    have hkeep : es.filter Event.isCall = es := List.filter_eq_self.mpr hes'
    have hdrop : ((encode g).map Event.tx).filter Event.isCall = [] := by
      simp [List.filter_eq_nil_iff, Event.isCall]
    rw [List.filter_cons_of_neg (by simp [Event.isCall]), List.filter_append, hkeep, hdrop,
      List.append_nil]
  · rw [Sends, u.txBytes_replied g, hquiet.txBytes, txBytes_accepted]
    rfl

/-- The log of `t` extends the log of `s`. -/
def Logs (s t : Machine) : Prop := s.trace <+: t.trace

instance : Std.Refl Logs where
  refl _ := List.prefix_rfl

instance : IsTrans Machine Logs where
  trans _ _ _ := List.IsPrefix.trans

/-- What is logged without bytes are calls. -/
theorem Logs.calls {s t : Machine} (h : Logs s t) : ∃ es, Calls es s t := by
  obtain ⟨x, hx⟩ := h
  exact ⟨_, x, hx.symm, rfl⟩

/-- A boot request only adds to the log, whether it is served or halts the bootloader. -/
theorem step_boot_logs {s : Machine} {v : Verdicts} {r : List UartPoll}
    (hphase : s.phase = .command)
    (hrx : s.rx = (encode (.request cmdProgExtFlashBoot)).map .byte ++ r) :
    Logs s (Config.step (.live s) v).machine := by
  have hboot : Moves Logs handleProgExtFlashBoot :=
    .bind (bootFromFs_quiet.mono fun s t h => by
      obtain ⟨es, htrace, -⟩ := h.trace
      exact ⟨es, htrace.symm⟩) fun _ s => by
      rw [show sendACK s = _ from sendStatus_apply ack s]
      exact ⟨_, rfl⟩
  let s' := (s.load v).accepted (.request cmdProgExtFlashBoot) r
  have hstart : Logs s s' := ⟨[.accept s.phase cmdProgExtFlashBoot], rfl⟩
  have hpass : commandPass (s.load v)
      = (do handleProgExtFlashBoot; pure .again : Prog Control) s' :=
    commandPass_encode (s := s.load v) hrx
  have hend := hboot s'
  rw [Config.step, mainPass_command (s := s.load v) hphase]
  cases hrun : handleProgExtFlashBoot s' with
  | ok _ t =>
      rw [hrun] at hend
      rw [bind_of_ok (hpass.trans (bind_of_ok hrun))]
      exact IsTrans.trans _ _ _ hstart hend
  | error e t =>
      rw [hrun] at hend
      rw [bind_of_error (hpass.trans (bind_of_error hrun))]
      exact IsTrans.trans _ _ _ hstart hend

/-- The frame of a record leaves the record in the buffer. -/
theorem accepted_record {s : Machine} {cmd : UInt8} {r : List UartPoll} (p : Record) {i : ℕ}
    (hi : i < bufferSize) :
    (s.accepted (p.frame cmd) r).blBuffer i = p.bytes.getD i 0 :=
  overlay_record s.blBuffer hi

/-! ### The direct path -/

/-- The frames of a list of records. -/
def recordFrames (cmd : UInt8) (ps : List Record) : List Frame := ps.map (Record.frame cmd)

/-- A session as it is received. -/
def line (session : List Frame) : List UartPoll := (session.flatMap encode).map .byte

/-- The line of a session: its first frame, and the others. -/
theorem line_cons (f : Frame) (session : List Frame) (r : List UartPoll) :
    line (f :: session) ++ r = (encode f).map .byte ++ (line session ++ r) := by
  rw [line, line, List.flatMap_cons, List.map_append, List.append_assoc]

/-- The page writes of the direct path. -/
theorem run_flashWrites (ps : List Record) {s : Machine} {r : List UartPoll} {flash : Flash}
    {l : Lfs} (h : Waiting (line (recordFrames cmdFlashWrite ps) ++ r) flash l s) :
    ∃ t, (Config.live s).run (List.replicate ps.length .allWell) = .live t ∧
      Waiting r (ps.foldl Flash.record flash) l t ∧
      Sends (ps.flatMap fun _ => encode (.reply cmdFlashWrite [ack])) s t := by
  induction ps generalizing s flash with
  | nil => exact ⟨s, rfl, h, (List.append_nil _).symm⟩
  | cons p ps ih =>
      let s' := (s.load .allWell).accepted (p.frame cmdFlashWrite)
        (line (recordFrames cmdFlashWrite ps) ++ r)
      have hbuf : ∀ i < bufferSize, s'.blBuffer i = p.bytes.getD i 0 :=
        fun i hi => accepted_record p hi
      obtain ⟨haddr, hburn⟩ := s.flash.burn_record hbuf
      obtain ⟨es, hdoes⟩ := handleFlashWrite_does (s := s') rfl (by rw [haddr]; exact p.not_guarded)
      obtain ⟨t, hstep, ht, -, hsent⟩ :=
        step_serves h.phase (h.rx.trans (line_cons _ _ r)) rfl hdoes
      have htail : Waiting (line (recordFrames cmdFlashWrite ps) ++ r) (flash.record p) l t :=
        ⟨ht.phase, ht.rx, by rw [ht.flash, ← h.flash]; exact hburn, ht.lfs.trans h.lfs⟩
      obtain ⟨u, hrun, hu, hsent'⟩ := ih htail
      refine ⟨u, ?_, hu, hsent.trans hsent'⟩
      rw [List.length_cons, List.replicate_succ]
      exact (congrArg (Config.run · _) hstep).trans hrun

/-! ### The path through the file -/

/-- A handle on `/boot` opened for appending to an empty file, with the bytes written since,
all of them still to be committed. -/
structure AppendHandle (bytes : List UInt8) (f : LfsFile) : Prop where
  flags : f.flags = bootWriteFlags
  erred : f.erred = false
  content : f.content.1 = bytes
  dirty : f.dirty = true ∨ bytes = []

/-- The instance while the file is being written: what the disk holds durably is the empty
file. -/
def openInstance (f : LfsFile) : Lfs := ⟨.formatted (some .empty), true, some f⟩

/-- A write to the handle, rewound as it is before every write, appends or returns
`LFS_ERR_FBIG` and changes nothing. -/
theorem AppendHandle.write {bytes : List UInt8} {f : LfsFile} (h : AppendHandle bytes f)
    (record : List UInt8) :
    let w := ({ f with pos := 0 } : LfsFile).write record
    ∃ mid, AppendHandle mid w.2 ∧ (w.1 = record.length → mid = bytes ++ record) := by
  intro w
  have happend : ({ f with pos := 0 } : LfsFile).flags.append = true := by
    rw [h.flags]
    rfl
  have hw : w = _ := LfsFile.write_append happend (Nat.zero_le _)
  by_cases hfits : (f.content.1 ++ record).length ≤ lfsFileMax
  · rw [dif_pos hfits] at hw
    refine ⟨bytes ++ record, ?_, fun _ => rfl⟩
    rw [hw]
    exact ⟨h.flags, rfl, congrArg (· ++ record) h.content, .inl rfl⟩
  · rw [dif_neg hfits] at hw
    refine ⟨bytes, ?_, fun hlen => ?_⟩
    · rw [hw]
      exact ⟨h.flags, h.erred, h.content, h.dirty⟩
    · rw [hw] at hlen
      simp only [lfsErrFbig] at hlen
      omega

/-- Every LittleFS write among the calls wrote what it was asked to. -/
def WritesInFull (es : List Event) : Prop :=
  ∀ (n : ℕ) (l : Lfs) (ret : Option ℤ) (printed : List MessageChar),
    .lfs (.fileWrite n) l ret printed ∈ es → ret = some (n : ℤ)

/-- When all calls of a session succeeded, its writes were in full. -/
theorem writesInFull_of_allSucceeded {es : List Event} (h : allSucceeded es = true) :
    WritesInFull es := by
  intro n l ret printed hmem
  fun_induction allSucceeded es with
  | case1 l₁ r p₁ l₂ p₂ l₃ p₃ es ih =>
      refine ih h ?_
      simpa using hmem
  | case2 e es _ ih =>
      rw [Bool.and_eq_true] at h
      rcases List.mem_cons.mp hmem with rfl | hmem
      · have hret := h.1
        cases ret with
        | none => cases hret
        | some ret => simpa [Event.succeeded, LfsCall.succeeds] using hret
      · exact ih h.2 hmem
  | case3 => cases hmem

/-- The record writes of the path through the file. -/
theorem run_extFlashWrites (ps : List Record) {s : Machine} {r : List UartPoll} {flash : Flash}
    {f : LfsFile} {bytes : List UInt8} (hf : AppendHandle bytes f)
    (h : Waiting (line (recordFrames cmdExtFlashWrite ps) ++ r) flash (openInstance f) s) :
    ∃ (t : Machine) (g : LfsFile) (image : List UInt8) (es : List Event),
      (Config.live s).run (List.replicate ps.length .allWell) = .live t ∧
        Waiting r flash (openInstance g) t ∧ AppendHandle image g ∧ Calls es s t ∧
        (WritesInFull es → image = bytes ++ ps.flatMap (·.bytes)) := by
  induction ps generalizing s f bytes with
  | nil => exact ⟨s, f, bytes, [], rfl, h, hf, ⟨[], by simp, rfl⟩, fun _ => by simp⟩
  | cons p ps ih =>
      let s' := (s.load .allWell).accepted (p.frame cmdExtFlashWrite)
        (line (recordFrames cmdExtFlashWrite ps) ++ r)
      have hlfs : s'.lfs = openInstance f := h.lfs
      have hslice : slice s'.blBuffer 0 bufferSize = p.bytes := by
        have hread := slice_overlay s.blBuffer 0 p.bytes
        rwa [p.size] at hread
      have hdoes :=
        handleExtFlashWrite_does (s := s') rfl (by rw [hlfs]; rfl) (by rw [hf.flags]; rfl)
      rw [hslice, hlfs] at hdoes
      obtain ⟨t, hstep, ht, hcalls, -⟩ :=
        step_serves h.phase (h.rx.trans (line_cons _ _ r)) rfl hdoes
      obtain ⟨mid, hmid, hfull⟩ := hf.write p.bytes
      obtain ⟨u, g, image, es, hrun, hu, hg, hcalls', himage⟩ := ih hmid (s := t)
        ⟨ht.phase, ht.rx, ht.flash.trans h.flash, ht.lfs⟩
      refine ⟨u, g, image, _, ?_, hu, hg, hcalls.trans hcalls', fun hwrites => ?_⟩
      · rw [List.length_cons, List.replicate_succ]
        exact (congrArg (Config.run · _) hstep).trans hrun
      · have hret := Option.some.inj (hwrites bufferSize _ _ _ (List.mem_append_left _
          (List.mem_cons_of_mem _ List.mem_cons_self)))
        rw [himage fun n l ret printed hmem =>
            hwrites n l ret printed (List.mem_append_right _ hmem),
          hfull (by rw [hret, p.size]), List.append_assoc, List.flatMap_cons]

/-! ### The sessions -/

/-- The session that programs the records directly. -/
def directSession (ps : List Record) : List Frame :=
  .request cmdFlashEraseAll :: recordFrames cmdFlashWrite ps

/-- The session that programs the records through the file `/boot`. -/
def fileSession (ps : List Record) : List Frame :=
  .request cmdExtFlashFopen :: recordFrames cmdExtFlashWrite ps ++
    [.request cmdExtFlashFclose, .request cmdProgExtFlashBoot]

/-- Where a machine ends that serves a session, one pass for each request, when nothing
fails. -/
def Machine.serve (s : Machine) (session : List Frame) : Config :=
  (Config.live (s.withRx (line session))).run (List.replicate session.length .allWell)

/-- The direct path: every request is acknowledged, and the flash is the erased section with
the records programmed in order. -/
theorem run_directSession (ps : List Record) {s : Machine} {r : List UartPoll} {flash : Flash}
    {l : Lfs} (h : Waiting (line (directSession ps) ++ r) flash l s) :
    ∃ t, (Config.live s).run (List.replicate (ps.length + 1) .allWell) = .live t ∧
      Waiting r (ps.foldl Flash.record (flash.erasedFrom 4)) l t ∧
      Sends (encode (.reply cmdFlashEraseAll [ack]) ++
        ps.flatMap fun _ => encode (.reply cmdFlashWrite [ack])) s t := by
  have hrx : s.rx = (encode (.request cmdFlashEraseAll)).map .byte ++
      (line (recordFrames cmdFlashWrite ps) ++ r) := h.rx.trans (line_cons _ _ r)
  obtain ⟨es, hdoes⟩ := handleFlashEraseAll_does (s := (s.load .allWell).accepted
    (.request cmdFlashEraseAll) (line (recordFrames cmdFlashWrite ps) ++ r)) rfl
  obtain ⟨t, hstep, ht, -, hsent⟩ := step_serves h.phase hrx rfl hdoes
  have ht : Waiting (line (recordFrames cmdFlashWrite ps) ++ r) (flash.erasedFrom 4) l t :=
    ⟨ht.phase, ht.rx, by rw [ht.flash, ← h.flash]; rfl, ht.lfs.trans h.lfs⟩
  obtain ⟨u, hrun, hu, hsent'⟩ := run_flashWrites ps ht
  refine ⟨u, ?_, hu, hsent.trans hsent'⟩
  rw [List.replicate_succ]
  exact (congrArg (Config.run · _) hstep).trans hrun

/-- The session of direct writes is served completely. -/
theorem serve_directSession (ps : List Record) {s : Machine} (hphase : s.phase = .command) :
    ∃ t, s.serve (directSession ps) = .live t ∧
      Waiting [] (ps.foldl Flash.record (s.flash.erasedFrom 4)) s.lfs t := by
  obtain ⟨t, hrun, ht, -⟩ := run_directSession ps (s := s.withRx (line (directSession ps)))
    (r := []) ⟨hphase, (List.append_nil _).symm, rfl, rfl⟩
  refine ⟨t, ?_, ht⟩
  rw [Machine.serve, directSession, List.length_cons, recordFrames, List.length_map]
  exact hrun

/-- The path through the file, up to the replay: the records are in `/boot` if the writes were
in full. -/
theorem run_upload (ps : List Record) {s : Machine} {r : List UartPoll}
    (hphase : s.phase = .command)
    (hrx : s.rx = line (.request cmdExtFlashFopen :: recordFrames cmdExtFlashWrite ps ++
      [.request cmdExtFlashFclose]) ++ r) :
    ∃ (t : Machine) (content : FileData) (es : List Event),
      (Config.live s).run (List.replicate (ps.length + 2) .allWell) = .live t ∧
        Waiting r s.flash ⟨.formatted (some content), false, none⟩ t ∧ Calls es s t ∧
        (WritesInFull es → content.1 = ps.flatMap (·.bytes)) := by
  have hrx : s.rx = (encode (.request cmdExtFlashFopen)).map .byte ++
      (line (recordFrames cmdExtFlashWrite ps) ++
        ((encode (.request cmdExtFlashFclose)).map .byte ++ r)) := by
    rw [hrx]
    simp [line]
  obtain ⟨es₁, hfopen⟩ := handleExtFlashFopen_does (s := (s.load .allWell).accepted
    (.request cmdExtFlashFopen) _) rfl
  obtain ⟨t₁, hstep₁, ht₁, hcalls₁, -⟩ := step_serves hphase hrx rfl hfopen
  have hempty : AppendHandle [] ⟨bootWriteFlags, 0, .empty, false, false⟩ :=
    ⟨rfl, rfl, rfl, .inr rfl⟩
  obtain ⟨t₂, g, image, es₂, hrun₂, ht₂, hg, hcalls₂, himage⟩ := run_extFlashWrites ps hempty ht₁
  let s₃ := (t₂.load .allWell).accepted (.request cmdExtFlashFclose) r
  have hlfs₃ : s₃.lfs = openInstance g := ht₂.lfs
  obtain ⟨es₃, hfclose⟩ := handleExtFlashFclose_does (s := s₃) (f := g) rfl
    (by rw [hlfs₃]; rfl) hg.erred
  obtain ⟨t₃, hstep₃, ht₃, hcalls₃, -⟩ := step_serves ht₂.phase ht₂.rx rfl hfclose
  obtain ⟨content, hcontent, hdisk⟩ : ∃ content : FileData, content.1 = image ∧
      (if g.dirty then Disk.formatted (some g.content) else s₃.lfs.disk) =
        .formatted (some content) := by
    by_cases hdirty : g.dirty = true
    · exact ⟨g.content, hg.content, by rw [if_pos hdirty]⟩
    · refine ⟨.empty, (hg.dirty.resolve_left hdirty).symm, ?_⟩
      rw [if_neg hdirty, hlfs₃]
      rfl
  refine ⟨t₃, content, es₁ ++ es₂ ++ es₃, ?_, ?_, (hcalls₁.trans hcalls₂).trans hcalls₃,
    fun hwrites => ?_⟩
  · have hwritten : Runs.run Config.step (.live t₁) _ = _ := hrun₂
    rw [List.replicate_succ, List.replicate_succ', Config.run, Runs.run_cons, Runs.run_append]
    rw [hstep₁, hwritten]
    exact hstep₃
  · rw [← hdisk]
    exact ⟨ht₃.phase, ht₃.rx, ht₃.flash.trans ht₂.flash, ht₃.lfs⟩
  · rw [hcontent, himage fun n l ret printed hmem => hwrites n l ret printed (by simp [hmem]),
      List.nil_append]

/-- **The path through the file.** Every request is served if the writes were in full, and the
flash is the erased section with the records programmed in order. -/
theorem serve_fileSession (ps : List Record) {s : Machine} (hphase : s.phase = .command) :
    ∃ es, Calls es s (s.serve (fileSession ps)).machine ∧ (WritesInFull es →
      ∃ t l, s.serve (fileSession ps) = .live t ∧
        Waiting [] (ps.foldl Flash.record (s.flash.erasedFrom 4)) l t) := by
  let s₀ := s.withRx (line (fileSession ps))
  let r := (encode (.request cmdProgExtFlashBoot)).map UartPoll.byte ++ []
  have hrx : s₀.rx = line (.request cmdExtFlashFopen :: recordFrames cmdExtFlashWrite ps ++
      [.request cmdExtFlashFclose]) ++ r := by
    simp [s₀, r, line, fileSession]
  obtain ⟨t, content, es, hrun, ht, hcalls, hcontent⟩ := run_upload ps (s := s₀) hphase hrx
  have hserve : s.serve (fileSession ps) = Config.step (.live t) .allWell := by
    have hlength : (fileSession ps).length = ps.length + 2 + 1 := by
      simp [fileSession, recordFrames]
    have hfile : Runs.run Config.step (.live s₀) _ = _ := hrun
    rw [Machine.serve, hlength, List.replicate_succ', Config.run, Runs.run_append, hfile]
    rfl
  obtain ⟨es', hcalls'⟩ := (step_boot_logs (v := .allWell) ht.phase ht.rx).calls
  rw [hserve]
  refine ⟨es ++ es', hcalls.trans hcalls', fun hwrites => ?_⟩
  obtain ⟨l, es'', hboot⟩ := handleProgExtFlashBoot_does ps
    (s := (t.load .allWell).accepted (.request cmdProgExtFlashBoot) []) rfl
    (congrArg Lfs.disk ht.lfs)
    (hcontent fun n l ret printed hmem => hwrites n l ret printed (List.mem_append_left _ hmem))
  obtain ⟨u, hstep, hu, -⟩ := step_serves ht.phase ht.rx rfl hboot
  refine ⟨u, l, hstep, hu.phase, hu.rx, hu.flash.trans ?_, hu.lfs⟩
  exact congrArg (fun fl => ps.foldl Flash.record (Flash.erasedFrom fl 4)) ht.flash

/-- **The two programming paths agree.** For every list of records in the application
section, every content of the internal flash, every state of the external flash and of the
machine that serves the sessions: if FMC and LittleFS behave as documented and every call of
the session through the file succeeds (a failing first mount that formatting repairs, and
the removal of an absent file, count as success), then both sessions are served completely
and leave the same internal flash. -/
theorem programmingPaths_agree (ps : List Record) (s : Machine) (hphase : s.phase = .command)
    (hcalls : allSucceeded (newCalls s (s.serve (fileSession ps)).machine) = true) :
    ∃ a b, s.serve (fileSession ps) = .live a ∧ s.serve (directSession ps) = .live b ∧
      a.rx = [] ∧ b.rx = [] ∧ a.flash = b.flash := by
  obtain ⟨es, hes, hfile⟩ := serve_fileSession ps hphase
  rw [hes.newCalls] at hcalls
  obtain ⟨a, l, ha, hwaiting⟩ := hfile (writesInFull_of_allSucceeded hcalls)
  obtain ⟨b, hb, hwaiting'⟩ := serve_directSession ps hphase
  exact ⟨a, b, ha, hb, hwaiting.rx, hwaiting'.rx, hwaiting.flash.trans hwaiting'.flash.symm⟩

/-- A record for the first page of the application section. -/
def firstPage : Record where
  bytes := [0, 0, 1, 0] ++ List.replicate 512 0x5A
  size := by rw [List.length_append, List.length_replicate]; rfl
  low := by decide
  high := by decide

/-- A record for the last page of the application section. -/
def lastPage : Record where
  bytes := [0, 0xFE, 7, 0] ++ List.replicate 512 0xC3
  size := by rw [List.length_append, List.length_replicate]; rfl
  low := by decide
  high := by decide

/-- Two records, over an external flash that has to be formatted first. -/
theorem programmingPaths_agree_endPages :
    let ps := [firstPage, lastPage]
    ∃ a b, (Machine.connected [] .unformatted .blank).serve (fileSession ps) = .live a ∧
      (Machine.connected [] .unformatted .blank).serve (directSession ps) = .live b ∧
      a.rx = [] ∧ b.rx = [] ∧ a.flash = b.flash :=
  programmingPaths_agree _ _ rfl (by decide +kernel)

end Num487Boot
