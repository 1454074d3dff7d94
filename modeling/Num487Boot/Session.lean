import Num487Boot.BootOutcome

/-!
# The File-System Session

LittleFS asks its callers for a discipline: mount an unmounted instance, remove and open on
a mounted one, and read, write or close the open handle. `LfsCall.pre` is the precondition
of each call on the instance it meets, and `Disciplined s` says that every call logged so
far met it. The order of the commands is up to the host; `Volume.ready` is the condition
under which one command makes its calls in good order.

The rules are about conditions on the volume: `At Φ s` is a disciplined machine whose volume
satisfies `Φ`.

## Main results

* `dispatch_disciplined`: a command that finds its volume ready makes every call in good
  order, and so does a boot from the file system that fails before its first call.
* `session_discipline`: in a run in which every accepted command finds its volume ready where
  it uses it, every LittleFS call meets its precondition.
* `write_without_fopen`: without that, an `LFS_ASSERT` of LittleFS fails.
-/

namespace Num487Boot

open Exec

/-! ### Preconditions -/

/-- No handle with content not yet on the disk is open. -/
def Lfs.flushed (l : Lfs) : Bool := !l.file.any (·.dirty)

/-- What LittleFS asks of the instance a call is made on. Mounting empties the open list, so
it must not drop a handle with unflushed writes. -/
def LfsCall.pre (l : Lfs) : LfsCall → Bool
  | .mount => !l.mounted && l.flushed
  | .format => !l.mounted && l.flushed
  | .unmount | .remove => l.mounted
  | .fileOpen _ => l.mounted && l.file.isNone
  | .fileClose | .fileSize | .fileRewind => l.file.isSome
  | .fileRead _ => l.file.any (·.flags.rdonly)
  | .fileWrite _ => l.file.any (·.flags.wronly)

/-- A logged LittleFS call met its precondition. -/
def Event.inOrder : Event → Bool
  | .lfs c l _ _ => c.pre l
  | .accept _ _ | .tx _ | .isp _ _ => true

/-- Every LittleFS call so far met its precondition. -/
def Disciplined (s : Machine) : Prop := ∀ e ∈ s.trace, e.inOrder = true

/-- The precondition of a call covers its assertions. -/
theorem LfsCall.asserts_of_pre {c : LfsCall} {l : Lfs} (h : c.pre l = true) :
    c.asserts l = true := by
  cases c <;> simp_all [pre, asserts]

/-! ### Rules -/

/-- A disciplined machine whose volume satisfies `Φ`. -/
def At (Φ : Volume → Prop) (s : Machine) : Prop := Disciplined s ∧ Φ s.volume

/-- From `At Φ`, `x` keeps the discipline, and returns with the volume in `Ψ`. -/
def Orderly {α : Type} (Φ : Volume → Prop) (x : Prog α) (Ψ : Volume → Prop) : Prop :=
  Triple (At Φ) x (fun _ => At Ψ) fun _ => Disciplined

/-- From `s` to `t` the volume stayed and no LittleFS call was logged. -/
structure Idle (s t : Machine) : Prop where
  volume : t.volume = s.volume
  trace : ∃ es, t.trace = s.trace ++ es ∧ ∀ e ∈ es, e.inOrder = true

instance : Std.Refl Idle where
  refl _ := ⟨rfl, [], by simp, by simp⟩

instance : IsTrans Machine Idle where
  trans := by
    rintro s t u ⟨hvol₁, hlog₁⟩ ⟨hvol₂, hlog₂⟩
    exact ⟨hvol₂.trans hvol₁, EventLog.grown_trans hlog₁ hlog₂⟩

/-- A stretch without a LittleFS call keeps the discipline. -/
theorem Idle.disciplined {s t : Machine} (h : Idle s t) (hs : Disciplined s) : Disciplined t := by
  obtain ⟨es, htrace, hes⟩ := h.trace
  rw [Disciplined, htrace]
  exact List.forall_mem_append.mpr ⟨hs, hes⟩

/-- The same volume and the same log. -/
theorem Idle.of_eq {s t : Machine} (hvol : t.volume = s.volume) (htrace : t.trace = s.trace) :
    Idle s t :=
  ⟨hvol, [], by simp [htrace], by simp⟩

/-- The controller makes no LittleFS call. -/
theorem FmcStep.idle {s t : Machine} (h : FmcStep s t) : Idle s t := by
  obtain ⟨es, htrace, hes⟩ := h.trace
  refine ⟨by rw [Machine.volume, h.lfs, h.lfsVerdicts]; rfl, es, htrace, fun e he => ?_⟩
  obtain ⟨n, c, rfl⟩ := hes e he
  rfl

/-- Receiving a packet makes no LittleFS call. -/
theorem Receives.idle {s t : Machine} (h : Receives s t) : Idle s t :=
  .of_eq (by rw [h]; rfl) (by rw [h])

/-- A reply makes no LittleFS call. -/
theorem idle_replied (s : Machine) (f : Frame) : Idle s (s.replied f) :=
  ⟨rfl, (encode f).map .tx, rfl, by simp [Event.inOrder]⟩

section Orderly

variable {α β : Type} {Φ Ψ Θ : Volume → Prop}

/-- What does not touch the volume keeps any condition on it. -/
theorem Orderly.of_idle {x : Prog α} (h : Moves Idle x) : Orderly Φ x Φ := by
  rintro s ⟨hs, hΦ⟩
  refine h.ends (fun _ t hmove => ⟨hmove.disciplined hs, ?_⟩) fun _ t hmove => hmove.disciplined hs
  rw [hmove.volume]
  exact hΦ

/-- One program after the other. -/
theorem Orderly.bind {x : Prog α} {f : α → Prog β} (hx : Orderly Φ x Ψ)
    (hf : ∀ a, Orderly Ψ (f a) Θ) : Orderly Φ (x >>= f) Θ :=
  Triple.bind hx hf

/-- A stronger condition to start from. -/
theorem Orderly.weaken {x : Prog α} (hx : Orderly Ψ x Θ) (h : ∀ v, Φ v → Ψ v) : Orderly Φ x Θ :=
  Triple.conseq hx (fun _ hs => ⟨hs.1, h _ hs.2⟩) fun _ _ hs => hs

/-- A call that meets its precondition keeps the discipline. -/
theorem Disciplined.afterCall {ρ : Type} {s : Machine} {c : LfsCall}
    (act : Lfs → LfsVerdict → ρ × Lfs) (ret : ρ → ℤ) (hs : Disciplined s)
    (hpre : c.pre s.lfs = true) : Disciplined (s.afterCall c act ret) := by
  intro e he
  rcases List.mem_append.mp he with he | he
  · exact hs e he
  · obtain rfl := List.mem_singleton.mp he
    exact hpre

/-- A call whose precondition the volume meets. -/
theorem Orderly.call {ρ : Type} {c : LfsCall} {act : Lfs → LfsVerdict → ρ × Lfs} {ret : ρ → ℤ}
    (hpre : ∀ v, Φ v → c.pre v.lfs = true) (hnext : ∀ v, Φ v → Ψ (v.next c act)) :
    Orderly Φ (lfsInvoke c act ret) Ψ := by
  rintro s ⟨hs, hΦ⟩
  have hpre := hpre _ hΦ
  rw [lfsInvoke_apply act ret (LfsCall.asserts_of_pre hpre)]
  exact ⟨hs.afterCall act ret hpre, hnext _ hΦ⟩

end Orderly

/-! ### Programs that leave the volume alone -/

/-- A status reply makes no LittleFS call. -/
theorem sendStatus_idle (status : UInt8) : Moves Idle (sendStatus status) :=
  sendStatus_moves idle_replied status

/-- A number is sent without a LittleFS call. -/
theorem replyNumber_idle (number : UInt8) : Moves Idle (replyNumber number) :=
  replyNumber_moves idle_replied number

/-- Writing the packet buffer makes no LittleFS call. -/
theorem idle_store (s : Machine) (buf : ℕ → UInt8) : Idle s { s with blBuffer := buf } :=
  .of_eq rfl rfl

/-- The erase of the application section makes no LittleFS call. -/
theorem flashEraseAppAll_idle : Moves Idle flashEraseAppAll :=
  flashEraseAppAll_fmcStep.mono fun _ _ => FmcStep.idle

/-- Programming a record makes no LittleFS call. -/
theorem programRecord_idle : Moves Idle programRecord :=
  programRecord_fmcStep.mono fun _ _ => FmcStep.idle

/-- A page write makes no LittleFS call. -/
theorem flashWriteAppPage_idle (dest : UInt32) (buf : ℕ → UInt8) :
    Moves Idle (flashWriteAppPage dest buf) :=
  (flashWriteAppPage_fmcStep dest buf).mono fun _ _ => FmcStep.idle

/-- `CMD_FLASH_READ` makes no LittleFS call. -/
theorem handleFlashRead_idle : Moves Idle handleFlashRead :=
  handleFlashRead_moves idle_store (fun _ _ => FmcStep.idle) idle_replied

/-- `CMD_FLASH_WRITE` makes no LittleFS call. -/
theorem handleFlashWrite_idle : Moves Idle handleFlashWrite :=
  .bind .get fun _ => .ite (fun _ => sendStatus_idle nack) fun _ =>
    .bind (flashWriteAppPage_idle _ _) fun _ =>
      .ite (fun _ => sendStatus_idle nack) (fun _ => sendStatus_idle ack)

/-! ### The mount sequence -/

/-- A mount leaves no handle open. -/
theorem file_next_mount (v : Volume) : (v.next .mount Lfs.mount).lfs.file = none := by
  rw [Volume.next]
  cases v.answers 0 .mount with
  | asDocumented => cases h : v.lfs.disk <;> simp [Lfs.mount, h]
  | deviates ret disk data => rfl

/-- A mount that fails leaves the instance unmounted. -/
theorem mounted_next_mount {v : Volume} (h : v.ret .mount Lfs.mount ≠ 0) :
    (v.next .mount Lfs.mount).lfs.mounted = false := by
  rw [Volume.ret] at h
  rw [Volume.next]
  revert h
  cases v.answers 0 .mount with
  | asDocumented => cases h : v.lfs.disk <;> simp [Lfs.mount, h]
  | deviates ret disk data => simp [Lfs.mount]

/-- A format leaves the instance unmounted and nothing open. -/
theorem next_format (v : Volume) : (v.next .format Lfs.format).lfs.mounted = false ∧
    (v.next .format Lfs.format).lfs.file = none := by
  rw [Volume.next]
  cases v.answers 0 .format with
  | asDocumented => exact ⟨rfl, rfl⟩
  | deviates ret disk data => exact ⟨rfl, rfl⟩

/-- The mount sequence ends with no handle open. -/
theorem file_mountOrFormat (v : Volume) : v.mountOrFormat.lfs.file = none := by
  rw [Volume.mountOrFormat]
  split <;> exact file_next_mount _

/-- An unmounted instance without a handle may be mounted and formatted. -/
theorem unmounted_flushed {l : Lfs} (hmounted : l.mounted = false) (hfile : l.file = none) :
    (!l.mounted && l.flushed) = true := by
  simp [Lfs.flushed, hmounted, hfile]

/-- The mount sequence may be run: nothing is mounted, and no unflushed handle is open. -/
def Volume.mountable (v : Volume) : Bool := !v.lfs.mounted && v.lfs.flushed

/-- A fresh instance: mounted, with no handle open. -/
def Volume.fresh (v : Volume) : Prop := v.lfs.mounted = true ∧ v.lfs.file = none

/-- The mount sequence, when it will succeed, leaves a fresh instance. -/
theorem mountOrFormat_orderly (Θ : Volume → Prop) :
    Orderly (fun v => v.mountable = true ∧ v.mountOrFormat.lfs.mounted = true ∧ Θ v.mountOrFormat)
      mountOrFormat fun v => v.fresh ∧ Θ v := by
  rintro s ⟨hs, hmountable, hmounts, hΘ⟩
  rw [mountOrFormat_apply]
  refine ⟨?_, by rw [volume_afterMount]; exact ⟨⟨hmounts, file_mountOrFormat _⟩, hΘ⟩⟩
  have hmount := hs.afterCall (c := .mount) Lfs.mount id hmountable
  rw [Machine.afterMount]
  split
  · rename_i herr
    have hun : (s.afterCall .mount Lfs.mount id).lfs.mounted = false := mounted_next_mount herr
    have hno : (s.afterCall .mount Lfs.mount id).lfs.file = none := file_next_mount s.volume
    have hformat := hmount.afterCall (c := .format) Lfs.format id
      (unmounted_flushed hun hno)
    obtain ⟨hun', hno'⟩ := next_format (s.afterCall .mount Lfs.mount id).volume
    exact hformat.afterCall (c := .mount) Lfs.mount id (unmounted_flushed hun' hno')
  · exact hmount

/-! ### boot_from_fs -/

/-- The instance is mounted and `/boot` is open for reading. -/
def Volume.reading (v : Volume) : Prop :=
  v.lfs.mounted = true ∧ v.lfs.file.any (·.flags.rdonly) = true

/-- A successful open for reading is a handle for reading, on an instance as mounted as
before. -/
theorem reading_next_fileOpen {v : Volume} (hmounted : v.lfs.mounted = true)
    (hfile : (v.next (.fileOpen bootReadFlags)
      (Lfs.fileOpen bootReadFlags)).lfs.file.isSome = true) :
    (v.next (.fileOpen bootReadFlags) (Lfs.fileOpen bootReadFlags)).reading := by
  revert hfile
  rw [Volume.next]
  cases v.answers 0 (.fileOpen bootReadFlags) with
  | asDocumented =>
      cases hdisk : v.lfs.disk with
      | unformatted => simp [Lfs.fileOpen, hdisk]
      | formatted boot =>
          cases boot <;> simp [Lfs.fileOpen, hdisk, Volume.reading, hmounted, bootReadFlags]
  | deviates ret disk data =>
      by_cases hret : ret = 0 <;> simp [Lfs.fileOpen, Volume.reading, hmounted, hret, bootReadFlags]

/-- Reading keeps the handle open for reading. -/
theorem reading_next_fileRead (size : ℕ) {v : Volume} (h : v.reading) :
    (v.next (.fileRead size) (Lfs.fileRead size)).reading := by
  obtain ⟨hmounted, hfile⟩ := h
  rw [Volume.next]
  cases v.answers 0 (.fileRead size) with
  | asDocumented =>
      cases hf : v.lfs.file with
      | none => rw [hf] at hfile; cases hfile
      | some f =>
          rw [hf] at hfile
          simpa [Lfs.fileRead, hf, Volume.reading, hmounted] using hfile
  | deviates ret disk data => exact ⟨hmounted, hfile⟩

/-- Asking for the size keeps the handle open for reading. -/
theorem reading_next_fileSize {v : Volume} (h : v.reading) :
    (v.next .fileSize Lfs.fileSize).reading := by
  rw [Volume.next]
  cases v.answers 0 .fileSize with
  | asDocumented => exact h
  | deviates ret disk data => exact h

/-- Closing the handle leaves the instance mounted. -/
theorem mounted_next_fileClose {v : Volume} (h : v.lfs.mounted = true) :
    (v.next .fileClose Lfs.fileClose).lfs.mounted = true := by
  rw [Volume.next]
  cases v.answers 0 .fileClose with
  | asDocumented =>
      cases hf : v.lfs.file with
      | none => simpa [Lfs.fileClose, hf] using h
      | some f =>
          simp only [Lfs.fileClose, hf]
          split <;> exact h
  | deviates ret disk data => exact h

/-- A handle open for reading is open. -/
theorem Volume.reading.isSome {v : Volume} (h : v.reading) : v.lfs.file.isSome = true := by
  obtain ⟨-, hfile⟩ := h
  cases hf : v.lfs.file with
  | none => rw [hf] at hfile; cases hfile
  | some f => rfl

/-- A read of the open handle is in order. -/
theorem lfsFileRead_orderly (size : ℕ) :
    Orderly Volume.reading (lfsFileRead size) Volume.reading :=
  .bind (.call (fun _ h => h.2) fun _ h => reading_next_fileRead size h) fun _ =>
    .bind (.of_idle (storeBytes_moves idle_store _ _)) fun _ => .of_idle (.pure _)

/-- The reads of the last record are in order. -/
theorem bootTail_orderly (fsize : ℤ) :
    Orderly Volume.reading (bootTail fsize) fun _ => True := by
  have hfinish : Orderly Volume.reading (do
      let _ ← lfsFileClose
      let _ ← lfsUnmount
      apromUpdateEnable
      bootLEDOff
      pure successed : Prog UInt8) fun _ => True :=
    .bind (.call (Ψ := fun v => v.lfs.mounted = true) (fun _ h => h.isSome)
        fun _ h => mounted_next_fileClose h.1) fun _ =>
      .bind (.call (Ψ := fun _ => True) (fun _ h => h) fun _ _ => trivial) fun _ =>
        .bind (.of_idle (.modify fun _ => .of_eq rfl rfl)) fun _ =>
          .bind (.of_idle (.modify fun _ => .of_eq rfl rfl)) fun _ => .of_idle (.pure _)
  refine Triple.ite (fun _ => ?_) fun _ => hfinish
  refine Orderly.bind (.of_idle (.modify fun _ => .of_eq rfl rfl)) fun _ =>
    .bind (lfsFileRead_orderly _) fun _ => .bind (.of_idle programRecord_idle) fun _ => ?_
  exact Triple.ite (fun _ => (Orderly.of_idle (.pure _)).weaken fun _ _ => trivial) fun _ => hfinish

/-- The reads of all records are in order. -/
theorem bootRecords_orderly (n : ℕ) (fsize : ℤ) :
    Orderly Volume.reading (bootRecords n fsize) fun _ => True := by
  induction n generalizing fsize with
  | zero => exact bootTail_orderly fsize
  | succ n ih =>
      refine Triple.ite (fun _ => ?_) fun _ => bootTail_orderly fsize
      refine Orderly.bind (lfsFileRead_orderly _) fun _ =>
        .bind (.of_idle programRecord_idle) fun _ => ?_
      exact Triple.ite (fun _ => (Orderly.of_idle (.pure _)).weaken fun _ _ => trivial)
        fun _ => ih _

/-- `boot_from_fs` keeps the discipline on a volume whose mount sequence and open succeed. -/
theorem bootFromFs_orderly :
    Orderly (fun v => v.mountable = true ∧ v.mountOrFormat.lfs.mounted = true ∧
      v.bootOpened.lfs.file.isSome = true) bootFromFs fun _ => True := by
  refine .bind (.of_idle (.modify fun _ => .of_eq rfl rfl)) fun _ =>
    .bind (.of_idle (.modify fun _ => .of_eq rfl rfl)) fun _ =>
      .bind (.of_idle flashEraseAppAll_idle) fun r => ?_
  refine Triple.ite (fun _ => (Orderly.of_idle (.pure _)).weaken fun _ _ => trivial) fun _ => ?_
  refine Orderly.bind (.of_idle (.modify fun _ => .of_eq rfl rfl)) fun _ =>
    .bind (mountOrFormat_orderly fun v =>
      (v.next (.fileOpen bootReadFlags) (Lfs.fileOpen bootReadFlags)).lfs.file.isSome = true)
      fun _ => ?_
  refine .bind (.call (Ψ := Volume.reading) ?_ ?_) fun _ => ?_
  · rintro v ⟨⟨hmounted, hfile⟩, -⟩
    simp [LfsCall.pre, hmounted, hfile]
  · rintro v ⟨⟨hmounted, -⟩, hopen⟩
    exact reading_next_fileOpen hmounted hopen
  · exact .bind (.call (fun _ h => h.isSome) fun _ h => reading_next_fileSize h) fun _ =>
      bootRecords_orderly _ _

/-! ### Commands and runs -/

/-- The volume is ready for a command: nothing mounted and no unflushed handle before a mount
sequence that will succeed, an open handle of the right kind before a write or a close. -/
def Volume.ready (v : Volume) : Command → Bool
  | .extFlashFopen => v.mountable && v.mountOrFormat.lfs.mounted
  | .extFlashFclose => v.lfs.mounted && v.lfs.file.isSome
  | .extFlashWrite => v.lfs.file.any (·.flags.wronly)
  | .progExtFlashBoot =>
      v.mountable && v.mountOrFormat.lfs.mounted && v.bootOpened.lfs.file.isSome
  | _ => true

/-- A rewind leaves the handle open for writing. -/
theorem wronly_next_fileRewind {v : Volume} (h : v.lfs.file.any (·.flags.wronly) = true) :
    (v.next .fileRewind Lfs.fileRewind).lfs.file.any (·.flags.wronly) = true := by
  rw [Volume.next]
  cases v.answers 0 .fileRewind with
  | asDocumented =>
      cases hf : v.lfs.file with
      | none => rw [hf] at h; cases h
      | some f => rw [hf] at h; simpa [Lfs.fileRewind, hf] using h
  | deviates ret disk data => exact h

/-- A remove leaves the instance mounted with nothing open. -/
theorem fresh_next_remove {v : Volume} (h : v.fresh) : (v.next .remove Lfs.remove).fresh := by
  rw [Volume.next]
  cases v.answers 0 .remove with
  | asDocumented =>
      cases hdisk : v.lfs.disk with
      | unformatted => simpa [Lfs.remove, hdisk, Volume.fresh] using h
      | formatted boot => cases boot <;> simpa [Lfs.remove, hdisk, Volume.fresh] using h
  | deviates ret disk data => exact h

/-- `CMD_EXT_FLASH_HEX_FOPEN` on a volume that is ready for it. -/
theorem handleExtFlashFopen_orderly :
    Orderly (fun v => v.ready .extFlashFopen = true) handleExtFlashFopen fun _ => True := by
  refine Orderly.weaken (Ψ := fun v => v.mountable = true ∧ v.mountOrFormat.lfs.mounted = true ∧
    True) ?_ fun v hv => ?_
  · refine .bind (mountOrFormat_orderly fun _ => True) fun _ =>
      .bind (.call (Ψ := Volume.fresh) (fun _ h => h.1.1) fun _ h => fresh_next_remove h.1) fun _ =>
        .bind (.call (Ψ := fun _ => True) ?_ fun _ _ => trivial) fun _ =>
          .of_idle (sendStatus_idle ack)
    rintro v ⟨hmounted, hfile⟩
    simp [LfsCall.pre, hmounted, hfile]
  · simpa [Volume.ready] using hv

/-- `CMD_EXT_FLASH_HEX_FCLOSE` on a volume that is ready for it. -/
theorem handleExtFlashFclose_orderly :
    Orderly (fun v => v.ready .extFlashFclose = true) handleExtFlashFclose fun _ => True := by
  have hready (v : Volume) (h : v.ready .extFlashFclose = true) :
      v.lfs.mounted = true ∧ v.lfs.file.isSome = true := by
    simpa [Volume.ready] using h
  exact .bind (.call (Ψ := fun v => v.lfs.mounted = true) (fun v h => (hready v h).2)
      fun v h => mounted_next_fileClose (hready v h).1) fun _ =>
    .bind (.call (Ψ := fun _ => True) (fun _ h => h) fun _ _ => trivial) fun _ =>
      .of_idle (sendStatus_idle ack)

/-- `CMD_EXT_FLASH_WRITE` on a volume that is ready for it. -/
theorem handleExtFlashWrite_orderly :
    Orderly (fun v => v.ready .extFlashWrite = true) handleExtFlashWrite fun _ => True := by
  have hsome (v : Volume) (h : v.ready .extFlashWrite = true) : v.lfs.file.isSome = true := by
    cases hf : v.lfs.file with
    | none => simp [Volume.ready, hf] at h
    | some f => rfl
  exact .bind (.call (Ψ := fun v => v.lfs.file.any (·.flags.wronly) = true) hsome
      fun _ h => wronly_next_fileRewind h) fun _ =>
    .bind (.of_idle .get) fun _ =>
      .bind (.call (Ψ := fun _ => True) (fun _ h => h) fun _ _ => trivial) fun _ =>
        .of_idle (sendStatus_idle ack)

/-- On a ready volume every LittleFS call of a command is in order. -/
theorem dispatch_orderly (c : Command) :
    Orderly (fun v => v.ready c = true) (dispatch c) fun _ => True := by
  have hstay {x : Prog Unit} (k : Control)
      (hx : Orderly (fun v => v.ready c = true) x fun _ => True) :
      Orderly (fun v => v.ready c = true) (do x; pure k : Prog Control) fun _ => True :=
    .bind hx fun _ => .of_idle (.pure _)
  have hidle {x : Prog Unit} (k : Control) (hx : Moves Idle x) :
      Orderly (fun v => v.ready c = true) (do x; pure k : Prog Control) fun _ => True :=
    hstay k ((Orderly.of_idle hx (Φ := fun _ => True)).weaken fun _ _ => trivial)
  cases c with
  | extFlashFopen => exact hstay .again handleExtFlashFopen_orderly
  | extFlashFclose => exact hstay .again handleExtFlashFclose_orderly
  | extFlashWrite => exact hstay .again handleExtFlashWrite_orderly
  | progExtFlashBoot =>
      refine hstay .again (.bind (bootFromFs_orderly.weaken fun v hv => ?_) fun _ =>
        .of_idle (sendStatus_idle ack))
      simpa [Volume.ready, and_assoc] using hv
  | chkProtocol => exact hidle .again (replyNumber_idle 1)
  | chkDevice => exact hidle .again (replyNumber_idle dNum487kmDevb)
  | progEnd => exact hidle .leave (sendStatus_idle ack)
  | flashSetPgsz =>
      exact hidle .again (.bind .get fun _ =>
        .ite (fun _ => sendStatus_idle nack) (fun _ => sendStatus_idle ack))
  | flashGetPgsz =>
      refine hidle .again fun s => ?_
      rw [handleFlashGetPgsz_apply]
      exact idle_replied s _
  | flashWrite => exact hidle .again handleFlashWrite_idle
  | flashRead => exact hidle .again handleFlashRead_idle
  | flashVerify | flashEraseSector | unsupported => exact hidle .again (sendStatus_idle nack)
  | flashEraseAll =>
      exact hidle .again (.bind flashEraseAppAll_idle fun _ =>
        .ite (fun _ => sendStatus_idle nack) (fun _ => sendStatus_idle ack))
  | extFlashRead | extFlashVerify | extFlashEraseSector | extFlashHexDel | eepromSetPgsz
  | eepromGetPgsz | eepromWrite | eepromRead | eepromEraseAll =>
      exact (Orderly.of_idle (.pure _) (Φ := fun _ => True)).weaken fun _ _ => trivial

/-- A boot from the file system that cannot erase the application section makes no LittleFS
call. -/
theorem bootFromFs_unerased {s : Machine} (h : ¬ Carried s.verdicts.isp eraseCommands) :
    ∃ t, bootFromFs s = .ok failed t ∧ Idle s t := by
  obtain ⟨t, hrun, hfmc, -⟩ := bootFromFs_eraseFails h
  have hstart : Idle s { s with bootLEDOn := true, window := ⟨true, true, true⟩ } :=
    .of_eq rfl rfl
  exact ⟨t, hrun, IsTrans.trans _ _ _ hstart hfmc.idle⟩

/-- What a command asks of the machine: a volume that is ready for it, if it gets as far as
LittleFS. Only a boot from the file system may not, when the erase before it fails. -/
def Machine.ReadyFor (s : Machine) (c : Command) : Prop :=
  (c = .progExtFlashBoot → Carried s.verdicts.isp eraseCommands) → s.volume.ready c = true

/-- **One command.** On a machine that is ready for it every LittleFS call it makes is in
order. -/
theorem dispatch_disciplined {s : Machine} (c : Command) (hs : Disciplined s)
    (hready : s.ReadyFor c) :
    Ends (fun _ => Disciplined) (fun _ => Disciplined) (dispatch c s) := by
  by_cases hfar : c = .progExtFlashBoot → Carried s.verdicts.isp eraseCommands
  · exact Triple.conseq (dispatch_orderly c) (fun _ h => h) (fun _ _ h => h.1) s
      ⟨hs, hready hfar⟩
  · obtain ⟨rfl, hfails⟩ := Classical.not_imp.mp hfar
    obtain ⟨t, hrun, hidle⟩ := bootFromFs_unerased hfails
    have hreply : Moves Idle (do sendACK; pure .again : Prog Control) :=
      .bind (sendStatus_idle ack) fun _ => .pure _
    rw [dispatch, handleProgExtFlashBoot, bind_assoc, bind_of_ok hrun]
    have ht := hidle.disciplined hs
    exact hreply.ends (fun _ u hu => hu.disciplined ht) fun _ u hu => hu.disciplined ht

/-- Accepting a packet makes no LittleFS call. -/
theorem accept_idle : Moves Idle accept :=
  fun s => ⟨rfl, [.accept s.phase s.pac.cmd], rfl, by simp [Event.inOrder]⟩

/-- A pass of the handshake makes no LittleFS call. -/
theorem establishPass_idle : Moves Idle establishPass :=
  .bind (receives_getPacket.mono fun _ _ => Receives.idle) fun _ => .ite (fun _ => .pure _) fun _ =>
    .bind accept_idle fun _ => .ite
      (fun _ => .bind (replyNumber_idle 1) fun _ => .pure _)
      (fun _ => .bind (sendStatus_idle nack) fun _ => .pure _)

/-- A pass of the command loop, if the frame it receives finds the machine ready. -/
theorem commandPass_disciplined {s : Machine} (hs : Disciplined s)
    (hready : ∀ f, s.Incoming f → s.ReadyFor (.ofByte f.cmd)) :
    Ends (fun _ => Disciplined) (fun _ => Disciplined) (commandPass s) := by
  have hidle := receives_getPacket s
  rw [commandPass]
  cases hget : getPacket s with
  | error e t =>
      rw [hget] at hidle
      rw [bind_of_error hget]
      exact hidle.idle.disciplined hs
  | ok r t =>
      rw [hget] at hidle
      rw [bind_of_ok hget]
      have ht : Disciplined t := hidle.idle.disciplined hs
      by_cases hr : r ≠ 0
      · rw [if_pos hr]
        exact ht
      · obtain rfl : r = successed := not_not.mp hr
        obtain ⟨f, ps, r, hrx, hps, rfl⟩ := getPacket_successed hget
        have haccept := accept_idle ((s.withRx r).holding f)
        rw [if_neg hr, accept, bind_assoc, bind_of_ok (get_apply _), bind_assoc,
          bind_of_ok (modify_apply _ _)]
        exact dispatch_disciplined (.ofByte f.cmd) (haccept.disciplined ht)
          (hready f ⟨ps, r, hrx, hps⟩)

/-- The step condition: an accepted command finds the machine ready for it. -/
def Config.Ready : Config → Verdicts → Prop
  | .live s, v => ∀ f, s.phase = .command → s.Incoming f → (s.load v).ReadyFor (.ofByte f.cmd)
  | .dead _ _, _ => True

/-- A pass of either loop. -/
theorem mainPass_disciplined {s : Machine} (hs : Disciplined s)
    (hready : ∀ f, s.phase = .command → s.Incoming f → s.ReadyFor (.ofByte f.cmd)) :
    Ends (fun _ => Disciplined) (fun _ => Disciplined) (mainPass s) := by
  cases hphase : s.phase with
  | loopHead =>
      rw [mainPass_loopHead hphase]
      exact hs
  | handshake =>
      have hidle := establishPass_idle s
      rw [mainPass_handshake hphase]
      cases hx : establishPass s with
      | ok k t =>
          rw [hx] at hidle
          rw [bind_of_ok hx]
          cases k <;> exact hidle.disciplined hs
      | error e t =>
          rw [hx] at hidle
          rw [bind_of_error hx]
          exact hidle.disciplined hs
  | command =>
      have hpass := commandPass_disciplined hs fun f => hready f hphase
      rw [mainPass_command hphase]
      refine hpass.bind fun k t ht => ?_
      cases k <;> exact ht

/-- **File-system session discipline.** For every received byte stream, every content of the
external flash and every outcome of the calls: in a run in which each accepted command finds
the machine ready for it, every LittleFS call meets its precondition. -/
theorem session_discipline (rx : List UartPoll) (disk : Disk) (flash : Flash)
    (vs : List Verdicts) (prints : ℕ → LfsCall → List MessageChar)
    (h : Runs.Guarded Config.step Config.Ready (.live (.reset rx disk flash prints)) vs) :
    ∀ e ∈ (Config.reached rx disk flash vs prints).machine.trace, e.inOrder = true := by
  have hinit : Disciplined (Config.live (.reset rx disk flash prints)).machine := by
    simp [Disciplined, Config.machine, Machine.reset]
  have hstep : ∀ c v, Config.Ready c v → Disciplined c.machine →
      Disciplined (Config.step c v).machine := by
    rintro (s | ⟨e, s⟩) v hready hs
    · have hpass := mainPass_disciplined (s := s.load v) hs hready
      rw [Config.step]
      cases hrun : mainPass (s.load v) with
      | ok _ t =>
          rw [hrun] at hpass
          exact hpass
      | error e t =>
          rw [hrun] at hpass
          exact hpass
    · exact hs
  exact h.invariant (fun c => Disciplined c.machine) hstep hinit

/-- The condition, checked on the machine of a configuration with a frame at the front of
its receive line. -/
theorem Config.ready_of_front {c : Config} {v : Verdicts} (g : Frame) (bytes : List UInt8)
    (hrx : values c.machine.rx = encode g ++ bytes)
    (h : (Volume.mk c.machine.lfs v.lfs).ready (.ofByte g.cmd) = true) : c.Ready v := by
  cases c with
  | live s =>
      rintro f - ⟨ps, r, hsrx, hps⟩
      have himages : encode f ++ values r = encode g ++ bytes := by
        rw [← hps, ← values_append, ← hsrx]
        exact hrx
      obtain ⟨rfl, -⟩ := encode_append_inj himages
      exact fun _ => h
  | dead e s => trivial

/-- The step condition asks something of the command phase only. -/
theorem Config.ready_of_phase {c : Config} {v : Verdicts} (h : c.machine.phase ≠ .command) :
    c.Ready v := by
  cases c with
  | live s => exact fun _ hphase => absurd hphase h
  | dead e s => trivial

/-- The documented order of a programming session. -/
def documentedSession : List UartPoll :=
  received [cmdChkProtocol, cmdExtFlashFopen, cmdExtFlashFclose, cmdProgExtFlashBoot]

/-- On an unformatted external flash the documented session is in order. -/
theorem session_discipline_documented :
    (Config.reached documentedSession .unformatted .blank
      [.allWell, .allWell, .allWell, .allWell, .allWell]).machine.trace.all Event.inOrder
      = true := by
  refine List.all_eq_true.mpr (session_discipline documentedSession .unformatted .blank _ _ ?_)
  -- with the reset machine a variable, unification does not run the device
  generalize hc : Config.live (.reset documentedSession .unformatted .blank) = c
  refine .cons (Config.ready_of_phase ?_) <| .cons (Config.ready_of_phase ?_) <|
    .cons (Config.ready_of_front (.request cmdExtFlashFopen)
      (requests [cmdExtFlashFclose, cmdProgExtFlashBoot]) ?_ ?_) <|
    .cons (Config.ready_of_front (.request cmdExtFlashFclose)
      (requests [cmdProgExtFlashBoot]) ?_ ?_) <|
    .cons (Config.ready_of_front (.request cmdProgExtFlashBoot) (requests []) ?_ ?_) .nil
  all_goals subst hc; decide +kernel

/-- `CMD_EXT_FLASH_WRITE` right after the handshake writes to a handle that is not open, and
the assertion of `lfs_file_write` fails. -/
theorem write_without_fopen :
    let c := Config.reached (received [cmdChkProtocol, cmdExtFlashWrite]) (.formatted none) .blank
      [.allWell, .allWell, .allWell]
    c.halted = some (.assertFailed (.fileWrite 516)) ∧
      c.machine.trace.any (!·.inOrder) = true := by
  decide +kernel

end Num487Boot
