import Num487Boot.Footprint

/-!
# The Handlers When Nothing Fails

What the handlers of `bl_command_process` do when every ISP command is carried out and
LittleFS behaves as documented (`Verdicts.allWell`): the reply they send, and the flash, the
LittleFS instance and the calls they leave behind.

## Main results

* `handleFlashWrite_does`, `handleFlashRead_does`, `handleFlashEraseAll_does`: the commands
  on the internal flash.
* `handleExtFlashFopen_does`, `handleExtFlashWrite_does`, `handleExtFlashFclose_does`: the
  commands on the file `/boot`.
-/

namespace Num487Boot

open Exec Memory

section Documented

variable {s t : Machine}

/-! ### The drivers -/

/-- The driver leaves answers that are all good. -/
theorem FmcStep.allWell (h : FmcStep s t) (hs : s.verdicts = .allWell) :
    t.verdicts = .allWell := by
  obtain ⟨k, hk⟩ := h.ispVerdicts
  have hisp : t.verdicts.isp = Verdicts.allWell.isp := by
    funext n c
    rw [hk, hs]
    rfl
  have hlfs : t.verdicts.lfs = Verdicts.allWell.lfs := by rw [h.lfsVerdicts, hs]
  show (⟨t.verdicts.isp, t.verdicts.lfs⟩ : Verdicts) = _
  rw [hisp, hlfs]

/-- Every ISP command was done. -/
theorem FmcStep.done {es : List Event} (h : FmcStep s t) (hs : s.verdicts = .allWell)
    (htrace : t.trace = s.trace ++ es) : ∀ e ∈ es, ∃ c, e = .isp c .done := by
  obtain ⟨es', htrace', hes⟩ := h.trace
  obtain rfl := List.append_cancel_left (htrace.symm.trans htrace')
  intro e he
  obtain ⟨n, c, rfl⟩ := hes e he
  exact ⟨c, by rw [hs]; rfl⟩

/-- Commands that are done succeed. -/
theorem succeeded_of_done {es : List Event} (h : ∀ e ∈ es, ∃ c, e = .isp c .done) :
    ∀ e ∈ es, e.succeeded = true := by
  intro e he
  obtain ⟨c, rfl⟩ := h e he
  cases c <;> simp

/-- A page write burns the page. -/
theorem flashWriteAppPage_allWell (dest : UInt32) (buf : ℕ → UInt8) (hs : s.verdicts = .allWell) :
    ∃ t, flashWriteAppPage dest buf s = .ok successed t ∧ FmcStep s t ∧
      t.flash = s.flash.burn buf 128 dest 0 := by
  obtain ⟨r, t, es, hrun, hstep, htrace, hr, -, hflash⟩ := writeWords_spec buf 128 dest 0 s
  obtain rfl := hr.mpr (succeeded_of_done (hstep.done hs htrace))
  exact ⟨t, hrun, hstep, hflash rfl⟩

/-- A page read puts the words of the page into the buffer. -/
theorem flashReadAppPage_allWell (src : UInt32) (hs : s.verdicts = .allWell) :
    ∃ t, flashReadAppPage src 1 s =
        .ok successed { t with blBuffer := overlay s.blBuffer 1 (s.flash.readOut 128 src) } ∧
      FmcStep s t ∧ t.flash = s.flash := by
  obtain ⟨r, t, es, bytes, hrun, hstep, htrace, hr, -, -, hflash, hbytes⟩ :=
    readWords_spec 1 128 src 0 s (by decide)
  have hdone := hstep.done hs htrace
  obtain rfl := hr.mpr (succeeded_of_done hdone)
  obtain rfl := hbytes hdone
  exact ⟨t, hrun, hstep, hflash⟩

/-- The erase erases the application section. -/
theorem flashEraseAppAll_allWell (hs : s.verdicts = .allWell) :
    ∃ t, flashEraseAppAll s = .ok successed t ∧ FmcStep s t ∧
      t.flash = s.flash.erasedFrom 4 := by
  obtain ⟨r, t, es, hrun, hstep, htrace, hr, -, hflash⟩ := flashEraseAppAll_spec s
  obtain rfl := hr.mpr (succeeded_of_done (hstep.done hs htrace))
  exact ⟨t, hrun, hstep, hflash rfl⟩

/-- The machine after a call that returned `ret` and left the instance `l`. -/
def Machine.called (s : Machine) (c : LfsCall) (ret : ℤ) (l : Lfs) : Machine :=
  { s with
    lfs := l
    prints := fun n => s.prints (n + 1)
    trace := s.trace ++ [.lfs c s.lfs (some ret) (s.prints 0 c)] }

/-- A call does what is documented. -/
theorem lfsInvoke_allWell {ρ : Type} {c : LfsCall} (act : Lfs → LfsVerdict → ρ × Lfs) (ret : ρ → ℤ)
    (hs : s.verdicts = .allWell) (hc : c.asserts s.lfs = true) :
    lfsInvoke c act ret s = .ok (act s.lfs .asDocumented).1
      (s.called c (ret (act s.lfs .asDocumented).1) (act s.lfs .asDocumented).2) := by
  rw [lfsInvoke_apply act ret hc, Machine.afterCall, Volume.ret, Volume.next, Machine.volume, hs]
  cases s
  cases hs
  rfl

/-- A call sends and receives nothing. -/
theorem Machine.called_quiet (s : Machine) (c : LfsCall) (ret : ℤ) (l : Lfs) :
    Quiet s (s.called c ret l) :=
  ⟨rfl, rfl, rfl, _, rfl, fun _ he => by rw [List.mem_singleton.mp he]; rfl⟩

/-! ### The handlers -/

/-- From `s`, the handler `x` makes the calls `es`, sends the reply `g`, and leaves the flash
and the LittleFS instance as given. -/
def Does (x : Prog Unit) (s : Machine) (g : Frame) (flash : Flash) (l : Lfs) (es : List Event) :
    Prop :=
  ∃ u, x s = .ok () (u.replied g) ∧ Quiet s u ∧ u.flash = flash ∧ u.lfs = l ∧
    u.trace = s.trace ++ es

/-- `CMD_FLASH_SET_PGSZ` compares the size and answers. -/
theorem handleFlashSetPgsz_does (s : Machine) :
    Does handleFlashSetPgsz s
      (.reply s.pac.cmd [if flashSetPgsz (leHalf s.blBuffer 0) ≠ 0 then nack else ack])
      s.flash s.lfs [] :=
  ⟨s, handleFlashSetPgsz_apply s, Std.Refl.refl s, rfl, rfl, (List.append_nil _).symm⟩

/-- `CMD_FLASH_WRITE` above the bootloader programs the page and acknowledges. -/
theorem handleFlashWrite_does (hs : s.verdicts = .allWell)
    (hguard : ¬ leWord s.blBuffer 0 ≤ bootloaderEnd) :
    ∃ es, Does handleFlashWrite s (.reply s.pac.cmd [ack])
      (s.flash.burn (fun i => s.blBuffer (4 + i)) 128 (leWord s.blBuffer 0) 0) s.lfs es := by
  obtain ⟨t, hrun, hstep, hflash⟩ :=
    flashWriteAppPage_allWell (leWord s.blBuffer 0) (fun i => s.blBuffer (4 + i)) hs
  obtain ⟨es, htrace, -⟩ := hstep.trace
  refine ⟨es, t, ?_, hstep.quiet, hflash, hstep.lfs, htrace⟩
  rw [handleFlashWrite, bind_of_ok (get_apply s), if_neg hguard, bind_of_ok hrun,
    if_neg not_successed_ne_zero, ← hstep.pac]
  exact sendStatus_apply ack t

/-- `CMD_FLASH_READ` answers with the page. -/
theorem handleFlashRead_does (hs : s.verdicts = .allWell) :
    ∃ es, Does handleFlashRead s
      (.page s.pac.cmd (overlay s.blBuffer 1 (s.flash.readOut 128 (leWord s.blBuffer 0))))
      s.flash s.lfs es := by
  obtain ⟨t, hrun, hstep, hflash⟩ := flashReadAppPage_allWell (leWord s.blBuffer 0) hs
  obtain ⟨es, htrace, -⟩ := hstep.trace
  let u := { t with blBuffer := overlay s.blBuffer 1 (s.flash.readOut 128 (leWord s.blBuffer 0)) }
  refine ⟨es, u, ?_, ⟨hstep.rx, hstep.pac, hstep.phase, hstep.quiet.trace⟩,
    hflash, hstep.lfs, htrace⟩
  rw [handleFlashRead, bind_of_ok (get_apply s), bind_of_ok hrun, if_neg not_successed_ne_zero,
    ← hstep.pac]
  exact sendPage_apply u

/-- `CMD_FLASH_ERASE_ALL` erases the application section and acknowledges. -/
theorem handleFlashEraseAll_does (hs : s.verdicts = .allWell) :
    ∃ es, Does handleFlashEraseAll s (.reply s.pac.cmd [ack]) (s.flash.erasedFrom 4) s.lfs es := by
  obtain ⟨t, hrun, hstep, hflash⟩ := flashEraseAppAll_allWell hs
  obtain ⟨es, htrace, -⟩ := hstep.trace
  refine ⟨es, t, ?_, hstep.quiet, hflash, hstep.lfs, htrace⟩
  rw [handleFlashEraseAll, bind_of_ok hrun, if_neg not_successed_ne_zero, ← hstep.pac]
  exact sendStatus_apply ack t

/-- A disk after the mount sequence: what could not be mounted has been formatted. -/
def Disk.mountable : Disk → Disk
  | .unformatted => .formatted none
  | .formatted b => .formatted b

/-- The mount sequence ends with the instance mounted and nothing open. -/
theorem mountOrFormat_allWell (hs : s.verdicts = .allWell) :
    ∃ t, mountOrFormat s = .ok () t ∧ Quiet s t ∧ t.verdicts = .allWell ∧
      t.flash = s.flash ∧ t.blBuffer = s.blBuffer ∧ t.lfs = ⟨s.lfs.disk.mountable, true, none⟩ := by
  rw [mountOrFormat, lfsMount, bind_of_ok (lfsInvoke_allWell Lfs.mount id hs rfl)]
  cases hdisk : s.lfs.disk with
  | unformatted =>
      let t := s.called .mount lfsErrCorrupt (s.lfs.mount .asDocumented).2
      let u := t.called .format 0 (t.lfs.format .asDocumented).2
      refine ⟨u.called .mount 0 ⟨.formatted none, true, none⟩, ?_, ?_, hs, rfl, rfl, rfl⟩
      · simp only [Lfs.mount, hdisk]
        rw [if_pos (by decide), lfsFormat,
          bind_of_ok (lfsInvoke_allWell Lfs.format id (by exact hs) rfl),
          bind_of_ok (lfsInvoke_allWell Lfs.mount id (by exact hs) rfl)]
        simp only [t, u, Lfs.mount, hdisk]
        rfl
      · exact IsTrans.trans _ _ _ (s.called_quiet _ _ _)
          (IsTrans.trans _ _ _ (t.called_quiet _ _ _) (u.called_quiet _ _ _))
  | formatted b =>
      refine ⟨s.called .mount 0 ⟨.formatted b, true, none⟩, ?_, s.called_quiet _ _ _, hs, rfl, rfl,
        rfl⟩
      simp only [Lfs.mount, hdisk, id_eq]
      rfl

/-- `CMD_EXT_FLASH_FOPEN` leaves an empty file open for appending. -/
theorem handleExtFlashFopen_does (hs : s.verdicts = .allWell) :
    ∃ es, Does handleExtFlashFopen s (.reply s.pac.cmd [ack]) s.flash
      ⟨.formatted (some .empty), true, some ⟨bootWriteFlags, 0, .empty, false, false⟩⟩ es := by
  obtain ⟨t, hmount, hquiet, ht, hflash, -, hlfs⟩ := mountOrFormat_allWell hs
  have hremove : (t.lfs.remove .asDocumented).2 = ⟨.formatted none, true, none⟩ := by
    rw [hlfs]
    cases s.lfs.disk with
    | unformatted => rfl
    | formatted b => cases b <;> rfl
  let u := t.called .remove (t.lfs.remove .asDocumented).1 ⟨.formatted none, true, none⟩
  let w := u.called (.fileOpen bootWriteFlags) 0
    ⟨.formatted (some .empty), true, some ⟨bootWriteFlags, 0, .empty, false, false⟩⟩
  have hquiet : Quiet s w := IsTrans.trans _ _ _ hquiet
    (IsTrans.trans _ _ _ (t.called_quiet _ _ _) (u.called_quiet _ _ _))
  obtain ⟨es, htrace, -⟩ := hquiet.trace
  refine ⟨es, w, ?_, hquiet, hflash, rfl, htrace⟩
  rw [handleExtFlashFopen, bind_of_ok hmount, lfsRemove,
    bind_of_ok (lfsInvoke_allWell Lfs.remove id ht rfl), hremove, lfsFileOpen,
    bind_of_ok (lfsInvoke_allWell (Lfs.fileOpen bootWriteFlags) id (by exact ht) rfl), ← hquiet.pac]
  exact sendStatus_apply ack w

/-- A write to a handle in append mode adds to the end of the file if it fits, and returns
`LFS_ERR_FBIG` otherwise. -/
theorem LfsFile.write_append {f : LfsFile} {bytes : List UInt8} (happend : f.flags.append = true)
    (hpos : f.pos ≤ f.content.1.length) :
    f.write bytes = if h : (f.content.1 ++ bytes).length ≤ lfsFileMax then
        ((bytes.length : ℤ), { f with
          pos := (f.content.1 ++ bytes).length
          content := ⟨f.content.1 ++ bytes, h⟩
          dirty := true
          erred := false })
      else (lfsErrFbig, f) := by
  have hend : (if f.flags.append = true ∧ f.pos < f.content.1.length then f.content.1.length
      else f.pos) = f.content.1.length := by
    rw [happend]
    grind
  have hdrop : f.content.1.drop (f.content.1.length + bytes.length) = [] :=
    List.drop_eq_nil_of_le (Nat.le_add_right _ _)
  simp [write, hend, hdrop]

/-- `CMD_EXT_FLASH_WRITE` appends or overwrites from the start, as the flags of the open
handle say. -/
theorem handleExtFlashWrite_does {f : LfsFile} (hs : s.verdicts = .allWell)
    (hfile : s.lfs.file = some f) (hw : f.flags.wronly = true) :
    let r := { f with pos := 0 }.write (slice s.blBuffer 0 bufferSize)
    Does handleExtFlashWrite s (.reply s.pac.cmd [ack]) s.flash { s.lfs with file := some r.2 }
      [.lfs .fileRewind s.lfs (some 0) (s.prints 0 .fileRewind),
        .lfs (.fileWrite bufferSize) { s.lfs with file := some { f with pos := 0 } }
          (some r.1) (s.prints 1 (.fileWrite bufferSize))] := by
  intro r
  let t := s.called .fileRewind 0 { s.lfs with file := some { f with pos := 0 } }
  let u := t.called (.fileWrite bufferSize) r.1 { s.lfs with file := some r.2 }
  have hrewind : lfsFileRewind s = .ok 0 t := by
    rw [lfsFileRewind, lfsInvoke_allWell Lfs.fileRewind id hs rfl]
    simp only [Lfs.fileRewind, hfile]
    rfl
  have hwrite : lfsFileWrite (slice s.blBuffer 0 bufferSize) t = .ok r.1 u := by
    rw [lfsFileWrite, lfsInvoke_allWell (Lfs.fileWrite _) id (by exact hs) (by exact hw),
      length_slice]
    rfl
  refine ⟨u, ?_, IsTrans.trans _ _ _ (s.called_quiet _ _ _) (t.called_quiet _ _ _), rfl, rfl,
    by simp [u, t, Machine.called]⟩
  rw [handleExtFlashWrite, bind_of_ok hrewind, bind_of_ok (get_apply t)]
  exact (bind_of_ok hwrite).trans (sendStatus_apply ack u)

/-- `CMD_EXT_FLASH_FCLOSE` commits what has been written and unmounts. -/
theorem handleExtFlashFclose_does {f : LfsFile} (hs : s.verdicts = .allWell)
    (hfile : s.lfs.file = some f) (herred : f.erred = false) :
    ∃ es, Does handleExtFlashFclose s (.reply s.pac.cmd [ack]) s.flash
      ⟨if f.dirty then .formatted (some f.content) else s.lfs.disk, false, none⟩ es := by
  let d : Disk := if f.dirty then .formatted (some f.content) else s.lfs.disk
  let t := s.called .fileClose 0 { s.lfs with disk := d, file := none }
  let u := t.called .unmount 0 ⟨d, false, none⟩
  have hclose : lfsFileClose s = .ok 0 t := by
    rw [lfsFileClose, lfsInvoke_allWell Lfs.fileClose id hs (by simp [LfsCall.asserts, hfile])]
    simp only [Lfs.fileClose, hfile, herred, t, d]
    cases f.dirty <;> rfl
  have hquiet : Quiet s u := IsTrans.trans _ _ _ (s.called_quiet _ _ _) (t.called_quiet _ _ _)
  obtain ⟨es, htrace, -⟩ := hquiet.trace
  refine ⟨es, u, ?_, hquiet, rfl, rfl, htrace⟩
  rw [handleExtFlashFclose, bind_of_ok hclose, lfsUnmount,
    bind_of_ok (lfsInvoke_allWell Lfs.unmount id (by exact hs) rfl)]
  exact sendStatus_apply ack u

end Documented

end Num487Boot
