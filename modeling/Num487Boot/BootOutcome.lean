import Num487Boot.BootImage

/-!
# The Outcomes of boot_from_fs

How `boot_from_fs` ends is settled before it runs, by what LittleFS will deliver and by how
the hardware will answer the ISP commands for it. `Machine.bootImages` are the contents of
the packet buffer the loop will program, one after the other, and `bootCommands` the program
commands for them; `Carried` says that every command of a list is carried out.

## Main results

* `writeWords_outcome`, `eraseBlocks_outcome`: the loops of `flash.c` report success exactly
  when their commands are carried out.
* `bootFromFs_eraseFails`, `bootFromFs_openFails`, `bootFromFs_overruns`, `bootFromFs_ends`: the
  ways `boot_from_fs` ends, put together in `bootFromFs_cases`.
* `bootFromFs_begins`: the ISP commands given by then, in every one of them.
-/

namespace Num487Boot

open Exec Memory

/-! ### Lists of ISP commands -/

/-- The commands of `flash_write_app_page` for `n` words. -/
def pageCommands (buf : ℕ → UInt8) : ℕ → UInt32 → ℕ → List IspCommand
  | 0, _, _ => []
  | n + 1, addr, i => .program addr (leWord buf i) :: pageCommands buf n (addr + 4) (i + 4)

/-- The commands of `flash_erase_app_all` from block `b` on, for `n` blocks. -/
def blockCommands (n b : ℕ) : List IspCommand :=
  (List.range' b n).map fun b => .blockErase (UInt32.ofNat (16384 * b))

/-- The commands of `flash_erase_app_all`. -/
def eraseCommands : List IspCommand := blockCommands 28 4

/-- Every command of the list is carried out, beginning with the next one given. -/
def Carried : (ℕ → IspCommand → IspVerdict) → List IspCommand → Prop
  | _, [] => True
  | isp, c :: cs => isp 0 c = .done ∧ Carried (fun n => isp (n + 1)) cs

/-- The second part is judged by the verdicts behind those on the first. -/
theorem carried_append {isp : ℕ → IspCommand → IspVerdict} {cs ds : List IspCommand} :
    Carried isp (cs ++ ds) ↔ Carried isp cs ∧ Carried (fun n => isp (n + cs.length)) ds := by
  induction cs generalizing isp with
  | nil => simp [Carried]
  | cons c cs ih =>
      simp only [List.cons_append, Carried, ih, List.length_cons, and_assoc, Nat.add_assoc]

/-- An ISP command among the events. -/
def Event.ispCommand : Event → Option IspCommand
  | .isp c _ => some c
  | .accept _ _ | .tx _ | .lfs _ _ _ _ => none

/-- From `s` to `t` the ISP commands `cs` were given, and carried out. -/
structure Carries (cs : List IspCommand) (s t : Machine) : Prop where
  trace : ∃ es, t.trace = s.trace ++ es ∧ es.filterMap Event.ispCommand = cs
  flash : t.flash = cs.foldl IspCommand.apply s.flash
  verdicts : t.verdicts.isp = fun n => s.verdicts.isp (n + cs.length)

/-- From `s` to `t` the first of the ISP commands `cs` were given, and no others, whatever became
of them. -/
def Begins (cs : List IspCommand) (s t : Machine) : Prop :=
  ∃ es, t.trace = s.trace ++ es ∧ es.filterMap Event.ispCommand <+: cs

section Carries

variable {s t u : Machine} {cs ds : List IspCommand}

/-- Two lists of commands in a row. -/
theorem Carries.trans (h : Carries cs s t) (h' : Carries ds t u) : Carries (cs ++ ds) s u := by
  obtain ⟨⟨es, htrace, hes⟩, hflash, hverdicts⟩ := h
  obtain ⟨⟨es', htrace', hes'⟩, hflash', hverdicts'⟩ := h'
  refine ⟨⟨es ++ es', by rw [htrace', htrace, List.append_assoc], ?_⟩, ?_, ?_⟩
  · rw [List.filterMap_append, hes, hes']
  · rw [hflash', hflash, List.foldl_append]
  · rw [hverdicts', hverdicts, List.length_append]
    funext n
    simp only [Nat.add_assoc, Nat.add_comm ds.length]

/-- What follows a prefix that was carried out is judged by the verdicts that are left. -/
theorem Carries.carried_iff (h : Carries cs s t) :
    Carried s.verdicts.isp (cs ++ ds) ↔
      Carried s.verdicts.isp cs ∧ Carried t.verdicts.isp ds := by
  rw [carried_append, h.verdicts]

/-- No command was given. -/
theorem carries_nil (htrace : t.trace = s.trace) (hflash : t.flash = s.flash)
    (hverdicts : t.verdicts.isp = s.verdicts.isp) : Carries [] s t :=
  ⟨⟨[], by rw [htrace, List.append_nil], rfl⟩, hflash, hverdicts⟩

/-- A LittleFS call gives no ISP command. -/
theorem carries_afterCall {ρ : Type} (c : LfsCall) (act : Lfs → LfsVerdict → ρ × Lfs)
    (ret : ρ → ℤ) (s : Machine) : Carries [] s (s.afterCall c act ret) :=
  ⟨⟨[_], rfl, rfl⟩, rfl, rfl⟩

/-- One command of the flash driver. -/
theorem carries_afterIsp {c : IspCommand} (h : s.verdicts.isp 0 c = .done) (dat : UInt32)
    (err : Int32) : Carries [c] s { s.afterIsp c with ispDat := dat, fmcErrCode := err } := by
  have happlies : (s.verdicts.isp 0 c).applies = true := by
    rw [h]
    rfl
  exact ⟨⟨[.isp c (s.verdicts.isp 0 c)], rfl, rfl⟩, if_pos happlies, rfl⟩

/-- Without a command, nothing has begun. -/
theorem begins_refl (cs : List IspCommand) (s : Machine) : Begins cs s s :=
  ⟨[], (List.append_nil _).symm, List.nil_prefix⟩

/-- Commands that were carried out have begun. -/
theorem Carries.begins (h : Carries cs s t) : Begins cs s t := by
  obtain ⟨es, htrace, hes⟩ := h.trace
  exact ⟨es, htrace, hes ▸ List.prefix_refl _⟩

/-- A command, however it ended, and the first of those after it. -/
theorem begins_afterIsp (c : IspCommand) (dat : UInt32) (err : Int32)
    (h : Begins cs { s.afterIsp c with ispDat := dat, fmcErrCode := err } t) :
    Begins (c :: cs) s t := by
  obtain ⟨es, htrace, hes⟩ := h
  refine ⟨.isp c (s.verdicts.isp 0 c) :: es, ?_, List.cons_prefix_cons.mpr ⟨rfl, hes⟩⟩
  rw [htrace]
  exact List.append_assoc ..

/-- Commands that were carried out, and the first of those after them. -/
theorem Carries.begins_append (h : Carries cs s t) (h' : Begins ds t u) :
    Begins (cs ++ ds) s u := by
  obtain ⟨es, htrace, hes⟩ := h.trace
  obtain ⟨es', htrace', hes'⟩ := h'
  refine ⟨es ++ es', by rw [htrace', htrace, List.append_assoc], ?_⟩
  rw [List.filterMap_append, hes]
  exact (List.prefix_append_right_inj cs).mpr hes'

/-- The commands after the first ones do not matter. -/
theorem Begins.append_right (h : Begins cs s t) (ds : List IspCommand) : Begins (cs ++ ds) s t := by
  obtain ⟨es, htrace, hes⟩ := h
  exact ⟨es, htrace, hes.trans (List.prefix_append cs ds)⟩

end Carries

/-! ### The loops of flash.c -/

/-- The loop of a page write reports success exactly when its commands are carried out. -/
theorem writeWords_outcome (buf : ℕ → UInt8) (n : ℕ) (addr : UInt32) (i : ℕ) (s : Machine) :
    ∃ r t, writeWords buf n addr i s = .ok r t ∧ FmcStep s t ∧
      (r = successed ↔ Carried s.verdicts.isp (pageCommands buf n addr i)) ∧
      (r = successed → Carries (pageCommands buf n addr i) s t) ∧
      Begins (pageCommands buf n addr i) s t := by
  induction n generalizing addr i s with
  | zero =>
      exact ⟨successed, s, rfl, Std.Refl.refl s, iff_of_true rfl trivial,
        fun _ => carries_nil rfl rfl rfl, begins_refl _ s⟩
  | succ n ih =>
      let c : IspCommand := .program addr (leWord buf i)
      let s₁ := s.afterFmcWrite addr (leWord buf i)
      have hstep : FmcStep s s₁ := fmcStep_afterIsp s c _ _
      rw [writeWords_succ, pageCommands, Carried]
      by_cases hv : s.verdicts.isp 0 c = .done
      · rw [if_pos hv, and_iff_right hv]
        obtain ⟨r, t, hrun, hfmc, hr, hcarries, hbegins⟩ := ih (addr + 4) (i + 4) s₁
        exact ⟨r, t, hrun, hstep.trans hfmc, hr, fun h =>
          (carries_afterIsp hv _ _).trans (hcarries h), begins_afterIsp c _ _ hbegins⟩
      · rw [if_neg hv]
        exact ⟨failed, s₁, rfl, hstep, iff_of_false failed_ne_successed fun h => hv h.1,
          fun h => absurd h failed_ne_successed, begins_afterIsp c _ _ (begins_refl _ s₁)⟩

/-- The first block, and the others. -/
theorem blockCommands_succ (n b : ℕ) :
    blockCommands (n + 1) b = blockCommand b :: blockCommands n (b + 1) := by
  rw [blockCommands, List.range'_succ, List.map_cons]
  rfl

/-- The erase loop with `n` blocks to go. It goes through all of them, whatever becomes of
each. -/
theorem eraseBlocks_outcome (n b : ℕ) (res : UInt8) (s : Machine) (hb : b + n = 32) :
    ∃ r t, eraseBlocks (n + 1) (UInt32.ofNat (16384 * b)) res s = .ok r t ∧ FmcStep s t ∧
      (r = successed ↔ res = 0 ∧ Carried s.verdicts.isp (blockCommands n b)) ∧
      (r = successed → Carries (blockCommands n b) s t) ∧ Begins (blockCommands n b) s t := by
  induction n generalizing b res s with
  | zero =>
      obtain rfl : b = 32 := hb
      exact ⟨res, s, eraseBlocks_end 0 res s, Std.Refl.refl s, (and_iff_left trivial).symm,
        fun _ => carries_nil rfl rfl rfl, begins_refl _ s⟩
  | succ n ih =>
      let s₁ := s.afterFmcErase (UInt32.ofNat (16384 * b))
      let v := s.verdicts.isp 0 (blockCommand b)
      have hstep : FmcStep s s₁ := fmcStep_afterIsp s (blockCommand b) s.ispDat _
      rw [eraseBlocks_succ (n + 1) (by omega), blockCommands_succ, Carried]
      obtain ⟨r, t, hrun, hfmc, hr, hcarries, hbegins⟩ :=
        ih (b + 1) (res ||| v.code.toUInt32.toUInt8) s₁ (by omega)
      rw [or_code_eq_zero, and_assoc] at hr
      exact ⟨r, t, hrun, hstep.trans hfmc, hr, fun h =>
        (carries_afterIsp (hr.mp h).2.1 s.ispDat _).trans (hcarries h),
        begins_afterIsp _ s.ispDat _ hbegins⟩

/-- `flash_erase_app_all` reports success exactly when its commands are carried out. -/
theorem flashEraseAppAll_outcome (s : Machine) :
    ∃ r t, flashEraseAppAll s = .ok r t ∧ FmcStep s t ∧
      (r = successed ↔ Carried s.verdicts.isp eraseCommands) ∧
      (r = successed → Carries eraseCommands s t) ∧ Begins eraseCommands s t := by
  obtain ⟨r, t, hrun, hfmc, hr, hcarries⟩ := eraseBlocks_outcome 28 4 0 s rfl
  exact ⟨r, t, hrun, hfmc, hr.trans (and_iff_right rfl), hcarries⟩

/-! ### Records -/

/-- The commands that program a record at the address in its first four bytes. -/
def recordCommands (record : List UInt8) : List IspCommand :=
  pageCommands (fun i => record.getD (4 + i) 0) 128 (leWord (fun i => record.getD i 0) 0) 0

/-- What each of a list of deliveries leaves in the packet buffer. -/
def images : List Delivery → (ℕ → UInt8) → List (List UInt8)
  | [], _ => []
  | d :: ds, buf => slice (d.store buf) 0 bufferSize :: images ds (d.store buf)

/-- The commands of a page depend on its bytes only. -/
theorem pageCommands_congr {b₁ b₂ : ℕ → UInt8} {n : ℕ} (addr : UInt32) {i : ℕ}
    (h : ∀ j < 4 * n, b₁ (i + j) = b₂ (i + j)) :
    pageCommands b₁ n addr i = pageCommands b₂ n addr i := by
  induction n generalizing addr i with
  | zero => rfl
  | succ n ih =>
      rw [pageCommands, pageCommands, leWord_congr fun j hj => h j (by omega),
        ih (addr + 4) fun j hj => by rw [Nat.add_assoc, h (4 + j) (by omega)]]

/-- A byte of the buffer, read from its front part. -/
theorem getD_slice {buf : ℕ → UInt8} {n i : ℕ} (h : i < n) : (slice buf 0 n).getD i 0 = buf i := by
  rw [← List.getElem_eq_getD (h := by rwa [length_slice]), getElem_slice, Nat.zero_add]

/-- Programming the record in the packet buffer. -/
theorem programRecord_outcome (s : Machine) :
    let cs := recordCommands (slice s.blBuffer 0 bufferSize)
    ∃ r t, programRecord s = .ok r t ∧ FmcStep s t ∧
      (r = successed ↔ Carried s.verdicts.isp cs) ∧ (r = successed → Carries cs s t) ∧
      Begins cs s t := by
  intro cs
  have hcs : pageCommands (fun i => s.blBuffer (4 + i)) 128 (leWord s.blBuffer 0) 0 = cs := by
    have haddr : leWord (fun i => (slice s.blBuffer 0 bufferSize).getD i 0) 0
        = leWord s.blBuffer 0 :=
      leWord_congr fun j hj => getD_slice (by simp only [bufferSize]; omega)
    rw [← haddr]
    exact pageCommands_congr _ fun j hj => (getD_slice (by simp only [bufferSize]; omega)).symm
  rw [← hcs]
  exact writeWords_outcome (fun i => s.blBuffer (4 + i)) 128 (leWord s.blBuffer 0) 0 s

/-! ### One pass of the record loop -/

/-- `/boot` is open for reading. -/
def Lfs.Reading (l : Lfs) : Prop := l.file.any (·.flags.rdonly) = true

/-- A read of the open file passes its assertions. -/
theorem Lfs.Reading.asserts_fileRead {l : Lfs} (h : l.Reading) (size : ℕ) :
    (LfsCall.fileRead size).asserts l = true := h

/-- Closing the open file passes its assertion. -/
theorem Lfs.Reading.asserts_fileClose {l : Lfs} (h : l.Reading) :
    LfsCall.fileClose.asserts l = true := by
  cases hf : l.file with
  | none =>
      rw [Reading, hf] at h
      cases h
  | some f => rw [LfsCall.asserts, hf, Option.isSome_some]

/-- A read leaves the file open. -/
theorem Lfs.Reading.fileRead {l : Lfs} (h : l.Reading) (size : ℕ) (v : LfsVerdict) :
    (l.fileRead size v).2.Reading := by
  cases v with
  | asDocumented =>
      cases hf : l.file with
      | none => simpa [Lfs.fileRead, hf] using h
      | some f =>
          rw [Reading, hf] at h
          simpa [Lfs.fileRead, hf, Reading] using h
  | deviates ret disk data => exact h

/-- A handle open for reading stays so when its size is asked for. -/
theorem Lfs.Reading.fileSize {l : Lfs} (h : l.Reading) (v : LfsVerdict) :
    (l.fileSize v).2.Reading := by
  cases v with
  | asDocumented => exact h
  | deviates ret disk data => exact h

section Pass

variable {s : Machine} {size : ℕ}

/-- The bytes the next read delivers. -/
def Machine.nextRead (s : Machine) (size : ℕ) : List UInt8 :=
  (s.volume.ret (.fileRead size) (Lfs.fileRead size)).2

/-- The machine after a read that fits the buffer. -/
def Machine.afterRead (s : Machine) (size : ℕ) : Machine :=
  { s.afterCall (.fileRead size) (Lfs.fileRead size) Prod.fst with
    blBuffer := overlay s.blBuffer 0 (s.nextRead size) }

/-- A read that fits the buffer returns. -/
theorem lfsFileRead_fits (hopen : s.lfs.Reading)
    (hfits : (s.nextRead size).length ≤ bufferSize) :
    ∃ n, lfsFileRead size s = .ok n (s.afterRead size) := by
  refine ⟨(s.volume.ret (.fileRead size) (Lfs.fileRead size)).1, ?_⟩
  rw [lfsFileRead, bind_of_ok (lfsInvoke_apply _ _ (hopen.asserts_fileRead size)),
    bind_of_ok (storeBytes_of_fits (by simpa [Machine.nextRead] using hfits) _)]
  rfl

/-- Bytes that do not fit leave the buffer at its end. -/
theorem storeBytes_overruns {i : ℕ} {bytes : List UInt8} (h : bufferSize < i + bytes.length)
    (hi : i ≤ bufferSize) (s : Machine) :
    ∃ t, storeBytes i bytes s = .error (.overrun bufferSize) t := by
  induction bytes generalizing i s with
  | nil =>
      rw [List.length_nil] at h
      omega
  | cons b bytes ih =>
      rw [List.length_cons] at h
      rw [storeBytes]
      rcases Nat.lt_or_eq_of_le hi with hlt | rfl
      · rw [bind_of_ok (storeBuffer_of_lt hlt b s)]
        exact ih (by omega) hlt _
      · exact ⟨s, bind_of_error (storeBuffer_of_le (Nat.le_refl _) b s)⟩

/-- A read that does not fit leaves the buffer. -/
theorem lfsFileRead_overruns (hopen : s.lfs.Reading)
    (hfits : ¬ (s.nextRead size).length ≤ bufferSize) :
    ∃ t, lfsFileRead size s = .error (.overrun bufferSize) t := by
  have hover : bufferSize < 0 + (s.nextRead size).length := by omega
  obtain ⟨t, hstore⟩ := storeBytes_overruns hover (Nat.zero_le _)
    (s.afterCall (.fileRead size) (Lfs.fileRead size) Prod.fst)
  refine ⟨t, ?_⟩
  rw [lfsFileRead, bind_of_ok (lfsInvoke_apply _ _ (hopen.asserts_fileRead size))]
  exact bind_of_error hstore

/-- A read and the programming of what it leaves in the buffer. -/
theorem readRecord_outcome (hopen : s.lfs.Reading)
    (hfits : (s.nextRead size).length ≤ bufferSize) :
    let cs := recordCommands (slice (overlay s.blBuffer 0 (s.nextRead size)) 0 bufferSize)
    ∃ r t, (do let _ ← lfsFileRead size; programRecord : Prog UInt8) s = .ok r t ∧
      (r = successed ↔ Carried s.verdicts.isp cs) ∧ (r = successed → Carries cs s t) ∧
      Begins cs s t ∧ t.lfs.Reading ∧
      t.volume = s.volume.next (.fileRead size) (Lfs.fileRead size) ∧
      t.blBuffer = overlay s.blBuffer 0 (s.nextRead size) ∧ t.bootLEDOn = s.bootLEDOn := by
  obtain ⟨n, hread⟩ := lfsFileRead_fits hopen hfits
  obtain ⟨r, t, hrun, hfmc, hr, hcarries, hbegins⟩ := programRecord_outcome (s.afterRead size)
  have hcall : Carries [] s (s.afterRead size) := ⟨⟨[_], rfl, rfl⟩, rfl, rfl⟩
  refine ⟨r, t, (bind_of_ok hread).trans hrun, hr, fun h => hcall.trans (hcarries h),
    hcall.begins_append hbegins, ?_, ?_, hfmc.blBuffer, hfmc.bootLEDOn⟩
  · rw [hfmc.lfs]
    exact hopen.fileRead size _
  · rw [Machine.volume, hfmc.lfs, hfmc.lfsVerdicts]
    rfl

end Pass

/-! ### The record loop -/

/-- Everything `boot_from_fs` acquires is released: `/boot` is closed, the file system
unmounted, the LED off. -/
structure Released (s : Machine) : Prop where
  closed : s.lfs.file = none
  unmounted : s.lfs.mounted = false
  ledOff : s.bootLEDOn = false

section Loop

variable {s : Machine} {fsize : ℤ}

/-- A close empties the open list, whatever it returns. -/
theorem file_fileClose (l : Lfs) (v : LfsVerdict) : (l.fileClose v).2.file = none := by
  cases v with
  | asDocumented =>
      cases hf : l.file with
      | none => simp [Lfs.fileClose, hf]
      | some f =>
          simp only [Lfs.fileClose, hf]
          split <;> rfl
  | deviates ret disk data => rfl

/-- An unmount leaves the open list alone. -/
theorem unmount_released (l : Lfs) (v : LfsVerdict) :
    (l.unmount v).2.file = l.file ∧ (l.unmount v).2.mounted = false := by
  cases v with
  | asDocumented => exact ⟨rfl, rfl⟩
  | deviates ret disk data => exact ⟨rfl, rfl⟩

/-- The way out after the last record releases everything, however LittleFS fares. -/
theorem bootFinish_apply (hopen : s.lfs.Reading) :
    ∃ t, (do
        let _ ← lfsFileClose
        let _ ← lfsUnmount
        apromUpdateEnable
        bootLEDOff
        pure successed : Prog UInt8) s = .ok successed t ∧ Carries [] s t ∧ Released t := by
  let u := s.afterCall .fileClose Lfs.fileClose id
  let w := u.afterCall .unmount Lfs.unmount id
  have hunmount := unmount_released u.lfs (u.verdicts.lfs 0 .unmount)
  refine ⟨{ w with window := ⟨true, true, true⟩, bootLEDOn := false }, ?_,
    ⟨⟨[_, _], List.append_assoc .., rfl⟩, rfl, rfl⟩,
    hunmount.1.trans (file_fileClose _ _), hunmount.2, rfl⟩
  rw [lfsFileClose, bind_of_ok (lfsInvoke_apply Lfs.fileClose id hopen.asserts_fileClose),
    lfsUnmount, bind_of_ok (lfsInvoke_apply Lfs.unmount id rfl)]
  rfl

/-- How a run of the loop with the deliveries `ds` to come ends: when its commands are
carried out, with everything released, else with a failure after the first of them, and the LED
as it was. -/
def LoopEnds (ds : List Delivery) (x : Prog UInt8) (s : Machine) : Prop :=
  let cs := (images ds s.blBuffer).flatMap recordCommands
  (Carried s.verdicts.isp cs → ∃ t, x s = .ok successed t ∧ Carries cs s t ∧ Released t) ∧
    (¬ Carried s.verdicts.isp cs →
      ∃ t, x s = .ok failed t ∧ t.bootLEDOn = s.bootLEDOn ∧ Begins cs s t)

/-- The loop with nothing to come. -/
theorem loopEnds_nil {x : Prog UInt8}
    (h : ∃ t, x s = .ok successed t ∧ Carries [] s t ∧ Released t) : LoopEnds [] x s :=
  ⟨fun _ => h, fun hnot => absurd trivial hnot⟩

/-- One pass of the loop, with the rest of the loop after it. -/
theorem loopEnds_cons {ds : List Delivery} {size : ℕ} {rest : Prog UInt8}
    (hopen : s.lfs.Reading) (hfits : (s.nextRead size).length ≤ bufferSize)
    (hrest : ∀ t : Machine, t.lfs.Reading →
      t.volume = s.volume.next (.fileRead size) (Lfs.fileRead size) →
      t.blBuffer = overlay s.blBuffer 0 (s.nextRead size) → LoopEnds ds rest t) :
    LoopEnds (⟨false, s.nextRead size⟩ :: ds) (do
      let _ ← lfsFileRead size
      let r ← programRecord
      if r ≠ 0 then pure failed else rest) s := by
  obtain ⟨r, t, hrun, hr, hcarries, hbegins, hopen', hvol, hbuf, hled⟩ :=
    readRecord_outcome hopen hfits
  have hhead : ∀ k : UInt8 → Prog UInt8,
      (do let _ ← lfsFileRead size; let r ← programRecord; k r : Prog UInt8) s = k r t := by
    intro k
    rw [← bind_assoc, bind_of_ok hrun]
  obtain ⟨hdone, hfailed⟩ := hrest t hopen' hvol hbuf
  rw [LoopEnds, hhead, images, List.flatMap_cons]
  rw [hbuf] at hdone hfailed
  by_cases hok : r = successed
  · have hc := hcarries hok
    have hnext : ¬ r ≠ 0 := not_not.mpr hok
    rw [if_neg hnext]
    refine ⟨fun h => ?_, fun h => ?_⟩
    · obtain ⟨u, hu, hc', hreleased⟩ := hdone (hc.carried_iff.mp h).2
      exact ⟨u, hu, hc.trans hc', hreleased⟩
    · obtain ⟨u, hu, hled', hrest'⟩ :=
        hfailed fun h' => h (hc.carried_iff.mpr ⟨hr.mp hok, h'⟩)
      exact ⟨u, hu, hled'.trans hled, hc.begins_append hrest'⟩
  · have hnot : ¬ Carried s.verdicts.isp _ := mt hr.mpr hok
    have hstop : r ≠ 0 := hok
    rw [if_pos hstop]
    exact ⟨fun h => absurd (carried_append.mp h).1 hnot,
      fun _ => ⟨t, rfl, hled, hbegins.append_right _⟩⟩

/-- The last pass clears the buffer first. -/
theorem loopEnds_cleared {ds : List Delivery} {bytes : List UInt8} {x : Prog UInt8}
    (h : LoopEnds (⟨false, bytes⟩ :: ds) x { s with blBuffer := zeroed s.blBuffer }) :
    LoopEnds (⟨true, bytes⟩ :: ds) (do clearBuffer; x) s := by
  have hclear : Carries [] s { s with blBuffer := zeroed s.blBuffer } := carries_nil rfl rfl rfl
  rw [LoopEnds, bind_of_ok (clearBuffer_apply s)]
  refine ⟨fun hc => ?_, h.2⟩
  obtain ⟨t, hrun, hcarries, hreleased⟩ := h.1 hc
  exact ⟨t, hrun, hclear.trans hcarries, hreleased⟩

/-- The part behind the loop: a last, shorter record, and the way out. -/
theorem bootTail_ends (hopen : s.lfs.Reading)
    (hfits : ∀ d ∈ s.volume.tailDelivery fsize, d.bytes.length ≤ bufferSize) :
    LoopEnds (s.volume.tailDelivery fsize) (bootTail fsize) s := by
  rw [bootTail]
  by_cases hsize : fsize ≠ 0
  · rw [Volume.tailDelivery, if_pos hsize] at hfits ⊢
    rw [if_pos hsize]
    let s₀ : Machine := { s with blBuffer := zeroed s.blBuffer }
    have hfits : (s₀.nextRead (toLfsSize fsize)).length ≤ bufferSize :=
      hfits _ List.mem_cons_self
    exact loopEnds_cleared (loopEnds_cons (s := s₀) hopen hfits fun t ht _ _ =>
      loopEnds_nil (bootFinish_apply ht))
  · rw [Volume.tailDelivery, if_neg hsize, if_neg hsize]
    exact loopEnds_nil (bootFinish_apply hopen)

/-- **The record loop.** -/
theorem bootRecords_ends (n : ℕ) (hopen : s.lfs.Reading)
    (hfits : ∀ d ∈ s.volume.deliveries n fsize, d.bytes.length ≤ bufferSize) :
    LoopEnds (s.volume.deliveries n fsize) (bootRecords n fsize) s := by
  induction n generalizing s fsize with
  | zero => exact bootTail_ends hopen hfits
  | succ n ih =>
      rw [bootRecords]
      by_cases hsize : fsize ≥ bufferSize
      · rw [Volume.deliveries, if_pos hsize] at hfits ⊢
        rw [if_pos hsize]
        rw [List.forall_mem_cons] at hfits
        refine loopEnds_cons hopen hfits.1 fun t ht hvol _ => ?_
        rw [← hvol] at hfits ⊢
        exact ih ht hfits.2
      · rw [Volume.deliveries, if_neg hsize] at hfits ⊢
        rw [if_neg hsize]
        exact bootTail_ends hopen hfits

/-- A read that does not fit the buffer leaves it. -/
theorem bootTail_overruns (hopen : s.lfs.Reading)
    (hfits : ¬ ∀ d ∈ s.volume.tailDelivery fsize, d.bytes.length ≤ bufferSize) :
    ∃ t, bootTail fsize s = .error (.overrun bufferSize) t := by
  by_cases hsize : fsize ≠ 0
  · rw [Volume.tailDelivery, if_pos hsize, List.forall_mem_singleton] at hfits
    let s₀ : Machine := { s with blBuffer := zeroed s.blBuffer }
    obtain ⟨t, hread⟩ := lfsFileRead_overruns (s := s₀) hopen hfits
    refine ⟨t, ?_⟩
    rw [bootTail, if_pos hsize, bind_of_ok (clearBuffer_apply s)]
    exact bind_of_error hread
  · rw [Volume.tailDelivery, if_neg hsize] at hfits
    exact absurd (by simp) hfits

end Loop

/-! ### boot_from_fs -/

/-- `lfs_file_open` of `/boot` succeeds, after the mount sequence. -/
def Volume.Opens (v : Volume) : Prop :=
  v.mountOrFormat.ret (.fileOpen bootReadFlags) (Lfs.fileOpen bootReadFlags) = 0

/-- What `boot_from_fs` reads fits the packet buffer. -/
def Volume.Fits (v : Volume) : Prop := ∀ d ∈ v.bootDeliveries, d.bytes.length ≤ bufferSize

/-- The contents of the packet buffer `boot_from_fs` programs. -/
def Machine.bootImages (s : Machine) : List (List UInt8) :=
  images s.volume.bootDeliveries (zeroed s.blBuffer)

/-- The program commands for what `boot_from_fs` finds in `/boot`. -/
def Machine.bootCommands (s : Machine) : List IspCommand := s.bootImages.flatMap recordCommands

/-- An open succeeds exactly when it leaves the handle on the open list. -/
theorem fileOpen_reading (l : Lfs) (v : LfsVerdict) :
    (Lfs.fileOpen bootReadFlags l v).1 = 0 ↔ (Lfs.fileOpen bootReadFlags l v).2.Reading := by
  cases v with
  | asDocumented =>
      rcases hdisk : l.disk with _ | _ | b
      · simp [Lfs.fileOpen, hdisk, Lfs.Reading, lfsErrCorrupt]
      · simp [Lfs.fileOpen, hdisk, Lfs.Reading, bootReadFlags]
      · simp [Lfs.fileOpen, hdisk, Lfs.Reading, bootReadFlags]
  | deviates ret disk data =>
      by_cases hret : ret = 0 <;> simp [Lfs.fileOpen, hret, Lfs.Reading, bootReadFlags]

/-- A failing open leaves nothing open. -/
theorem fileOpen_failed {l : Lfs} {v : LfsVerdict}
    (h : (Lfs.fileOpen bootReadFlags l v).1 ≠ 0) :
    (Lfs.fileOpen bootReadFlags l v).2.file = none := by
  cases v with
  | asDocumented =>
      rcases hdisk : l.disk with _ | _ | b
      · simp [Lfs.fileOpen, hdisk]
      · simp [Lfs.fileOpen, hdisk, bootReadFlags] at h
      · simp [Lfs.fileOpen, hdisk] at h
  | deviates ret disk data =>
      have hret : ret ≠ 0 := h
      simp [Lfs.fileOpen, hret]

/-- A mount empties the open list. -/
theorem file_mount (l : Lfs) (v : LfsVerdict) : (l.mount v).2.file = none := by
  cases v with
  | asDocumented => cases hdisk : l.disk <;> simp [Lfs.mount, hdisk]
  | deviates ret disk data => rfl

/-- The mount sequence leaves nothing open. -/
theorem file_afterMount (s : Machine) : s.afterMount.lfs.file = none := by
  rw [Machine.afterMount]
  split
  · exact file_mount _ _
  · exact file_mount _ _

/-- The mount sequence gives no ISP command. -/
theorem carries_afterMount (s : Machine) : Carries [] s s.afterMount := by
  rw [Machine.afterMount]
  split
  · exact ((carries_afterCall ..).trans (carries_afterCall ..)).trans (carries_afterCall ..)
  · exact carries_afterCall ..

/-- The mount sequence leaves the LED. -/
theorem bootLEDOn_afterMount (s : Machine) : s.afterMount.bootLEDOn = s.bootLEDOn := by
  rw [Machine.afterMount]
  split <;> rfl

section Boot

variable {s : Machine}

/-- A failing erase is reported at once, with the LED on and nothing but the flash driver
called. -/
theorem bootFromFs_eraseFails (h : ¬ Carried s.verdicts.isp eraseCommands) :
    ∃ t, bootFromFs s = .ok failed t ∧
      FmcStep { s with bootLEDOn := true, window := ⟨true, true, true⟩ } t ∧
      Begins eraseCommands s t := by
  let s₁ : Machine := { s with bootLEDOn := true, window := ⟨true, true, true⟩ }
  obtain ⟨r, t, hrun, hfmc, hr, -, hbegins⟩ := flashEraseAppAll_outcome s₁
  have hstop : r ≠ 0 := mt hr.mp h
  refine ⟨t, ?_, hfmc, hbegins⟩
  rw [bootFromFs, bootLEDOn, bind_of_ok (modify_apply _ s), apromUpdateEnable,
    bind_of_ok (modify_apply _ _), bind_of_ok hrun, if_pos hstop]
  rfl

/-- The rest of `boot_from_fs`, once the section is erased and LittleFS mounted. -/
def replay : Prog UInt8 := do
  let _ ← lfsFileOpen bootReadFlags
  let fsize ← lfsFileSize
  bootRecords (fsize.toNat / bufferSize) fsize

/-- Once the erase has succeeded, the mount sequence follows, and then the file is read. -/
theorem bootFromFs_erased (h : Carried s.verdicts.isp eraseCommands) :
    ∃ t, bootFromFs s = replay t ∧ Carries eraseCommands s t ∧ t.lfs.file = none ∧
      t.volume = s.volume.mountOrFormat ∧ t.blBuffer = zeroed s.blBuffer ∧
      t.bootLEDOn = true := by
  let s₁ : Machine := { s with bootLEDOn := true, window := ⟨true, true, true⟩ }
  obtain ⟨r, s₂, hrun, hfmc, hr, hcarries, -⟩ := flashEraseAppAll_outcome s₁
  obtain rfl : r = successed := hr.mpr h
  let s₃ : Machine := { s₂ with blBuffer := zeroed s₂.blBuffer }
  have hstart : Carries [] s s₁ := carries_nil rfl rfl rfl
  have hclear : Carries [] s₂ s₃ := carries_nil rfl rfl rfl
  refine ⟨s₃.afterMount, ?_, ?_, file_afterMount s₃, ?_, ?_, ?_⟩
  · rw [bootFromFs, bootLEDOn, bind_of_ok (modify_apply _ s), apromUpdateEnable,
      bind_of_ok (modify_apply _ _), bind_of_ok hrun, if_neg not_successed_ne_zero,
      bind_of_ok (clearBuffer_apply s₂), bind_of_ok (mountOrFormat_apply s₃)]
    rfl
  · have hall := ((hstart.trans (hcarries rfl)).trans hclear).trans (carries_afterMount s₃)
    simpa using hall
  · rw [volume_afterMount]
    simp only [s₃, s₁, Machine.volume, hfmc.lfs, hfmc.lfsVerdicts]
  · rw [blBuffer_afterMount]
    simp only [s₃, s₁, hfmc.blBuffer]
  · rw [bootLEDOn_afterMount]
    exact hfmc.bootLEDOn

/-- Without the file, asking for its size fails an assertion. -/
theorem bootFromFs_openFails (h : Carried s.verdicts.isp eraseCommands)
    (hopens : ¬ s.volume.Opens) :
    ∃ t, bootFromFs s = .error (.assertFailed .fileSize) t ∧ Begins eraseCommands s t := by
  obtain ⟨u, hrun, hcarries, hfile, hvol, -⟩ := bootFromFs_erased h
  have hopen : (LfsCall.fileOpen bootReadFlags).asserts u.lfs = true := by
    rw [LfsCall.asserts, hfile, Option.isNone_none]
  let w := u.afterCall (.fileOpen bootReadFlags) (Lfs.fileOpen bootReadFlags) id
  have hclosed : LfsCall.fileSize.asserts w.lfs = false := by
    have hnone : w.lfs.file = none := by
      rw [Volume.Opens, ← hvol] at hopens
      exact fileOpen_failed hopens
    rw [LfsCall.asserts, hnone, Option.isSome_none]
  let halted := w.log (.lfs .fileSize w.lfs none (w.prints 0 .fileSize))
  have hlogged : Begins [] u halted := ⟨[_, _], List.append_assoc .., List.nil_prefix⟩
  refine ⟨halted, ?_, by simpa using hcarries.begins_append hlogged⟩
  rw [hrun, replay, lfsFileOpen, bind_of_ok (lfsInvoke_apply _ _ hopen), lfsFileSize]
  exact bind_of_error (lfsInvoke_assert Lfs.fileSize id hclosed)

/-- With the file open, the record loop decides. -/
theorem bootFromFs_opened (h : Carried s.verdicts.isp eraseCommands) (hopens : s.volume.Opens) :
    ∃ t, bootFromFs s = bootRecords (s.volume.bootSize.toNat / bufferSize) s.volume.bootSize t ∧
      Carries eraseCommands s t ∧ t.lfs.Reading ∧
      t.volume = s.volume.bootOpened.next .fileSize Lfs.fileSize ∧
      t.blBuffer = zeroed s.blBuffer ∧ t.bootLEDOn = true := by
  obtain ⟨u, hrun, hcarries, hfile, hvol, hbuf, hled⟩ := bootFromFs_erased h
  have hopen : (LfsCall.fileOpen bootReadFlags).asserts u.lfs = true := by
    rw [LfsCall.asserts, hfile, Option.isNone_none]
  let w := u.afterCall (.fileOpen bootReadFlags) (Lfs.fileOpen bootReadFlags) id
  have hreading : w.lfs.Reading := by
    rw [Volume.Opens, ← hvol] at hopens
    exact (fileOpen_reading _ _).mp hopens
  have hwvol : w.volume = s.volume.bootOpened := by
    rw [Volume.bootOpened, ← hvol]
    rfl
  have hsize : lfsFileSize w = .ok s.volume.bootSize (w.afterCall .fileSize Lfs.fileSize id) := by
    rw [Volume.bootSize, ← hwvol]
    exact lfsInvoke_apply Lfs.fileSize id hreading.asserts_fileClose
  refine ⟨w.afterCall .fileSize Lfs.fileSize id, ?_, ?_, ?_, ?_, hbuf, hled⟩
  · rw [hrun, replay, lfsFileOpen, bind_of_ok (lfsInvoke_apply _ _ hopen), bind_of_ok hsize]
  · have hall := (hcarries.trans (carries_afterCall (.fileOpen bootReadFlags)
      (Lfs.fileOpen bootReadFlags) id u)).trans (carries_afterCall .fileSize Lfs.fileSize id w)
    simpa using hall
  · exact hreading.fileSize _
  · rw [Machine.volume_afterCall, hwvol]

/-- A size below zero makes the loop read more than the buffer holds. -/
theorem bootFromFs_overruns (h : Carried s.verdicts.isp eraseCommands) (hopens : s.volume.Opens)
    (hfits : ¬ s.volume.Fits) : ∃ t, bootFromFs s = .error (.overrun bufferSize) t := by
  obtain ⟨u, hrun, -, hreading, hvol, -⟩ := bootFromFs_opened h hopens
  have hneg : s.volume.bootSize < 0 := by
    rcases Int.lt_or_le s.volume.bootSize 0 with hneg | hnonneg
    · exact hneg
    · exact absurd (Volume.bootDeliveries_fit hnonneg) hfits
  have hn : s.volume.bootSize.toNat / bufferSize = 0 := by
    rw [Int.toNat_of_nonpos (Int.le_of_lt hneg), Nat.zero_div]
  rw [Volume.Fits, Volume.bootDeliveries, hn, Volume.deliveries, ← hvol] at hfits
  rw [hrun, hn, bootRecords]
  exact bootTail_overruns hreading hfits

/-- Once the file is open and its reads fit, `boot_from_fs` ends like its loop. -/
theorem bootFromFs_ends (h : Carried s.verdicts.isp eraseCommands) (hopens : s.volume.Opens)
    (hfits : s.volume.Fits) :
    let cs := eraseCommands ++ s.bootCommands
    (Carried s.verdicts.isp cs →
        ∃ t, bootFromFs s = .ok successed t ∧ Carries cs s t ∧ Released t) ∧
      (¬ Carried s.verdicts.isp cs →
        ∃ t, bootFromFs s = .ok failed t ∧ t.bootLEDOn = true ∧ Begins cs s t) := by
  intro cs
  obtain ⟨u, hrun, hcarries, hreading, hvol, hbuf, hled⟩ := bootFromFs_opened h hopens
  have hiff : Carried s.verdicts.isp cs ↔ Carried u.verdicts.isp s.bootCommands :=
    hcarries.carried_iff.trans (and_iff_right h)
  rw [Volume.Fits, Volume.bootDeliveries, ← hvol] at hfits
  have hloop := bootRecords_ends _ hreading hfits
  rw [LoopEnds, hvol, hbuf, hled] at hloop
  rw [hiff, hrun]
  refine ⟨fun hc => ?_, fun hc => ?_⟩
  · obtain ⟨t, ht, hc', hreleased⟩ := hloop.1 hc
    exact ⟨t, ht, hcarries.trans hc', hreleased⟩
  · obtain ⟨t, ht, hled', hbegins⟩ := hloop.2 hc
    exact ⟨t, ht, hled', hcarries.begins_append hbegins⟩

/-- What a successful `boot_from_fs` takes: the file opens, its reads fit the buffer, and every
ISP command is carried out. -/
def Machine.BootSucceeds (s : Machine) : Prop :=
  s.volume.Opens ∧ s.volume.Fits ∧ Carried s.verdicts.isp (eraseCommands ++ s.bootCommands)

/-- **The outcomes of `boot_from_fs`.** It succeeds with everything released, or reports an ISP
command that was not carried out, with the LED on, or halts at the file or at a read. -/
theorem bootFromFs_cases (s : Machine) :
    (s.BootSucceeds ∧ ∃ t, bootFromFs s = .ok successed t ∧
      Carries (eraseCommands ++ s.bootCommands) s t ∧ Released t) ∨
    ((Carried s.verdicts.isp eraseCommands → s.volume.Opens ∧ s.volume.Fits ∧
        ¬ Carried s.verdicts.isp (eraseCommands ++ s.bootCommands)) ∧
      ∃ t, bootFromFs s = .ok failed t ∧ t.bootLEDOn = true) ∨
    Carried s.verdicts.isp eraseCommands ∧ ¬ (s.volume.Opens ∧ s.volume.Fits) ∧
      ∃ e t, bootFromFs s = .error e t := by
  by_cases herase : Carried s.verdicts.isp eraseCommands
  case neg =>
    obtain ⟨t, hrun, hfmc, -⟩ := bootFromFs_eraseFails herase
    exact .inr (.inl ⟨fun h => absurd h herase, t, hrun, hfmc.bootLEDOn⟩)
  by_cases hopens : s.volume.Opens
  case neg =>
    obtain ⟨t, hrun, -⟩ := bootFromFs_openFails herase hopens
    exact .inr (.inr ⟨herase, fun h => hopens h.1, _, t, hrun⟩)
  by_cases hfits : s.volume.Fits
  case neg =>
    obtain ⟨t, hrun⟩ := bootFromFs_overruns herase hopens hfits
    exact .inr (.inr ⟨herase, fun h => hfits h.2, _, t, hrun⟩)
  obtain ⟨hdone, hfailed⟩ := bootFromFs_ends herase hopens hfits
  by_cases hcarried : Carried s.verdicts.isp (eraseCommands ++ s.bootCommands)
  · exact .inl ⟨⟨hopens, hfits, hcarried⟩, hdone hcarried⟩
  · obtain ⟨t, hrun, hled, -⟩ := hfailed hcarried
    exact .inr (.inl ⟨fun _ => ⟨hopens, hfits, hcarried⟩, t, hrun, hled⟩)

/-- Whatever the hardware does, no command is given but the erases and then those for the
buffers, as far as they get. -/
theorem bootFromFs_begins {cs : List IspCommand}
    (h : Carried s.verdicts.isp eraseCommands → s.volume.Opens →
      s.volume.Fits ∧ s.bootCommands = cs) :
    Begins (eraseCommands ++ cs) s (after (bootFromFs s)) := by
  by_cases herase : Carried s.verdicts.isp eraseCommands
  case neg =>
    obtain ⟨t, hrun, -, hbegins⟩ := bootFromFs_eraseFails herase
    rw [hrun]
    exact hbegins.append_right cs
  by_cases hopens : s.volume.Opens
  case neg =>
    obtain ⟨t, hrun, hbegins⟩ := bootFromFs_openFails herase hopens
    rw [hrun]
    exact hbegins.append_right cs
  obtain ⟨hfits, rfl⟩ := h herase hopens
  obtain ⟨hdone, hfailed⟩ := bootFromFs_ends herase hopens hfits
  by_cases hcarried : Carried s.verdicts.isp (eraseCommands ++ s.bootCommands)
  · obtain ⟨t, hrun, hcarries, -⟩ := hdone hcarried
    rw [hrun]
    exact hcarries.begins
  · obtain ⟨t, hrun, -, hbegins⟩ := hfailed hcarried
    rw [hrun]
    exact hbegins

end Boot

end Num487Boot
