import Num487Boot.Documented

/-!
# Stale Bytes of the Packet Buffer

All frames share `bl_buffer`, and a frame overwrites only as many bytes of it as it
carries. The handlers dereference a fixed number of bytes (2, 4 or 516) whatever the length
of their frame was, so what earlier frames and replies left behind can show.

Two machines are *twins* (`Twins`) when they agree on everything a handler can reach but the
buffer, where they agree below some index, and have sent the same bytes since the frame
was accepted. `Alike k m x` says that `x` cannot tell twins that agree below `k` apart, and
leaves them agreeing below `m`.

## Main results

* `leakless_iff_covered`: handling a frame is independent of the leftovers exactly when the
  frame covers what its handler reads.
-/

namespace Num487Boot

open Exec Memory

/-- The same flash, file system and driver state under the same surroundings. The receive
line, the packet, its buffer, the phase, the log and LittleFS's messages are free. -/
structure SameSystem (s t : Machine) : Prop where
  flash : s.flash = t.flash
  ispDat : s.ispDat = t.ispDat
  fmcErrCode : s.fmcErrCode = t.fmcErrCode
  lfs : s.lfs = t.lfs
  bootLEDOn : s.bootLEDOn = t.bootLEDOn
  window : s.window = t.window
  verdicts : s.verdicts = t.verdicts

/-- Both machines handle the frame at the front of their receive line alike: they stay in
the loop, leave it or halt alike, send the same bytes and leave the same flash and the same
file system. -/
structure SameHandling (s t : Machine) : Prop where
  outcome : value? (commandPass s) = value? (commandPass t)
  replies : sentBy commandPass s = sentBy commandPass t
  flash : (after (commandPass s)).flash = (after (commandPass t)).flash
  lfs : (after (commandPass s)).lfs = (after (commandPass t)).lfs

/-- However the leftovers in the buffer differ, the frame is handled alike. -/
def Leakless (f : Frame) : Prop :=
  ∀ (s t : Machine) (r₁ r₂ : List UartPoll), SameSystem s t →
    s.rx = (encode f).map .byte ++ r₁ → t.rx = (encode f).map .byte ++ r₂ → SameHandling s t

/-- The frame carries every byte its handler lets the outcome depend on. A page size
whose low byte is not zero is rejected whatever follows, and a page write into the
bootloader whatever its data. -/
def Covered (f : Frame) : Prop :=
  match Command.ofByte f.cmd with
  | .flashSetPgsz => 2 ≤ f.data.length ∨ ∃ d, d ≠ 0 ∧ f.data = [d]
  | .flashWrite =>
      bufferSize ≤ f.data.length ∨
        4 ≤ f.data.length ∧ leWord (fun i => f.data.getD i 0) 0 ≤ bootloaderEnd
  | .flashRead => 4 ≤ f.data.length
  | .extFlashWrite => bufferSize ≤ f.data.length
  | _ => True

/-! ### Twins -/

/-- Machines that agree on the system, on the packet and on the buffer below `k`, and have
sent the same bytes while their logs grew from `e₁` and `e₂`. -/
structure Twins (e₁ e₂ : List Event) (k : ℕ) (s t : Machine) : Prop where
  system : SameSystem s t
  pac : s.pac = t.pac
  buffer : ∀ i < k, s.blBuffer i = t.blBuffer i
  log : ∃ es₁ es₂, s.trace = e₁ ++ es₁ ∧ t.trace = e₂ ++ es₂ ∧ txBytes es₁ = txBytes es₂

/-- Twins that agree below `k` see the same of `x`, and then agree below `m`. -/
def Alike {α : Type} (k m : ℕ) (x : Prog α) : Prop :=
  ∀ e₁ e₂, Coupled (Twins e₁ e₂ k) x (fun _ => Twins e₁ e₂ m) (Twins e₁ e₂ 0)

section Twins

variable {e₁ e₂ : List Event} {k m n : ℕ} {s t : Machine} {α β : Type}

/-- Twins agree below any smaller index. -/
theorem Twins.mono (h : Twins e₁ e₂ k s t) (hmk : m ≤ k) : Twins e₁ e₂ m s t :=
  ⟨h.system, h.pac, fun i hi => h.buffer i (Nat.lt_of_lt_of_le hi hmk), h.log⟩

/-- Twins whose logs grow by events that send the same bytes. -/
theorem Twins.grow {s' t' : Machine} (h : Twins e₁ e₂ k s t) (es₁ es₂ : List Event)
    (hsent : txBytes es₁ = txBytes es₂) (hsystem : SameSystem s' t') (hpac : s'.pac = t'.pac)
    (hbuffer : ∀ i < m, s'.blBuffer i = t'.blBuffer i) (hs : s'.trace = s.trace ++ es₁)
    (ht : t'.trace = t.trace ++ es₂) : Twins e₁ e₂ m s' t' := by
  obtain ⟨es₁', es₂', hs₀, ht₀, hsent₀⟩ := h.log
  exact ⟨hsystem, hpac, hbuffer, es₁' ++ es₁, es₂' ++ es₂, by rw [hs, hs₀, List.append_assoc],
    by rw [ht, ht₀, List.append_assoc], by rw [txBytes_append, txBytes_append, hsent₀, hsent]⟩

/-- Twins read the same word from the bytes they share. -/
theorem leWord_twins (h : Twins e₁ e₂ k s t) {i : ℕ} (hi : i + 4 ≤ k) :
    leWord s.blBuffer i = leWord t.blBuffer i :=
  leWord_congr fun j hj => h.buffer (i + j) (by omega)

/-- A result alone tells nothing. -/
theorem Alike.pure (a : α) : Alike k k (pure a : Prog α) :=
  fun _ _ => .pure fun _ _ hst => hst

/-- A return after which the buffer is not looked at. -/
theorem Alike.leave (a : α) : Alike k 0 (Pure.pure a : Prog α) :=
  fun _ _ => .pure fun _ _ hst => hst.mono (Nat.zero_le k)

/-- One program after the other. -/
theorem Alike.bind {x : Prog α} {f : α → Prog β} (hx : Alike k m x) (hf : ∀ a, Alike m n (f a)) :
    Alike k n (x >>= f) :=
  fun e₁ e₂ => (hx e₁ e₂).bind fun a => hf a e₁ e₂

/-- A branch on a condition both machines see. -/
theorem Alike.ite {c : Prop} [Decidable c] {x y : Prog α} (hx : c → Alike k m x)
    (hy : ¬ c → Alike k m y) : Alike k m (if c then x else y) :=
  fun e₁ e₂ => .ite (fun h => hx h e₁ e₂) (fun h => hy h e₁ e₂)

/-- A program that looks at the state does the same on twins if what it goes on with does
not depend on which of them it saw. -/
theorem coupled_get {g : Machine → Prog α} {S : α → Machine → Machine → Prop}
    {E : Machine → Machine → Prop} (hcongr : ∀ s t, Twins e₁ e₂ k s t → g s = g t)
    (hg : ∀ s, Coupled (Twins e₁ e₂ k) (g s) S E) : Coupled (Twins e₁ e₂ k) (get >>= g) S E := by
  intro s t h
  rw [bind_of_ok (get_apply s), bind_of_ok (get_apply t), hcongr s t h]
  exact hg t s t h

/-- A program that takes from the machine only what twins have in common. -/
theorem Alike.get {g : Machine → Prog α}
    (hcongr : ∀ e₁ e₂ s t, Twins e₁ e₂ k s t → g s = g t) (hg : ∀ s, Alike k m (g s)) :
    Alike k m (get >>= g) :=
  fun e₁ e₂ => coupled_get (hcongr e₁ e₂) fun s => hg s e₁ e₂

/-- A change of the state that reads no buffer and keeps the log. -/
theorem Alike.modify {f : Machine → Machine}
    (h : ∀ e₁ e₂ s t, Twins e₁ e₂ k s t → SameSystem (f s) (f t) ∧ (f s).pac = (f t).pac ∧
      (∀ i < m, (f s).blBuffer i = (f t).blBuffer i) ∧ (f s).trace = s.trace ∧
      (f t).trace = t.trace) : Alike k m (modify f : Prog PUnit) :=
  fun e₁ e₂ => .modify fun s t hst => by
    obtain ⟨hsystem, hpac, hbuffer, hs, ht⟩ := h e₁ e₂ s t hst
    exact hst.grow [] [] rfl hsystem hpac hbuffer (by rw [hs, List.append_nil])
      (by rw [ht, List.append_nil])

end Twins

/-! ### The drivers on twins -/

section Drivers

variable {k : ℕ}

/-- An ISP command, with what its driver function leaves in the two FMC registers. -/
theorem Twins.afterIsp {e₁ e₂ : List Event} {s t : Machine} (h : Twins e₁ e₂ k s t)
    (c : IspCommand) {dat₁ dat₂ : UInt32} (hdat : dat₁ = dat₂) (err : Int32) :
    Twins e₁ e₂ k { s.afterIsp c with ispDat := dat₁, fmcErrCode := err }
      { t.afterIsp c with ispDat := dat₂, fmcErrCode := err } := by
  have hv : s.verdicts.isp 0 c = t.verdicts.isp 0 c := by rw [h.system.verdicts]
  refine h.grow [.isp c (s.verdicts.isp 0 c)] [.isp c (t.verdicts.isp 0 c)] rfl ⟨?_, hdat, rfl,
    h.system.lfs, h.system.bootLEDOn, h.system.window, ?_⟩ h.pac h.buffer rfl rfl
  · simp only [Machine.afterIsp, h.system.flash, hv]
  · simp only [Machine.afterIsp, h.system.verdicts]

/-- Writing a word of the flash does not look at the buffer. -/
theorem fmcWrite_alike (addr data : UInt32) : Alike k k (fmcWrite addr data) := by
  intro e₁ e₂ s t h
  rw [fmcWrite_apply, fmcWrite_apply, Machine.afterFmcWrite, Machine.afterFmcWrite,
    h.system.verdicts]
  exact ⟨rfl, h.afterIsp _ rfl _⟩

/-- Erasing a block does not look at the buffer. -/
theorem fmcEraseBlock_alike (addr : UInt32) : Alike k k (fmcEraseBlock addr) := by
  intro e₁ e₂ s t h
  rw [fmcEraseBlock_apply, fmcEraseBlock_apply, Machine.afterFmcErase, Machine.afterFmcErase,
    h.system.verdicts]
  exact ⟨rfl, h.afterIsp _ h.system.ispDat _⟩

/-- Reading a word of the flash does not look at the buffer. -/
theorem fmcRead_alike (addr : UInt32) : Alike k k (fmcRead addr) := by
  intro e₁ e₂ s t h
  rw [fmcRead_apply, fmcRead_apply, Machine.afterFmcRead, Machine.afterFmcRead,
    h.system.verdicts, h.system.flash, h.system.ispDat]
  exact ⟨rfl, h.afterIsp _ rfl _⟩

/-- The word loop is given the bytes it writes. -/
theorem writeWords_alike (buf : ℕ → UInt8) (n : ℕ) (addr : UInt32) (i : ℕ) :
    Alike k k (writeWords buf n addr i) := by
  induction n generalizing addr i with
  | zero => exact .pure _
  | succ n ih =>
      exact .bind (fmcWrite_alike _ _) fun _ => .ite (fun _ => .pure _) (fun _ => ih _ _)

/-- The loop of `flash_write_app_page` depends on the bytes it programs only. -/
theorem writeWords_congr {b₁ b₂ : ℕ → UInt8} {n : ℕ} (addr : UInt32) {i : ℕ}
    (h : ∀ j < 4 * n, b₁ (i + j) = b₂ (i + j)) :
    writeWords b₁ n addr i = writeWords b₂ n addr i := by
  induction n generalizing addr i with
  | zero => rfl
  | succ n ih =>
      rw [writeWords, writeWords, leWord_congr fun j hj => h j (by omega),
        ih (addr + 4) fun j hj => by rw [Nat.add_assoc, h (4 + j) (by omega)]]

/-- The erase loop does not look at the buffer. -/
theorem eraseBlocks_alike (n : ℕ) (addr : UInt32) (res : UInt8) :
    Alike k k (eraseBlocks n addr res) := by
  induction n generalizing addr res with
  | zero => exact .pure _
  | succ n ih =>
      exact .ite (fun _ => .bind (fmcEraseBlock_alike _) fun _ => ih _ _) (fun _ => .pure _)

/-- A byte stored is the same in both buffers. -/
theorem storeBuffer_alike (i : ℕ) (b : UInt8) : Alike k k (storeBuffer i b) := by
  refine .ite (fun _ => .modify fun _ _ s t h => ⟨?_, h.pac, fun j hj => ?_, rfl, rfl⟩)
    fun _ _ _ _ _ h => ⟨rfl, h.mono (Nat.zero_le k)⟩
  · exact ⟨h.system.flash, h.system.ispDat, h.system.fmcErrCode, h.system.lfs, h.system.bootLEDOn,
      h.system.window, h.system.verdicts⟩
  · simp only [Function.update_apply, h.buffer j hj]

/-- A store where the agreement ends extends it. -/
theorem storeBuffer_extends (b : UInt8) : Alike k (k + 1) (storeBuffer k b) := by
  refine .ite (fun _ => .modify fun _ _ s t h => ⟨?_, h.pac, fun j hj => ?_, rfl, rfl⟩)
    fun _ _ _ _ _ h => ⟨rfl, h.mono (Nat.zero_le k)⟩
  · exact ⟨h.system.flash, h.system.ispDat, h.system.fmcErrCode, h.system.lfs, h.system.bootLEDOn,
      h.system.window, h.system.verdicts⟩
  · rcases Nat.lt_succ_iff_lt_or_eq.mp hj with hlt | rfl
    · simp only [Function.update_apply, h.buffer j hlt]
    · simp only [Function.update_self]

/-- Bytes stored are the same in both buffers. -/
theorem storeBytes_alike (i : ℕ) (bytes : List UInt8) : Alike k k (storeBytes i bytes) := by
  induction bytes generalizing i with
  | nil => exact .pure _
  | cons b bytes ih => exact .bind (storeBuffer_alike i b) fun _ => ih _

/-- Clearing the buffer makes it agree. -/
theorem clearBuffer_alike : Alike k bufferSize clearBuffer :=
  .modify fun _ _ s t h => ⟨⟨h.system.flash, h.system.ispDat, h.system.fmcErrCode, h.system.lfs,
    h.system.bootLEDOn, h.system.window, h.system.verdicts⟩, h.pac,
    fun i hi => by simp only [zeroed, if_pos hi], rfl, rfl⟩

/-- `flash_read_app_page` fills the buffer alike, unless it fails. -/
theorem readWords_extends (e₁ e₂ : List Event) (base n : ℕ) (addr : UInt32) (i : ℕ) :
    Coupled (Twins e₁ e₂ (base + i)) (readWords base n addr i)
      (fun r => Twins e₁ e₂ (if r = successed then base + i + 4 * n else 0)) (Twins e₁ e₂ 0) := by
  induction n generalizing addr i with
  | zero => exact .pure fun _ _ h => h
  | succ n ih =>
      refine .bind (fmcRead_alike addr e₁ e₂) fun _ => .bind (storeBuffer_extends _ e₁ e₂) fun _ =>
        .bind (storeBuffer_extends _ e₁ e₂) fun _ => .bind (storeBuffer_extends _ e₁ e₂) fun _ =>
          .bind (storeBuffer_extends _ e₁ e₂) fun _ => ?_
      refine coupled_get (fun s t h => by simp only [h.system.fmcErrCode]) fun s => .ite
        (fun _ => .pure fun _ _ h => h.mono (Nat.zero_le _)) fun _ => (ih (addr + 4) (i + 4)).conseq
          (fun _ _ h => h) fun r _ _ h => ?_
      have hend : base + (i + 4) + 4 * n = base + i + 4 * (n + 1) := by omega
      rwa [hend] at h

/-- LittleFS calls do not look at the buffer. -/
theorem lfsInvoke_alike {ρ : Type} (c : LfsCall) (act : Lfs → LfsVerdict → ρ × Lfs)
    (ret : ρ → ℤ) : Alike k k (lfsInvoke c act ret) := by
  intro e₁ e₂ s t h
  have hvolume : s.volume = t.volume := by
    rw [Machine.volume, Machine.volume, h.system.lfs, h.system.verdicts]
  cases hc : c.asserts s.lfs with
  | true =>
      rw [lfsInvoke_apply act ret hc, lfsInvoke_apply act ret (by rw [← h.system.lfs, hc])]
      refine ⟨by rw [hvolume], h.grow [.lfs c s.lfs _ (s.prints 0 c)]
        [.lfs c t.lfs _ (t.prints 0 c)] rfl ?_ h.pac h.buffer rfl rfl⟩
      simp only [Machine.afterCall, hvolume]
      exact ⟨h.system.flash, h.system.ispDat, h.system.fmcErrCode, rfl, h.system.bootLEDOn,
        h.system.window, by simp only [h.system.verdicts]⟩
  | false =>
      rw [lfsInvoke_assert act ret hc, lfsInvoke_assert act ret (by rw [← h.system.lfs, hc])]
      refine ⟨rfl, h.grow [.lfs c s.lfs none (s.prints 0 c)] [.lfs c t.lfs none (t.prints 0 c)] rfl
        ?_ h.pac (by simp) rfl rfl⟩
      exact ⟨h.system.flash, h.system.ispDat, h.system.fmcErrCode, h.system.lfs,
        h.system.bootLEDOn, h.system.window, h.system.verdicts⟩

/-- File reads do not look at the buffer. -/
theorem lfsFileRead_alike (size : ℕ) : Alike k k (lfsFileRead size) :=
  .bind (lfsInvoke_alike _ _ _) fun _ => .bind (storeBytes_alike _ _) fun _ => .pure _

/-- The mount sequence does not look at the buffer. -/
theorem mountOrFormat_alike : Alike k k mountOrFormat :=
  .bind (lfsInvoke_alike _ _ _) fun _ => .ite
    (fun _ => .bind (lfsInvoke_alike _ _ _) fun _ => .bind (lfsInvoke_alike _ _ _) fun _ => .pure _)
    (fun _ => .pure _)

/-- Opening the update window does not look at the buffer. -/
theorem apromUpdateEnable_alike : Alike k k apromUpdateEnable :=
  .modify fun _ _ _ _ h => ⟨⟨h.system.flash, h.system.ispDat, h.system.fmcErrCode, h.system.lfs,
    h.system.bootLEDOn, rfl, h.system.verdicts⟩, h.pac, h.buffer, rfl, rfl⟩

/-- Switching the LED does not look at the buffer. -/
theorem setLED_alike (on : Bool) :
    Alike k k (modify fun s => { s with bootLEDOn := on } : Prog PUnit) :=
  .modify fun _ _ _ _ h => ⟨⟨h.system.flash, h.system.ispDat, h.system.fmcErrCode, h.system.lfs,
    rfl, h.system.window, h.system.verdicts⟩, h.pac, h.buffer, rfl, rfl⟩

/-- The record in a buffer that agrees is the same record. -/
theorem programRecord_alike : Alike bufferSize bufferSize programRecord := by
  refine .get (fun e₁ e₂ s t h => ?_) fun s => writeWords_alike _ _ _ _
  rw [flashWriteAppPage, leWord_twins h (by decide)]
  exact writeWords_congr _ fun j hj => h.buffer _ (by
    simp only [blFlashPacsize, bufferSize] at hj ⊢
    omega)

/-- The last record of a boot may show the whole buffer. -/
theorem bootTail_alike (fsize : ℤ) : Alike bufferSize 0 (bootTail fsize) := by
  have hfinish : Alike bufferSize 0 (do
      let _ ← lfsFileClose
      let _ ← lfsUnmount
      apromUpdateEnable
      bootLEDOff
      pure successed : Prog UInt8) :=
    .bind (lfsInvoke_alike _ _ _) fun _ => .bind (lfsInvoke_alike _ _ _) fun _ =>
      .bind apromUpdateEnable_alike fun _ => .bind (setLED_alike false) fun _ => .leave _
  exact .ite
    (fun _ => .bind clearBuffer_alike fun _ => .bind (lfsFileRead_alike _) fun _ =>
      .bind programRecord_alike fun _ => .ite (fun _ => .leave _) (fun _ => hfinish))
    (fun _ => hfinish)

/-- The records of a boot may show the whole buffer. -/
theorem bootRecords_alike (n : ℕ) (fsize : ℤ) : Alike bufferSize 0 (bootRecords n fsize) := by
  induction n generalizing fsize with
  | zero => exact bootTail_alike fsize
  | succ n ih =>
      rw [bootRecords]
      refine Alike.ite (fun _ => ?_) fun _ => bootTail_alike fsize
      refine .bind (lfsFileRead_alike _) fun _ => .bind programRecord_alike fun ret => ?_
      exact Alike.ite (fun _ => .leave _) fun _ => ih _

/-- `boot_from_fs` clears the buffer before it looks at it. -/
theorem bootFromFs_alike : Alike k 0 bootFromFs :=
  .bind (setLED_alike true) fun _ => .bind apromUpdateEnable_alike fun _ =>
    .bind (eraseBlocks_alike _ _ _) fun _ => .ite (fun _ => .leave _) fun _ =>
      .bind clearBuffer_alike fun _ => .bind mountOrFormat_alike fun _ =>
        .bind (lfsInvoke_alike _ _ _) fun _ => .bind (lfsInvoke_alike _ _ _) fun _ =>
          bootRecords_alike _ _

end Drivers

/-! ### The handlers on twins -/

section Handlers

variable {e₁ e₂ : List Event} {k : ℕ} {s t : Machine}

/-- The same reply. -/
theorem Twins.replied (h : Twins e₁ e₂ k s t) (f : Frame) :
    Twins e₁ e₂ 0 (s.replied f) (t.replied f) :=
  h.grow ((encode f).map .tx) ((encode f).map .tx) rfl ⟨h.system.flash, h.system.ispDat,
    h.system.fmcErrCode, h.system.lfs, h.system.bootLEDOn, h.system.window, h.system.verdicts⟩ rfl
    (by simp) rfl rfl

/-- A program that puts together and sends a reply that twins agree on. -/
theorem Alike.of_replied {x : Prog Unit} {reply : Machine → Frame}
    (hx : ∀ s, x s = .ok () (s.replied (reply s)))
    (h : ∀ e₁ e₂ s t, Twins e₁ e₂ k s t → reply s = reply t) : Alike k 0 x := by
  intro e₁ e₂ s t hst
  rw [hx, hx, h e₁ e₂ s t hst]
  exact ⟨rfl, hst.replied _⟩

/-- A status reply is the same whatever the buffer holds. -/
theorem sendStatus_alike (status : UInt8) : Alike k 0 (sendStatus status) :=
  .of_replied (sendStatus_apply status) fun _ _ _ _ h => by rw [h.pac]

/-- A number is sent alike whatever the buffer holds. -/
theorem replyNumber_alike (number : UInt8) : Alike k 0 (replyNumber number) :=
  .of_replied (replyNumber_apply number) fun _ _ _ _ h => by rw [h.pac]

/-- `CMD_FLASH_GET_PGSZ` reads nothing of its frame. -/
theorem handleFlashGetPgsz_alike : Alike k 0 handleFlashGetPgsz :=
  .of_replied handleFlashGetPgsz_apply fun _ _ _ _ h => by rw [h.pac]

/-- `CMD_PROG_EXT_FLASH_BOOT` reads nothing of its frame. -/
theorem handleProgExtFlashBoot_alike : Alike k 0 handleProgExtFlashBoot :=
  .bind bootFromFs_alike fun _ => sendStatus_alike ack

/-- `CMD_FLASH_EARSE_ALL` reads nothing of its frame. -/
theorem handleFlashEraseAll_alike : Alike k 0 handleFlashEraseAll :=
  .bind (eraseBlocks_alike _ _ _) fun _ =>
    .ite (fun _ => sendStatus_alike nack) (fun _ => sendStatus_alike ack)

/-- `CMD_EXT_FLASH_HEX_FOPEN` reads nothing of its frame. -/
theorem handleExtFlashFopen_alike : Alike k 0 handleExtFlashFopen :=
  .bind mountOrFormat_alike fun _ => .bind (lfsInvoke_alike _ _ _) fun _ =>
    .bind (lfsInvoke_alike _ _ _) fun _ => sendStatus_alike ack

/-- `CMD_EXT_FLASH_HEX_FCLOSE` reads nothing of its frame. -/
theorem handleExtFlashFclose_alike : Alike k 0 handleExtFlashFclose :=
  .bind (lfsInvoke_alike _ _ _) fun _ => .bind (lfsInvoke_alike _ _ _) fun _ =>
    sendStatus_alike ack

/-- `CMD_EXT_FLASH_WRITE` reads the whole record. -/
theorem handleExtFlashWrite_alike : Alike bufferSize 0 handleExtFlashWrite := by
  refine .bind (lfsInvoke_alike _ _ _) fun _ => .get (fun e₁ e₂ s t h => ?_)
    fun _ => .bind (lfsInvoke_alike _ _ _) fun _ => sendStatus_alike ack
  have hslice : slice s.blBuffer 0 bufferSize = slice t.blBuffer 0 bufferSize :=
    slice_congr fun i hi => h.buffer (0 + i) (by omega)
  simp only [hslice]

/-- `CMD_FLASH_READ` reads the four address bytes. -/
theorem handleFlashRead_alike (hk : 4 ≤ k) : Alike k 0 handleFlashRead := by
  intro e₁ e₂
  refine coupled_get (fun s t h => by simp only [leWord_twins h hk]) fun s => ?_
  have hread := (readWords_extends e₁ e₂ 1 (blFlashPacsize / 4)
    (leWord s.blBuffer 0) 0).conseq (fun _ _ h => Twins.mono (k := k) h (by omega)) fun _ _ _ h => h
  refine hread.bind fun r => .ite (fun hr => ?_) (fun hr => ?_)
  · exact (sendStatus_alike nack e₁ e₂).conseq (fun _ _ h => h) fun _ _ _ h => h
  · have hr : r = successed := not_not.mp hr
    rw [if_pos hr]
    intro u v h
    have hpage : Frame.page u.pac.cmd u.blBuffer = Frame.page v.pac.cmd v.blBuffer := by
      rw [h.pac]
      exact Frame.page_congr fun i hi => h.buffer (1 + i) (by
        simp only [blFlashPacsize]
        omega)
    rw [sendPage_apply, sendPage_apply, hpage]
    exact ⟨rfl, h.replied _⟩

/-- A page size with a low byte other than zero is not the supported one. -/
theorem leHalf_ne_pgsz {b : ℕ → UInt8} (h : b 0 ≠ 0) : leHalf b 0 ≠ 512 := by
  intro heq
  have hvalue : (leHalf b 0).toNat = 512 := congrArg UInt16.toNat heq
  rw [leHalf_toNat] at hvalue
  have hlow := (b 0).toNat_lt
  have hzero : (b 0).toNat = 0 := by omega
  exact h (UInt8.toNat_inj.mp hzero)

/-- `CMD_FLASH_SET_PGSZ` depends on the verdict over the page size only. -/
theorem handleFlashSetPgsz_twins (h : Twins e₁ e₂ k s t)
    (hsize : flashSetPgsz (leHalf s.blBuffer 0) = flashSetPgsz (leHalf t.blBuffer 0)) :
    Agree (fun _ => Twins e₁ e₂ 0) (Twins e₁ e₂ 0) (handleFlashSetPgsz s)
      (handleFlashSetPgsz t) := by
  rw [handleFlashSetPgsz, bind_of_ok (get_apply s), bind_of_ok (get_apply t), hsize]
  exact Alike.ite (fun _ => sendStatus_alike nack) (fun _ => sendStatus_alike ack) e₁ e₂ s t h

/-- `CMD_FLASH_WRITE` depends on its address, and on the data only outside the bootloader. -/
theorem handleFlashWrite_twins (h : Twins e₁ e₂ k s t)
    (haddr : leWord s.blBuffer 0 = leWord t.blBuffer 0)
    (hdata : leWord s.blBuffer 0 ≤ bootloaderEnd ∨
      ∀ j < 512, s.blBuffer (4 + j) = t.blBuffer (4 + j)) :
    Agree (fun _ => Twins e₁ e₂ 0) (Twins e₁ e₂ 0) (handleFlashWrite s) (handleFlashWrite t) := by
  rw [handleFlashWrite, bind_of_ok (get_apply s), bind_of_ok (get_apply t), ← haddr]
  rcases hdata with hlow | hsame
  · rw [if_pos hlow, if_pos hlow]
    exact sendStatus_alike nack e₁ e₂ s t h
  · have hprog : flashWriteAppPage (leWord s.blBuffer 0) (fun i => s.blBuffer (4 + i)) =
        flashWriteAppPage (leWord s.blBuffer 0) fun i => t.blBuffer (4 + i) :=
      writeWords_congr _ fun j hj => hsame (0 + j) (by
        simp only [blFlashPacsize] at hj
        omega)
    rw [hprog]
    exact Alike.ite (fun _ => sendStatus_alike nack) (fun _ => .bind (writeWords_alike _ _ _ _)
      fun _ => .ite (fun _ => sendStatus_alike nack) (fun _ => sendStatus_alike ack)) e₁ e₂ s t h

end Handlers

/-! ### Covered frames -/

section Covered

variable {s t : Machine} {f : Frame} {r₁ r₂ : List UartPoll}

/-- Accepting the same frame makes twins of machines on the same system. -/
theorem SameSystem.accepted (h : SameSystem s t) (f : Frame) (r₁ r₂ : List UartPoll) :
    Twins (s.accepted f r₁).trace (t.accepted f r₂).trace f.data.length
      (s.accepted f r₁) (t.accepted f r₂) where
  system := ⟨h.flash, h.ispDat, h.fmcErrCode, h.lfs, h.bootLEDOn, h.window, h.verdicts⟩
  pac := rfl
  buffer i hi := (overlay_zero_apply hi).trans (overlay_zero_apply hi).symm
  log := ⟨[], [], by simp, by simp, rfl⟩

/-- The frame's bytes are at the front of the buffer. -/
theorem accepted_apply {i : ℕ} (hi : i < f.data.length) :
    (s.accepted f r₁).blBuffer i = f.data.getD i 0 := by
  rw [List.getD_eq_getElem?_getD, List.getElem?_eq_getElem hi]
  exact overlay_zero_apply hi

/-- A command loop's switch on twins that have accepted a frame covering its command. -/
theorem dispatch_twins (h : SameSystem s t) (hcov : Covered f) :
    Agree (fun _ => Twins (s.accepted f r₁).trace (t.accepted f r₂).trace 0)
      (Twins (s.accepted f r₁).trace (t.accepted f r₂).trace 0)
      (dispatch (.ofByte f.cmd) (s.accepted f r₁))
      (dispatch (.ofByte f.cmd) (t.accepted f r₂)) := by
  have htwins := h.accepted f r₁ r₂
  -- a handler that cannot tell the twins apart
  have hof {k : ℕ} {x : Prog Unit} {c : Control} (hx : Alike k 0 x) (hk : k ≤ f.data.length) :
      Agree (fun _ => Twins (s.accepted f r₁).trace (t.accepted f r₂).trace 0)
        (Twins (s.accepted f r₁).trace (t.accepted f r₂).trace 0)
        ((do x; pure c : Prog Control) (s.accepted f r₁))
        ((do x; pure c : Prog Control) (t.accepted f r₂)) :=
    (hx _ _ _ _ (htwins.mono hk)).bind fun _ _ _ hst => ⟨rfl, hst⟩
  cases hc : Command.ofByte f.cmd with
  | chkProtocol => exact hof (replyNumber_alike 1) (Nat.zero_le _)
  | chkDevice => exact hof (replyNumber_alike dNum487kmDevb) (Nat.zero_le _)
  | progEnd => exact hof (sendStatus_alike ack) (Nat.zero_le _)
  | progExtFlashBoot => exact hof handleProgExtFlashBoot_alike (Nat.zero_le _)
  | flashSetPgsz =>
      simp only [Covered, hc] at hcov
      refine (handleFlashSetPgsz_twins htwins ?_).bind fun _ _ _ hst => ⟨rfl, hst⟩
      rcases hcov with htwo | ⟨d, hd, hdata⟩
      · rw [leHalf, leHalf, htwins.buffer 0 (by omega), htwins.buffer 1 (by omega)]
      · have hone : 0 < f.data.length := by rw [hdata]; exact Nat.one_pos
        have hrejected (b : ℕ → UInt8) (hb : b 0 = d) : flashSetPgsz (leHalf b 0) = failed := by
          rw [flashSetPgsz, if_pos (leHalf_ne_pgsz (by rw [hb]; exact hd))]
        rw [hrejected _ (by rw [accepted_apply hone, hdata]; rfl),
          hrejected _ (by rw [accepted_apply hone, hdata]; rfl)]
  | flashGetPgsz => exact hof handleFlashGetPgsz_alike (Nat.zero_le _)
  | flashWrite =>
      simp only [Covered, hc] at hcov
      have hfour : 4 ≤ f.data.length := by
        rcases hcov with hall | ⟨hfour, -⟩
        · exact Nat.le_trans (by decide) hall
        · exact hfour
      refine (handleFlashWrite_twins htwins (leWord_twins htwins (by omega)) ?_).bind
        fun _ _ _ hst => ⟨rfl, hst⟩
      rcases hcov with hall | ⟨-, hlow⟩
      · exact .inr fun j hj => htwins.buffer (4 + j) (by simp only [bufferSize] at hall; omega)
      · have hword : leWord (s.accepted f r₁).blBuffer 0 = leWord (fun i => f.data.getD i 0) 0 :=
          leWord_congr fun j hj => accepted_apply (by omega)
        exact .inl (hword ▸ hlow)
  | flashRead =>
      simp only [Covered, hc] at hcov
      exact hof (handleFlashRead_alike hcov) (Nat.le_refl _)
  | flashVerify => exact hof (sendStatus_alike nack) (Nat.zero_le _)
  | flashEraseSector => exact hof (sendStatus_alike nack) (Nat.zero_le _)
  | flashEraseAll => exact hof handleFlashEraseAll_alike (Nat.zero_le _)
  | extFlashFopen => exact hof handleExtFlashFopen_alike (Nat.zero_le _)
  | extFlashFclose => exact hof handleExtFlashFclose_alike (Nat.zero_le _)
  | extFlashWrite =>
      simp only [Covered, hc] at hcov
      exact hof handleExtFlashWrite_alike hcov
  | unsupported => exact hof (sendStatus_alike nack) (Nat.zero_le _)
  | _ => exact ⟨rfl, htwins.mono (Nat.zero_le _)⟩

/-- What agreeing results of the switch mean for the pass. -/
theorem sameHandling_of_agree (hs : s.rx = (encode f).map .byte ++ r₁)
    (ht : t.rx = (encode f).map .byte ++ r₂)
    (h : Agree (fun _ => Twins (s.accepted f r₁).trace (t.accepted f r₂).trace 0)
      (Twins (s.accepted f r₁).trace (t.accepted f r₂).trace 0)
      (dispatch (.ofByte f.cmd) (s.accepted f r₁)) (dispatch (.ofByte f.cmd) (t.accepted f r₂))) :
    SameHandling s t := by
  rw [← commandPass_encode hs, ← commandPass_encode ht] at h
  have hsent {u v : Machine} {r : List UartPoll} {es : List Event}
      (hv : v.trace = (u.accepted f r).trace ++ es) :
      (txBytes v.trace).drop (txBytes u.trace).length = txBytes es := by
    rw [hv, txBytes_append, txBytes_accepted, List.drop_left]
  have hend : Twins (s.accepted f r₁).trace (t.accepted f r₂).trace 0
      (after (commandPass s)) (after (commandPass t)) ∧
      value? (commandPass s) = value? (commandPass t) := by
    cases hr₁ : commandPass s with
    | ok a u =>
        cases hr₂ : commandPass t with
        | ok b v =>
            rw [hr₁, hr₂] at h
            exact ⟨h.2, congrArg some h.1⟩
        | error e v => rw [hr₁, hr₂] at h; exact h.elim
    | error e u =>
        cases hr₂ : commandPass t with
        | ok b v => rw [hr₁, hr₂] at h; exact h.elim
        | error d v =>
            rw [hr₁, hr₂] at h
            exact ⟨h.2, rfl⟩
  obtain ⟨htwins, hvalue⟩ := hend
  obtain ⟨es₁, es₂, hes₁, hes₂, heq⟩ := htwins.log
  refine ⟨hvalue, ?_, htwins.system.flash, htwins.system.lfs⟩
  exact ((hsent hes₁).trans heq).trans (hsent hes₂).symm

/-- A frame that covers what its handler reads is handled independently of the leftovers. -/
theorem leakless_of_covered (hcov : Covered f) : Leakless f :=
  fun _ _ _ _ h hs ht => sameHandling_of_agree hs ht (dispatch_twins h hcov)

end Covered

/-! ### Frames that leave something uncovered -/

section Leftover

variable {f : Frame} {x : Prog Unit} {k : Control}

/-- A machine about to receive `f`, on the given system and with the given leftovers. -/
def Machine.leftover (f : Frame) (flash : Flash) (l : Lfs) (buf : ℕ → UInt8) : Machine :=
  { connected ((encode f).map .byte) l.disk flash with blBuffer := buf, lfs := l }

/-- What a handler does on leftovers. -/
theorem commandPass_leftover {flash fl : Flash} {l l' : Lfs} {buf : ℕ → UInt8} {g : Frame}
    {es : List Event} (hx : dispatch (.ofByte f.cmd) = do x; pure k)
    (h : Does x ((Machine.leftover f flash l buf).accepted f []) g fl l' es) :
    sentBy commandPass (.leftover f flash l buf) = encode g ∧
      (after (commandPass (.leftover f flash l buf))).flash = fl ∧
      (after (commandPass (.leftover f flash l buf))).lfs = l' := by
  let s := Machine.leftover f flash l buf
  have hrx : s.rx = (encode f).map .byte ++ [] := (List.append_nil _).symm
  obtain ⟨u, hrun, hquiet, hflash, hlfs, htrace⟩ := h
  have hpass : commandPass s = .ok k (u.replied g) := by
    rw [commandPass_encode hrx, hx, bind_of_ok hrun]
    rfl
  refine ⟨?_, by rw [hpass]; exact hflash, by rw [hpass]; exact hlfs⟩
  have hcalls : txBytes es = [] := by
    obtain ⟨es', htrace', hes'⟩ := hquiet.trace
    obtain rfl := List.append_cancel_left (htrace.symm.trans htrace')
    exact txBytes_of_isCall hes'
  have hsent : txBytes (u.replied g).trace = txBytes s.trace ++ encode g := by
    rw [Machine.txBytes_replied, htrace, txBytes_append, hcalls, List.append_nil, txBytes_accepted]
  rw [sentBy, hpass]
  exact (congrArg (List.drop _) hsent).trans List.drop_left

/-- A leakless frame is handled alike on all leftovers. -/
theorem Leakless.eq_of_does (h : Leakless f) (flash : Flash) (l : Lfs) (b₁ b₂ : ℕ → UInt8)
    {g₁ g₂ : Frame} {fl₁ fl₂ : Flash} {l₁ l₂ : Lfs} {es₁ es₂ : List Event}
    (hx : dispatch (.ofByte f.cmd) = do x; pure k)
    (h₁ : Does x ((Machine.leftover f flash l b₁).accepted f []) g₁ fl₁ l₁ es₁)
    (h₂ : Does x ((Machine.leftover f flash l b₂).accepted f []) g₂ fl₂ l₂ es₂) :
    g₁ = g₂ ∧ fl₁ = fl₂ ∧ l₁ = l₂ := by
  obtain ⟨hsent₁, hflash₁, hlfs₁⟩ := commandPass_leftover hx h₁
  obtain ⟨hsent₂, hflash₂, hlfs₂⟩ := commandPass_leftover hx h₂
  have hsame : SameHandling (.leftover f flash l b₁) (.leftover f flash l b₂) :=
    h _ _ [] [] ⟨rfl, rfl, rfl, rfl, rfl, rfl, rfl⟩ (List.append_nil _).symm
      (List.append_nil _).symm
  refine ⟨?_, by rw [← hflash₁, hsame.flash, hflash₂], by rw [← hlfs₁, hsame.lfs, hlfs₂]⟩
  exact encode_injective (by rw [← hsent₁, hsame.replies, hsent₂])

/-- The buffer after accepting `f` on leftovers. -/
theorem blBuffer_leftover (f : Frame) (flash : Flash) (l : Lfs) (buf : ℕ → UInt8) :
    ((Machine.leftover f flash l buf).accepted f []).blBuffer = overlay buf 0 f.data := rfl

/-- Without its second byte the page size is a matter of leftovers. -/
theorem flashSetPgsz_leaks (hc : Command.ofByte f.cmd = .flashSetPgsz)
    (hdata : f.data = [] ∨ f.data = [0]) : ¬ Leakless f := by
  intro h
  have hx : dispatch (.ofByte f.cmd) = (do handleFlashSetPgsz; pure .again) := by rw [hc]; rfl
  have hsame := (h.eq_of_does .blank ⟨.unformatted, false, none⟩ (fun i => if i = 1 then 2 else 0)
    (fun _ => 0) hx (handleFlashSetPgsz_does _) (handleFlashSetPgsz_does _)).1
  rw [blBuffer_leftover, blBuffer_leftover] at hsame
  have hstatus := (List.cons.inj (congrArg Frame.data hsame)).1
  rcases hdata with hdata | hdata
  · rw [hdata] at hstatus
    exact absurd hstatus (by decide)
  · rw [hdata] at hstatus
    exact absurd hstatus (by decide)

/-- Without its fourth byte the address of a page is a matter of leftovers. -/
theorem flashWrite_leaks_address (hc : Command.ofByte f.cmd = .flashWrite)
    (hshort : f.data.length < 4) : ¬ Leakless f := by
  intro h
  have hx : dispatch (.ofByte f.cmd) = (do handleFlashWrite; pure .again) := by rw [hc]; rfl
  let buf (top : UInt8) : ℕ → UInt8 := overlay (fun i => if i = 3 then top else 0) 0 f.data
  have htop (top : UInt8) : buf top 3 = top := overlay_apply_of_le (by omega)
  have hlow (j : ℕ) (hj : j ≠ 3) : buf 1 j = buf 2 j := by simp [buf, overlay, hj]
  have hzero (j : ℕ) : buf 1 (4 + j) = 0 :=
    (overlay_apply_of_le (by omega)).trans (if_neg (by omega))
  -- the two addresses are 16 MiB apart
  have h₁ : (1 : UInt8).toNat = 1 := rfl
  have h₂ : (2 : UInt8).toNat = 2 := rfl
  have haddr₁ : 16777216 ≤ (leWord (buf 1) 0).toNat := by
    simp only [leWord_toNat, Nat.zero_add, htop]
    omega
  have haddr₂ : (leWord (buf 2) 0).toNat = (leWord (buf 1) 0).toNat + 16777216 := by
    simp only [leWord_toNat, Nat.zero_add, htop, hlow 0 (by decide), hlow 1 (by decide),
      hlow 2 (by decide)]
    omega
  have hbound : (leWord (buf 2) 0).toNat < 50331648 := by
    have := (buf 2 0).toNat_lt
    have := (buf 2 1).toNat_lt
    have := (buf 2 2).toNat_lt
    simp only [leWord_toNat, Nat.zero_add, htop]
    omega
  have hguard {a : UInt32} (ha : 16777216 ≤ a.toNat) : ¬ a ≤ bootloaderEnd := by
    rw [UInt32.le_iff_toNat_le, toNat_bootloaderEnd]
    omega
  let s (top : UInt8) := Machine.leftover f .blank ⟨.unformatted, false, none⟩
    fun i => if i = 3 then top else 0
  obtain ⟨es₁, hdoes₁⟩ := handleFlashWrite_does (s := (s 1).accepted f []) rfl (hguard haddr₁)
  obtain ⟨es₂, hdoes₂⟩ := handleFlashWrite_does (s := (s 2).accepted f []) rfl (hguard (by
    show 16777216 ≤ (leWord (buf 2) 0).toNat
    omega))
  have hburn := congrFun (h.eq_of_does _ _ _ _ hx hdoes₁ hdoes₂).2.1 (wordAt (leWord (buf 1) 0) 0)
  have hword : leWord (fun i => buf 1 (4 + i)) (0 + 4 * 0) = 0 := leWord_eq_zero fun _ _ => hzero _
  have hleft : Flash.burn .blank (fun i => buf 1 (4 + i)) 128 (leWord (buf 1) 0) 0
      (wordAt (leWord (buf 1) 0) 0) = 0 := by
    rw [Flash.burn_wordAt _ (by decide) (by decide), hword, UInt32.and_zero]
  have hright : Flash.burn .blank (fun i => buf 2 (4 + i)) 128 (leWord (buf 2) 0) 0
      (wordAt (leWord (buf 1) 0) 0) = 0xFFFFFFFF :=
    Flash.burn_of_ne _ fun k hk => by
      simp only [wordAt]
      omega
  exact absurd (hleft.symm.trans (hburn.trans hright)) (by decide)

/-- The bytes of a page that the frame does not carry are leftovers. -/
theorem flashWrite_leaks_data (hc : Command.ofByte f.cmd = .flashWrite)
    (hfour : 4 ≤ f.data.length) (hshort : f.data.length < bufferSize)
    (hhigh : ¬ leWord (fun i => f.data.getD i 0) 0 ≤ bootloaderEnd) : ¬ Leakless f := by
  intro h
  have hx : dispatch (.ofByte f.cmd) = (do handleFlashWrite; pure .again) := by rw [hc]; rfl
  let addr := leWord (fun i => f.data.getD i 0) 0
  let buf (stale : UInt8) : ℕ → UInt8 := overlay (fun _ => stale) 0 f.data
  let s (stale : UInt8) :=
    (Machine.leftover f .blank ⟨.unformatted, false, none⟩ fun _ => stale).accepted f []
  have haddr (stale : UInt8) : leWord (s stale).blBuffer 0 = addr :=
    leWord_congr fun j hj => accepted_apply (by omega)
  obtain ⟨es₁, hdoes₁⟩ := handleFlashWrite_does (s := s 0) rfl (by rw [haddr]; exact hhigh)
  obtain ⟨es₂, hdoes₂⟩ := handleFlashWrite_does (s := s 255) rfl (by rw [haddr]; exact hhigh)
  rw [haddr] at hdoes₁ hdoes₂
  have hburn := congrFun (h.eq_of_does _ _ _ _ hx hdoes₁ hdoes₂).2.1 (wordAt addr 127)
  -- the last word ends with byte 515 of the buffer
  have hlast (stale : UInt8) : (s stale).flash.burn (fun i => (s stale).blBuffer (4 + i)) 128 addr 0
      (wordAt addr 127) = leWord (fun i => buf stale (4 + i)) 508 := by
    rw [Flash.burn_wordAt _ (by decide) (by decide)]
    exact blank_and (wordAt addr 127) _
  have htop (stale : UInt8) : buf stale 515 = stale :=
    overlay_apply_of_le (by simp only [bufferSize] at hshort; omega)
  rw [hlast, hlast] at hburn
  have hvalue := congrArg UInt32.toNat hburn
  have h₀ : (0 : UInt8).toNat = 0 := rfl
  have h₁ : (255 : UInt8).toNat = 255 := rfl
  have hb₀ := (buf 0 512).toNat_lt
  have hb₁ := (buf 0 513).toNat_lt
  have hb₂ := (buf 0 514).toNat_lt
  simp only [leWord_toNat, Nat.reduceAdd, htop] at hvalue
  omega

/-- Without its fourth byte the address read from is a matter of leftovers. -/
theorem flashRead_leaks (hc : Command.ofByte f.cmd = .flashRead) (hshort : f.data.length < 4) :
    ¬ Leakless f := by
  intro h
  have hx : dispatch (.ofByte f.cmd) = (do handleFlashRead; pure .again) := by rw [hc]; rfl
  -- the first 16 MiB hold zeros, the rest ones
  let flash : Flash := fun w => if w < 4194304 then 0 else 1
  let buf (top : UInt8) : ℕ → UInt8 := overlay (fun i => if i = 3 then top else 0) 0 f.data
  let s (top : UInt8) := (Machine.leftover f flash ⟨.unformatted, false, none⟩
    fun i => if i = 3 then top else 0).accepted f []
  obtain ⟨es₁, hdoes₁⟩ := handleFlashRead_does (s := s 0) rfl
  obtain ⟨es₂, hdoes₂⟩ := handleFlashRead_does (s := s 1) rfl
  have hpage := congrArg Frame.data (h.eq_of_does _ _ _ _ hx hdoes₁ hdoes₂).1
  have hread (top : UInt8) : slice (overlay (s top).blBuffer 1
      (flash.readOut 128 (leWord (s top).blBuffer 0))) 1 512 =
      flash.readOut 128 (leWord (buf top) 0) := by
    have := slice_overlay (s top).blBuffer 1 (flash.readOut 128 (leWord (buf top) 0))
    rwa [Flash.length_readOut] at this
  have hsame : flash.readOut 128 (leWord (buf 0) 0) = flash.readOut 128 (leWord (buf 1) 0) := by
    rw [← hread, ← hread]
    exact (List.cons.inj hpage).2
  have hfirst := (List.cons.inj hsame).1
  have htop (top : UInt8) : buf top 3 = top := overlay_apply_of_le (by omega)
  have h₀ : (0 : UInt8).toNat = 0 := rfl
  have h₁ : (1 : UInt8).toNat = 1 := rfl
  have hb₀ := (buf 0 0).toNat_lt
  have hb₁ := (buf 0 1).toNat_lt
  have hb₂ := (buf 0 2).toNat_lt
  have hlow : (leWord (buf 0) 0).toNat / 4 < 4194304 := by
    simp only [leWord_toNat, Nat.zero_add, htop]
    omega
  have hhigh : ¬ (leWord (buf 1) 0).toNat / 4 < 4194304 := by
    simp only [leWord_toNat, Nat.zero_add, htop]
    omega
  simp only [flash, if_pos hlow, if_neg hhigh] at hfirst
  exact absurd hfirst (by decide)

/-- The bytes of a record that the frame does not carry are leftovers. -/
theorem extFlashWrite_leaks (hc : Command.ofByte f.cmd = .extFlashWrite)
    (hshort : f.data.length < bufferSize) : ¬ Leakless f := by
  intro h
  have hx : dispatch (.ofByte f.cmd) = (do handleExtFlashWrite; pure .again) := by rw [hc]; rfl
  let file : LfsFile := ⟨bootWriteFlags, 0, .empty, false, false⟩
  let s (stale : UInt8) := (Machine.leftover f .blank ⟨.formatted (some .empty), true, some file⟩
    fun _ => stale).accepted f []
  have hdoes (stale : UInt8) := handleExtFlashWrite_does (s := s stale) (f := file) rfl rfl rfl
  have hlfs := (h.eq_of_does _ _ _ _ hx (hdoes 0) (hdoes 255)).2.2
  have hfile := congrArg (·.content.1) (Option.some.inj (congrArg Lfs.file hlfs))
  have hwrite (stale : UInt8) :
      ({ file with pos := 0 }.write (slice (s stale).blBuffer 0 bufferSize)).2.content.1 =
        slice (s stale).blBuffer 0 bufferSize := by
    have hfits : (file.content.1 ++ slice (s stale).blBuffer 0 bufferSize).length ≤ lfsFileMax := by
      rw [List.length_append, length_slice]
      decide
    rw [LfsFile.write_append rfl (Nat.le_refl _), dif_pos hfits]
    exact List.nil_append _
  have hsame : slice (s 0).blBuffer 0 bufferSize = slice (s 255).blBuffer 0 bufferSize := by
    rwa [hwrite, hwrite] at hfile
  have hlast : 515 < bufferSize := by decide
  have htop (stale : UInt8) : (s stale).blBuffer 515 = stale := by
    have hend : 0 + f.data.length ≤ 515 := by
      simp only [bufferSize] at hshort
      omega
    exact overlay_apply_of_le hend
  have hbyte := slice_eq_iff.mp hsame _ hlast
  rw [Nat.zero_add, htop, htop] at hbyte
  exact absurd hbyte (by decide)

end Leftover

/-- **Leakage of stale bytes.** Handling an accepted frame is the same on every leftover
content of the packet buffer (same outcome, same reply bytes, same internal flash and same
file system, for any two machines that agree on the system) if and only if the frame covers
what its handler reads. -/
theorem leakless_iff_covered (f : Frame) : Leakless f ↔ Covered f := by
  refine ⟨fun h => ?_, leakless_of_covered⟩
  by_contra hcov
  cases hc : Command.ofByte f.cmd with
  | flashSetPgsz =>
      simp only [Covered, hc, not_or, not_exists, not_and] at hcov
      refine flashSetPgsz_leaks hc ?_ h
      match hdata : f.data with
      | [] => exact .inl rfl
      | [d] => exact .inr (by rw [not_not.mp (mt (hcov.2 d) (not_not.mpr hdata))])
      | _ :: _ :: _ => exact absurd (by simp [hdata]) hcov.1
  | flashWrite =>
      simp only [Covered, hc, not_or, not_and, Nat.not_le] at hcov
      rcases Nat.lt_or_ge f.data.length 4 with hshort | hfour
      · exact flashWrite_leaks_address hc hshort h
      · exact flashWrite_leaks_data hc hfour hcov.1 (hcov.2 hfour) h
  | flashRead =>
      simp only [Covered, hc, Nat.not_le] at hcov
      exact flashRead_leaks hc hcov h
  | extFlashWrite =>
      simp only [Covered, hc, Nat.not_le] at hcov
      exact extFlashWrite_leaks hc hcov h
  | _ => simp only [Covered, hc, not_true_eq_false] at hcov

/-- A frame that carries a page size with the low byte 0. -/
def pageSizeFrame (high : UInt8) : Frame := ⟨cmdFlashSetPgsz, [0, high], by simp [bufferSize]⟩

/-- The machine that has handled such a frame, and is about to receive the same command
without data. -/
def afterPageSize (high : UInt8) : Machine :=
  after (commandPass (.connected
    ((encode (pageSizeFrame high) ++ encode (.request cmdFlashSetPgsz)).map .byte)
    .unformatted .blank))

/-- The machine after the page size is one that has replied, with the second request on the line. -/
theorem afterPageSize_eq (high : UInt8) :
    ∃ (s : Machine) (g : Frame), afterPageSize high = s.replied g ∧
      s.rx = (encode (.request cmdFlashSetPgsz)).map .byte ∧
      SameSystem s (.connected [] .unformatted .blank) := by
  let s := Machine.connected
    ((encode (pageSizeFrame high) ++ encode (.request cmdFlashSetPgsz)).map .byte)
    .unformatted .blank
  let t := s.accepted (pageSizeFrame high) ((encode (.request cmdFlashSetPgsz)).map .byte)
  refine ⟨t, .reply t.pac.cmd [if flashSetPgsz (leHalf t.blBuffer 0) ≠ 0 then nack else ack], ?_,
    rfl, ⟨rfl, rfl, rfl, rfl, rfl, rfl, rfl⟩⟩
  have hpass : commandPass s = dispatch (.ofByte (pageSizeFrame high).cmd) t :=
    commandPass_encode List.map_append
  have hcommand : Command.ofByte (pageSizeFrame high).cmd = .flashSetPgsz := rfl
  rw [hcommand] at hpass
  exact congrArg after (hpass.trans (bind_of_ok (handleFlashSetPgsz_apply t)))

/-- After a supported page size an empty `CMD_FLASH_SET_PGSZ` is acknowledged, after an
unsupported one it is not. -/
theorem pageSize_leftover :
    SameSystem (afterPageSize 2) (afterPageSize 0) ∧ (afterPageSize 2).rx = (afterPageSize 0).rx ∧
      ¬ Leakless (.request cmdFlashSetPgsz) := by
  obtain ⟨s, g₁, hs, hsrx, hsame₁⟩ := afterPageSize_eq 2
  obtain ⟨t, g₂, ht, htrx, hsame₂⟩ := afterPageSize_eq 0
  have hsystem : SameSystem (afterPageSize 2) (afterPageSize 0) := by
    rw [hs, ht]
    exact ⟨hsame₁.flash.trans hsame₂.flash.symm, hsame₁.ispDat.trans hsame₂.ispDat.symm,
      hsame₁.fmcErrCode.trans hsame₂.fmcErrCode.symm, hsame₁.lfs.trans hsame₂.lfs.symm,
      hsame₁.bootLEDOn.trans hsame₂.bootLEDOn.symm, hsame₁.window.trans hsame₂.window.symm,
      hsame₁.verdicts.trans hsame₂.verdicts.symm⟩
  have hrx₁ : (afterPageSize 2).rx = (encode (.request cmdFlashSetPgsz)).map .byte ++ [] := by
    rw [hs, List.append_nil]
    exact hsrx
  have hrx₂ : (afterPageSize 0).rx = (encode (.request cmdFlashSetPgsz)).map .byte ++ [] := by
    rw [ht, List.append_nil]
    exact htrx
  refine ⟨hsystem, hrx₁.trans hrx₂.symm, fun h => ?_⟩
  have hreplies := (h _ _ [] [] hsystem hrx₁ hrx₂).replies
  exact absurd hreplies (by decide +kernel)

end Num487Boot
