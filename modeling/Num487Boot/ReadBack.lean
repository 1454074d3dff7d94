import Num487Boot.ProgrammingPaths

/-!
# Reading Back What Was Written

The internal flash as a memory of bytes. Programming a word-aligned record merges its 512
bytes into that memory, a page read is a slice of it; so what a session of page writes
leaves is the same in every order, and each page is read back over the protocol.

## Main results

* `Flash.byteAt_record`, `Flash.readOut_eq_slice`: the two page operations on bytes.
* `Flash.foldl_record_perm`: the order of the page writes does not matter.
* `readBack_coherent`: an erase, page writes in any order, and a read.
-/

namespace Num487Boot

open Exec Memory

/-! ### Bytes of a word -/

/-- The bytes of a word, from the low one on. -/
theorem toNat_wordBytes (w : UInt32) {k : ℕ} (hk : k < 4) :
    ((wordBytes w).getD k 0).toNat = w.toNat >>> (8 * k) % 256 := by
  rcases k with _ | _ | _ | _ | k
  · rfl
  · simp [wordBytes]
  · simp [wordBytes]
  · simp [wordBytes]
  · omega

/-- Clearing bits of a word clears them in its bytes. -/
theorem wordBytes_and (w v : UInt32) {k : ℕ} (hk : k < 4) :
    (wordBytes (w &&& v)).getD k 0 = (wordBytes w).getD k 0 &&& (wordBytes v).getD k 0 := by
  rw [← UInt8.toNat_inj, UInt8.toNat_and, toNat_wordBytes _ hk, toNat_wordBytes _ hk,
    toNat_wordBytes _ hk, UInt32.toNat_and, Nat.shiftRight_and_distrib]
  exact Nat.and_mod_two_pow (n := 8)

/-- A word made of bytes has these bytes. -/
theorem wordBytes_leWord (buf : ℕ → UInt8) (i : ℕ) {k : ℕ} (hk : k < 4) :
    (wordBytes (leWord buf i)).getD k 0 = buf (i + k) := by
  have h₀ := (buf i).toNat_lt
  have h₁ := (buf (i + 1)).toNat_lt
  have h₂ := (buf (i + 2)).toNat_lt
  have h₃ := (buf (i + 3)).toNat_lt
  rw [← UInt8.toNat_inj, toNat_wordBytes _ hk, leWord_toNat, Nat.shiftRight_eq_div_pow]
  rcases k with _ | _ | _ | _ | k
  · simp only [Nat.mul_zero, Nat.pow_zero, Nat.div_one, Nat.add_zero]
    omega
  · simp only [Nat.zero_add, Nat.mul_one, Nat.reducePow]
    omega
  · simp only [Nat.zero_add, Nat.reduceAdd, Nat.reduceMul, Nat.reducePow]
    omega
  · simp only [Nat.zero_add, Nat.reduceAdd, Nat.reduceMul, Nat.reducePow]
    omega
  · omega

/-- Two buffers hold the same word where they hold the same four bytes. -/
theorem leWord_eq_iff {b₁ b₂ : ℕ → UInt8} {i : ℕ} :
    leWord b₁ i = leWord b₂ i ↔ ∀ k < 4, b₁ (i + k) = b₂ (i + k) := by
  constructor
  · intro h k hk
    rw [← wordBytes_leWord b₁ i hk, ← wordBytes_leWord b₂ i hk, h]
  · exact leWord_congr

/-- A word is its four bytes. -/
theorem word_ext {w v : UInt32} (h : ∀ k < 4, (wordBytes w).getD k 0 = (wordBytes v).getD k 0) :
    w = v := by
  have h (k : ℕ) (hk : k < 4) : w.toNat >>> (8 * k) % 256 = v.toNat >>> (8 * k) % 256 := by
    rw [← toNat_wordBytes w hk, ← toNat_wordBytes v hk, h k hk]
  have h₀ := h 0 (by decide)
  have h₁ := h 1 (by decide)
  have h₂ := h 2 (by decide)
  have h₃ := h 3 (by decide)
  have hw := w.toNat_lt
  have hv := v.toNat_lt
  simp only [Nat.shiftRight_eq_div_pow, Nat.reduceMul, Nat.reducePow, Nat.div_one] at h₀ h₁ h₂ h₃
  rw [← UInt32.toNat_inj]
  omega

/-! ### The flash as a memory of bytes -/

/-- The byte at an address of the internal flash. -/
def Flash.byteAt (flash : Flash) (a : ℕ) : UInt8 := (wordBytes (flash (a / 4))).getD (a % 4) 0

/-- The bytes determine the flash. -/
theorem Flash.ext_byteAt {flash flash' : Flash} (h : flash.byteAt = flash'.byteAt) :
    flash = flash' := by
  funext w
  refine word_ext fun k hk => ?_
  have hword : (4 * w + k) / 4 = w := by omega
  have hindex : (4 * w + k) % 4 = k := by omega
  have hbyte := congrFun h (4 * w + k)
  rwa [byteAt, byteAt, hword, hindex] at hbyte

/-- The 512 bytes of a record, and where they go. -/
def Record.write (p : Record) : ℕ × List UInt8 := ((recordAddr p.bytes).toNat, p.bytes.drop 4)

/-- A record has a page of data. -/
theorem Record.length_write (p : Record) : p.write.2.length = 512 := by
  rw [write, List.length_drop, p.size]
  rfl

/-- The page of the record starts at a word. -/
def Record.Aligned (p : Record) : Prop := (recordAddr p.bytes).toNat % 4 = 0

/-- The words of an aligned page are those under its bytes. -/
theorem Record.wordAt_eq {p : Record} (h : p.Aligned) {k : ℕ} (hk : k < 128) :
    wordAt (recordAddr p.bytes) k = p.write.1 / 4 + k := by
  have hhigh := p.high
  rw [toNat_userAppEnd] at hhigh
  simp only [Aligned, wordAt, write] at h ⊢
  omega

/-- **Programming a record** merges its bytes into the flash. -/
theorem Flash.byteAt_record (flash : Flash) {p : Record} (h : p.Aligned) :
    (flash.record p).byteAt = merge (· &&& ·) flash.byteAt p.write.1 p.write.2 := by
  have haligned : p.write.1 % 4 = 0 := h
  have hlen := p.length_write
  funext a
  by_cases hin : p.write.1 ≤ a ∧ a < p.write.1 + 512
  · obtain ⟨i, rfl⟩ : ∃ i, a = p.write.1 + i := ⟨a - p.write.1, by omega⟩
    have hword : (p.write.1 + i) / 4 = wordAt (recordAddr p.bytes) (i / 4) := by
      rw [Record.wordAt_eq h (by omega)]
      omega
    have hi : i < p.write.2.length := by omega
    have hdata : p.write.2[i] = p.bytes.getD (4 + (4 * (i / 4) + i % 4)) 0 := by
      rw [Nat.div_add_mod, ← List.getElem_eq_getD (h := by rw [p.size, bufferSize]; omega)]
      exact List.getElem_drop
    have hindex : (p.write.1 + i) % 4 = i % 4 := by omega
    rw [merge_apply hi, byteAt, byteAt, hword, record, burn_wordAt _ (by omega) (by decide),
      hindex, wordBytes_and _ _ (by omega), wordBytes_leWord _ _ (by omega), Nat.zero_add, hdata]
  · have hkeep : (flash.record p).byteAt a = flash.byteAt a := by
      rw [byteAt, byteAt, record, burn_of_ne]
      intro k hk
      rw [Record.wordAt_eq h hk]
      omega
    rw [hkeep]
    by_cases hlt : a < p.write.1
    · exact (merge_apply_of_lt hlt).symm
    · exact (merge_apply_of_le (by omega)).symm

/-- Programming records merges them one after the other. -/
theorem Flash.byteAt_foldl_record {ps : List Record} (flash : Flash) (h : ∀ p ∈ ps, p.Aligned) :
    (ps.foldl Flash.record flash).byteAt =
      mergeAll (· &&& ·) flash.byteAt (ps.map Record.write) := by
  induction ps generalizing flash with
  | nil => rfl
  | cons p ps ih =>
      rw [List.forall_mem_cons] at h
      rw [List.foldl_cons, ih _ h.2, byteAt_record flash h.1, List.map_cons, mergeAll_cons]

/-- The order of the records does not matter. -/
theorem Flash.foldl_record_perm {ps qs : List Record} (flash : Flash) (h : ∀ p ∈ ps, p.Aligned)
    (hperm : qs.Perm ps) : qs.foldl Flash.record flash = ps.foldl Flash.record flash := by
  apply ext_byteAt
  rw [byteAt_foldl_record flash h, byteAt_foldl_record flash fun p hp => h p (hperm.mem_iff.mp hp)]
  exact mergeAll_perm (fun x y z => by rw [UInt8.and_assoc, UInt8.and_comm y, UInt8.and_assoc])
    (hperm.map _)

/-- A page read delivers a slice of the bytes. -/
theorem Flash.readOut_eq_slice (flash : Flash) (n : ℕ) {addr : UInt32} (h : addr.toNat % 4 = 0)
    (hend : addr.toNat + 4 * n < 2 ^ 32) :
    flash.readOut n addr = slice flash.byteAt addr.toNat (4 * n) := by
  induction n generalizing addr with
  | zero => rfl
  | succ n ih =>
      have hnext : (addr + 4).toNat = addr.toNat + 4 := by
        have hfour : (4 : UInt32).toNat = 4 := rfl
        rw [UInt32.toNat_add, hfour]
        omega
      have hword : wordBytes (flash (addr.toNat / 4)) = slice flash.byteAt addr.toNat 4 := by
        apply List.ext_getElem (by simp)
        intro k hk _
        rw [length_wordBytes] at hk
        have hnumber : (addr.toNat + k) / 4 = addr.toNat / 4 := by omega
        have hindex : (addr.toNat + k) % 4 = k := by omega
        rw [getElem_slice, byteAt, hnumber, hindex]
        exact List.getElem_eq_getD 0
      rw [readOut, hword, ih (by omega) (by omega), hnext, ← slice_append, Nat.mul_succ,
        Nat.add_comm]

/-- The bytes of an erased word. -/
theorem Flash.byteAt_of_erased {flash : Flash} {a : ℕ} (h : flash (a / 4) = 0xFFFFFFFF) :
    flash.byteAt a = 0xFF := by
  rw [byteAt, h]
  obtain hk | hk | hk | hk : a % 4 = 0 ∨ a % 4 = 1 ∨ a % 4 = 2 ∨ a % 4 = 3 := by omega
  all_goals
    rw [hk]
    rfl

/-- The bytes of the erased section. -/
theorem Flash.byteAt_erasedFrom_of_inside (flash : Flash) {a : ℕ}
    (h : userAppStart.toNat ≤ a ∧ a ≤ userAppEnd.toNat) : (flash.erasedFrom 4).byteAt a = 0xFF := by
  rw [toNat_userAppStart, toNat_userAppEnd] at h
  exact byteAt_of_erased (if_pos (by omega))

/-- The bytes outside of it. -/
theorem Flash.byteAt_erasedFrom_of_outside (flash : Flash) {a : ℕ}
    (h : ¬ (userAppStart.toNat ≤ a ∧ a ≤ userAppEnd.toNat)) :
    (flash.erasedFrom 4).byteAt a = flash.byteAt a := by
  rw [toNat_userAppStart, toNat_userAppEnd] at h
  rw [byteAt, erasedFrom, if_neg (by omega)]
  rfl

/-- Where a record lies. -/
theorem Record.write_inside (p : Record) :
    userAppStart.toNat ≤ p.write.1 ∧ p.write.1 + 511 ≤ userAppEnd.toNat :=
  ⟨UInt32.le_iff_toNat_le.mp p.low, p.high⟩

section Pages

variable {ps : List Record} (flash : Flash) {a : ℕ}

/-- A page on the erased section is read back if the other pages stay apart from it. -/
theorem Flash.readOut_page {p : Record} (haligned : ∀ q ∈ ps, q.Aligned)
    (hapart : ps.Pairwise fun q q' => Apart q.write q'.write) (hp : p ∈ ps) :
    (ps.foldl Flash.record (flash.erasedFrom 4)).readOut 128 (recordAddr p.bytes) =
      p.bytes.drop 4 := by
  have hinside := p.write_inside
  have herased : ∀ k < p.write.2.length, (flash.erasedFrom 4).byteAt (p.write.1 + k) = 0xFF := by
    intro k hk
    rw [p.length_write] at hk
    exact byteAt_erasedFrom_of_inside flash (by omega)
  have hback : slice (mergeAll (· &&& ·) (flash.erasedFrom 4).byteAt (ps.map Record.write))
      p.write.1 p.write.2.length = p.write.2 :=
    slice_mergeAll (fun x => UInt8.neg_one_and) (List.pairwise_map.mpr hapart)
      (List.mem_map_of_mem hp) herased
  have hend : p.write.1 + 4 * 128 < 2 ^ 32 := by
    rw [toNat_userAppEnd] at hinside
    omega
  rw [p.length_write] at hback
  rw [readOut_eq_slice _ 128 (haligned p hp) hend, byteAt_foldl_record _ haligned]
  exact hback

/-- Between the pages the section stays erased. -/
theorem Flash.byteAt_pages_of_uncovered (haligned : ∀ q ∈ ps, q.Aligned)
    (ha : userAppStart.toNat ≤ a ∧ a ≤ userAppEnd.toNat)
    (h : ∀ q ∈ ps, a < q.write.1 ∨ q.write.1 + 512 ≤ a) :
    (ps.foldl Flash.record (flash.erasedFrom 4)).byteAt a = 0xFF := by
  rw [byteAt_foldl_record _ haligned, mergeAll_apply_of_forall,
    byteAt_erasedFrom_of_inside flash ha]
  simpa [Record.length_write] using h

/-- Outside the section nothing changes. -/
theorem Flash.byteAt_pages_of_outside (haligned : ∀ q ∈ ps, q.Aligned)
    (ha : ¬ (userAppStart.toNat ≤ a ∧ a ≤ userAppEnd.toNat)) :
    (ps.foldl Flash.record (flash.erasedFrom 4)).byteAt a = flash.byteAt a := by
  rw [byteAt_foldl_record _ haligned, mergeAll_apply_of_forall,
    byteAt_erasedFrom_of_outside flash ha]
  simp only [List.forall_mem_map]
  intro q _
  have hinside := q.write_inside
  rw [q.length_write]
  omega

end Pages

/-! ### The read request -/

/-- A request that starts with an address. -/
theorem accepted_addr {s : Machine} {f : Frame} {r : List UartPoll} (h : 4 ≤ f.data.length) :
    leWord (s.accepted f r).blBuffer 0 = recordAddr f.data := by
  refine leWord_congr fun j hj => ?_
  have hj : j < f.data.length := by omega
  have hstored : (s.accepted f r).blBuffer = overlay s.blBuffer 0 f.data := rfl
  rw [hstored, Nat.zero_add, overlay_zero_apply hj]
  exact List.getElem_eq_getD 0

/-- The reply to a page read: the status byte and the page. -/
theorem step_flashRead {s : Machine} {f : Frame} {r : List UartPoll} {flash : Flash} {l : Lfs}
    (hcmd : f.cmd = cmdFlashRead) (hlen : 4 ≤ f.data.length)
    (h : Waiting ((encode f).map .byte ++ r) flash l s) :
    ∃ t g, Config.step (.live s) .allWell = .live t ∧ Waiting r flash l t ∧
      Sends (encode g) s t ∧ g.cmd = cmdFlashRead ∧
      g.data = successed :: flash.readOut 128 (recordAddr f.data) := by
  let s' := (s.load .allWell).accepted f r
  obtain ⟨es, hdoes⟩ := handleFlashRead_does (s := s') rfl
  have haddr : leWord s'.blBuffer 0 = recordAddr f.data := accepted_addr hlen
  have hflash : s'.flash = flash := h.flash
  rw [haddr, hflash] at hdoes
  obtain ⟨t, hstep, ht, -, hsent⟩ := step_serves h.phase h.rx (by rw [hcmd]; rfl) hdoes
  have hpage := slice_overlay s'.blBuffer 1 (flash.readOut 128 (recordAddr f.data))
  rw [Flash.length_readOut] at hpage
  exact ⟨t, _, hstep, ⟨ht.phase, ht.rx, ht.flash, ht.lfs.trans h.lfs⟩, hsent, hcmd,
    congrArg (successed :: ·) hpage⟩

/-! ### The session -/

/-- An erase, page writes and a page read. -/
theorem serve_pagesThenRead (ps : List Record) {s : Machine} {f : Frame}
    (hphase : s.phase = .command) (hcmd : f.cmd = cmdFlashRead) (hlen : 4 ≤ f.data.length) :
    let flash := ps.foldl Flash.record (s.flash.erasedFrom 4)
    ∃ t g, s.serve (directSession ps ++ [f]) = .live t ∧ t.flash = flash ∧
      txBytes t.trace = txBytes s.trace ++ (encode (.reply cmdFlashEraseAll [ack]) ++
        (ps.flatMap fun _ => encode (.reply cmdFlashWrite [ack])) ++ encode g) ∧
      g.cmd = cmdFlashRead ∧ g.data = successed :: flash.readOut 128 (recordAddr f.data) := by
  intro flash
  let s₀ := s.withRx (line (directSession ps ++ [f]))
  have hstart : Waiting (line (directSession ps) ++ ((encode f).map .byte ++ []))
      s.flash s.lfs s₀ := ⟨hphase, by simp [s₀, line, Machine.withRx], rfl, rfl⟩
  obtain ⟨t, hrun, ht, hsent⟩ := run_directSession ps hstart
  obtain ⟨u, g, hstep, hu, hsent', hg, hdata⟩ := step_flashRead hcmd hlen ht
  have hlength : (directSession ps ++ [f]).length = ps.length + 1 + 1 := by
    simp [directSession, recordFrames]
  refine ⟨u, g, ?_, hu.flash, hsent.trans hsent', hg, hdata⟩
  have hwritten : Runs.run Config.step (.live s₀) _ = _ := hrun
  rw [Machine.serve, hlength, List.replicate_succ', Config.run, Runs.run_append, hwritten]
  exact hstep

/-- **Read-back coherence.** For every list of word-aligned pages in the application section
that stay apart, in a session that erases the section, writes the pages in any order and
reads one of them: every write is acknowledged, the read is answered with the page, the flash
left behind is that of the pages in their own order, and it is erased where no page lies and
unchanged outside the section. -/
theorem readBack_coherent (pages writes : List Record) (s : Machine) (read : Frame) (p : Record)
    (hphase : s.phase = .command) (haligned : ∀ q ∈ pages, q.Aligned)
    (hapart : pages.Pairwise fun q q' => Apart q.write q'.write) (hperm : writes.Perm pages)
    (hp : p ∈ pages) (hcmd : read.cmd = cmdFlashRead) (hlen : 4 ≤ read.data.length)
    (haddr : recordAddr read.data = recordAddr p.bytes) :
    ∃ t g, s.serve (directSession writes ++ [read]) = .live t ∧
      txBytes t.trace = txBytes s.trace ++ (encode (.reply cmdFlashEraseAll [ack]) ++
        (writes.flatMap fun _ => encode (.reply cmdFlashWrite [ack])) ++ encode g) ∧
      g.cmd = cmdFlashRead ∧ g.length = 513 ∧ g.data = successed :: p.bytes.drop 4 ∧
      t.flash = pages.foldl Flash.record (s.flash.erasedFrom 4) ∧
      (∀ a, userAppStart.toNat ≤ a ∧ a ≤ userAppEnd.toNat →
        (∀ q ∈ pages, a < q.write.1 ∨ q.write.1 + 512 ≤ a) → t.flash.byteAt a = 0xFF) ∧
      ∀ a, ¬ (userAppStart.toNat ≤ a ∧ a ≤ userAppEnd.toNat) →
        t.flash.byteAt a = s.flash.byteAt a := by
  obtain ⟨t, g, hserve, hflash, hsent, hg, hdata⟩ :=
    serve_pagesThenRead writes (s := s) hphase hcmd hlen
  rw [Flash.foldl_record_perm _ haligned hperm] at hflash hdata
  rw [haddr, Flash.readOut_page _ haligned hapart hp] at hdata
  have hlength : g.length = 513 := by
    have hpage : (p.bytes.drop 4).length = 512 := p.length_write
    rw [Frame.length, hdata, List.length_cons, hpage]
    rfl
  refine ⟨t, g, hserve, hsent, hg, hlength, hdata, hflash, fun a ha hnone => ?_, fun a ha => ?_⟩
  · rw [hflash]
    exact Flash.byteAt_pages_of_uncovered _ haligned ha hnone
  · rw [hflash]
    exact Flash.byteAt_pages_of_outside _ haligned ha

/-- The first and the last page start at words. -/
theorem aligned_endPages : ∀ q ∈ [firstPage, lastPage], q.Aligned := by
  simp only [List.forall_mem_cons]
  exact ⟨rfl, rfl, by simp⟩

/-- The first and the last page stay apart. -/
theorem apart_endPages : [firstPage, lastPage].Pairwise fun q q' => Apart q.write q'.write := by
  simp only [List.pairwise_cons, List.forall_mem_singleton, Apart, Record.length_write]
  refine ⟨.inl ?_, by simp⟩
  decide

/-- The first and the last page, written in the other order. -/
theorem readBack_coherent_ends :
    let s := Machine.connected [] .unformatted .blank
    let read : Frame := ⟨cmdFlashRead, [0, 0, 1, 0], by decide⟩
    ∃ t g, s.serve (directSession [lastPage, firstPage] ++ [read]) = .live t ∧
      txBytes t.trace = txBytes s.trace ++ (encode (.reply cmdFlashEraseAll [ack]) ++
        ([lastPage, firstPage].flatMap fun _ => encode (.reply cmdFlashWrite [ack])) ++
        encode g) ∧
      g.cmd = cmdFlashRead ∧ g.length = 513 ∧ g.data = successed :: firstPage.bytes.drop 4 ∧
      t.flash = [firstPage, lastPage].foldl Flash.record (s.flash.erasedFrom 4) ∧
      (∀ a, userAppStart.toNat ≤ a ∧ a ≤ userAppEnd.toNat →
        (∀ q ∈ [firstPage, lastPage], a < q.write.1 ∨ q.write.1 + 512 ≤ a) →
        t.flash.byteAt a = 0xFF) ∧
      ∀ a, ¬ (userAppStart.toNat ≤ a ∧ a ≤ userAppEnd.toNat) →
        t.flash.byteAt a = s.flash.byteAt a := by
  exact readBack_coherent [firstPage, lastPage] [lastPage, firstPage] _ _ firstPage rfl
    aligned_endPages apart_endPages (List.Perm.swap ..) List.mem_cons_self rfl (by decide) rfl

end Num487Boot
