import Num487Boot.ReadBack

/-!
# Verifying a Page

`flash_verify_app_page` reads a page once more and compares it word by word through a cast of
its buffer, where `flash_read_app_page` splits the words into bytes. The two read the same
words and give up at the same errors, so a page verifies exactly when it reads back equal. After
a page write that is what was written.

## Main results

* `verifyWords_readWords`: the two loops, in step.
* `verifyWords_reported`: what the verify loop compares when no read fails without saying so.
* `verify_agrees`: `flash_verify_app_page` against the two other functions.
-/

namespace Num487Boot

open Exec Memory

/-- A word is in a buffer where its bytes are. -/
theorem eq_leWord_iff {w : UInt32} {buf : ℕ → UInt8} {i : ℕ} :
    w = leWord buf i ↔ ∀ k < 4, (wordBytes w).getD k 0 = buf (i + k) := by
  constructor
  · rintro rfl k hk
    exact wordBytes_leWord buf i hk
  · intro h
    exact word_ext fun k hk => (h k hk).trans (wordBytes_leWord buf i hk).symm

/-- The bytes of a word and of the words after it. -/
theorem forall_bytes_succ {P : ℕ → Prop} {n i : ℕ} :
    (∀ k < 4 * (n + 1), P (i + k)) ↔ (∀ k < 4, P (i + k)) ∧ ∀ k < 4 * n, P (i + 4 + k) := by
  constructor
  · intro h
    refine ⟨fun k hk => h k (by omega), fun k hk => ?_⟩
    rw [Nat.add_assoc]
    exact h (4 + k) (by omega)
  · rintro ⟨hword, hrest⟩ k hk
    rcases Nat.lt_or_ge k 4 with hlt | hge
    · exact hword k hlt
    · have hk' := hrest (k - 4) (by omega)
      rwa [Nat.add_assoc, Nat.add_sub_cancel' hge] at hk'

/-! ### The verify loop -/

/-- One round of the loop of `flash_verify_app_page`. -/
theorem verifyWords_succ (buf : ℕ → UInt8) (n : ℕ) (addr : UInt32) {i : ℕ} (hi : i % 4 = 0)
    (s : Machine) :
    verifyWords buf (n + 1) addr i s =
      (if s.verdicts.isp 0 (.read addr) ∈ [.done, .fault] ∧
          (s.verdicts.isp 0 (.read addr)).readValue (s.flash (addr.toNat / 4)) = leWord buf i then
        verifyWords buf n (addr + 4) (i + 4) else pure failed : Prog UInt8)
        (s.afterFmcRead addr) := by
  have hcode := s.fmcErrCode_afterFmcRead addr
  have hindex : 4 * (i / 4) = i := by omega
  rw [verifyWords, bind_of_ok (fmcRead_apply addr s), bind_of_ok (get_apply _), hindex]
  split
  · rename_i hstop
    rw [if_neg]
    rintro ⟨hv, hword⟩
    rcases hstop with hne | herr
    · exact hne hword
    · exact herr (hcode.mpr hv)
  · rename_i hgo
    rw [not_or, not_not, not_not] at hgo
    rw [if_pos ⟨hcode.mp hgo.2, hgo.1⟩]

/-- The two loops on `n` words from the same state of the flash and its controller: the verify
loop succeeds exactly when the read loop does and has stored the bytes of `buf`. The read loop
leaves the bytes before its own alone. -/
theorem verifyWords_readWords (buf : ℕ → UInt8) (base n : ℕ) (addr : UInt32) (i : ℕ) (s : Machine)
    (mem : ℕ → UInt8) (hi : i % 4 = 0) (hfits : base + i + 4 * n ≤ bufferSize) :
    ∃ r t r' t', verifyWords buf n addr i s = .ok r t ∧
      readWords base n addr i { s with blBuffer := mem } = .ok r' t' ∧
      (r = successed ↔
        r' = successed ∧ ∀ k < 4 * n, t'.blBuffer (base + (i + k)) = buf (i + k)) ∧
      ∀ j < base + i, t'.blBuffer j = mem j := by
  induction n generalizing addr i s mem with
  | zero =>
      refine ⟨successed, s, successed, _, rfl, rfl, ?_, fun _ _ => rfl⟩
      exact iff_of_true rfl ⟨rfl, fun k hk => absurd hk (Nat.not_lt_zero k)⟩
  | succ n ih =>
      let v := s.verdicts.isp 0 (.read addr)
      let word := v.readValue (s.flash (addr.toNat / 4))
      let mem₁ := overlay mem (base + i) (wordBytes word)
      have hbelow : ∀ j < base + i, mem₁ j = mem j := fun j hj => overlay_apply_of_lt hj
      rw [verifyWords_succ buf n addr hi s, readWords_succ addr _ (by omega)]
      by_cases hv : v ∈ [.done, .fault]
      case neg =>
        rw [if_neg hv, if_neg fun h => hv h.1]
        exact ⟨failed, _, failed, _, rfl, rfl, iff_of_false failed_ne_successed
          fun h => failed_ne_successed h.1, hbelow⟩
      rw [if_pos hv]
      obtain ⟨r, t, r', t', hverify, hread, hiff, hkeep⟩ :=
        ih (addr + 4) (i + 4) (s.afterFmcRead addr) mem₁ (by omega) (by omega)
      have hword : (∀ k < 4, t'.blBuffer (base + (i + k)) = buf (i + k)) ↔ word = leWord buf i := by
        rw [eq_leWord_iff]
        refine forall₂_congr fun k hk => ?_
        have hbyte : t'.blBuffer (base + (i + k)) = (wordBytes word).getD k 0 := by
          have hk' : k < (wordBytes word).length := hk
          rw [hkeep _ (by omega), ← Nat.add_assoc]
          exact (overlay_apply hk').trans (List.getElem_eq_getD 0)
        rw [hbyte]
      have hmem : ∀ j < base + i, t'.blBuffer j = mem j := fun j hj =>
        (hkeep j (by omega)).trans (hbelow j hj)
      by_cases hsame : word = leWord buf i
      · rw [if_pos ⟨hv, hsame⟩]
        refine ⟨r, t, r', t', hverify, hread, ?_, hmem⟩
        rw [hiff, forall_bytes_succ (P := fun k => t'.blBuffer (base + k) = buf k),
          and_iff_right (hword.mpr hsame)]
      · rw [if_neg fun h => hsame h.2]
        refine ⟨failed, _, r', t', rfl, hread, ?_, hmem⟩
        refine iff_of_false failed_ne_successed fun h => hsame (hword.mp fun k hk => ?_)
        exact h.2 k (by omega)

/-! ### Reads that report their failures -/

/-- Each of the `n` reads from `addr` on delivers the word or times out: none ends in a fault,
which `FMC_Read` does not look at. -/
def Machine.ReadsReported (s : Machine) (n : ℕ) (addr : UInt32) : Prop :=
  ∀ k < n, s.verdicts.isp k (.read (addr + .ofNat (4 * k))) ≠ .fault

/-- Each of the `n` reads from `addr` on delivers the word. -/
def Machine.ReadsDone (s : Machine) (n : ℕ) (addr : UInt32) : Prop :=
  ∀ k < n, s.verdicts.isp k (.read (addr + .ofNat (4 * k))) = .done

/-- What holds of the ends of `n + 1` reads holds of the first and of the `n` after it. -/
theorem forall_reads_succ {P : IspVerdict → Prop} {s : Machine} {n : ℕ} {addr : UInt32} :
    (∀ k < n + 1, P (s.verdicts.isp k (.read (addr + .ofNat (4 * k))))) ↔
      P (s.verdicts.isp 0 (.read addr)) ∧
        ∀ k < n, P ((s.afterFmcRead addr).verdicts.isp k (.read (addr + 4 + .ofNat (4 * k)))) := by
  have hfirst : addr + .ofNat (4 * 0) = addr := UInt32.add_zero addr
  have hnext (k : ℕ) : addr + .ofNat (4 * (k + 1)) = addr + 4 + .ofNat (4 * k) := by
    rw [Nat.mul_succ, Nat.add_comm, UInt32.ofNat_add, UInt32.add_assoc]
    rfl
  simp only [Nat.forall_lt_succ_left, hfirst, hnext]
  rfl

/-- The first read is reported, and so are the others. -/
theorem Machine.readsReported_succ {s : Machine} {n : ℕ} {addr : UInt32} :
    s.ReadsReported (n + 1) addr ↔ s.verdicts.isp 0 (.read addr) ≠ .fault ∧
      (s.afterFmcRead addr).ReadsReported n (addr + 4) :=
  forall_reads_succ (P := (· ≠ .fault))

/-- The first read is done, and so are the others. -/
theorem Machine.readsDone_succ {s : Machine} {n : ℕ} {addr : UInt32} :
    s.ReadsDone (n + 1) addr ↔ s.verdicts.isp 0 (.read addr) = .done ∧
      (s.afterFmcRead addr).ReadsDone n (addr + 4) :=
  forall_reads_succ (P := (· = .done))

/-- The verify loop compares what the flash holds. -/
theorem verifyWords_reported (buf : ℕ → UInt8) (n : ℕ) (addr : UInt32) (i : ℕ) (s : Machine)
    (hi : i % 4 = 0) (hreported : s.ReadsReported n addr) :
    ∃ r t, verifyWords buf n addr i s = .ok r t ∧
      (r = successed ↔ s.ReadsDone n addr ∧
        ∀ k < n, s.flash (wordAt addr k) = leWord buf (i + 4 * k)) := by
  induction n generalizing addr i s with
  | zero =>
      refine ⟨successed, s, rfl, iff_of_true rfl ⟨fun k hk => ?_, fun k hk => ?_⟩⟩
      · exact absurd hk (Nat.not_lt_zero k)
      · exact absurd hk (Nat.not_lt_zero k)
  | succ n ih =>
      obtain ⟨hfault, hrest⟩ := Machine.readsReported_succ.mp hreported
      rw [verifyWords_succ buf n addr hi s, Machine.readsDone_succ]
      by_cases hv : s.verdicts.isp 0 (.read addr) = .done
      case neg =>
        have hout : s.verdicts.isp 0 (.read addr) ∉ [.done, .fault] := by
          simp [hv, hfault]
        rw [if_neg fun h => hout h.1]
        exact ⟨failed, _, rfl, iff_of_false failed_ne_successed fun h => hv h.1.1⟩
      obtain ⟨r, t, hrun, hiff⟩ := ih (addr + 4) (i + 4) (s.afterFmcRead addr) (by omega) hrest
      have hwords : (∀ k < n + 1, s.flash (wordAt addr k) = leWord buf (i + 4 * k)) ↔
          s.flash (addr.toNat / 4) = leWord buf i ∧
            ∀ k < n, (s.afterFmcRead addr).flash (wordAt (addr + 4) k) =
              leWord buf (i + 4 + 4 * k) := by
        rw [Nat.forall_lt_succ_left, wordAt_zero, Nat.mul_zero, Nat.add_zero,
          s.flash_afterFmcRead]
        refine and_congr_right' (forall₂_congr fun k _ => ?_)
        have hindex : i + 4 + 4 * k = i + 4 * (k + 1) := by omega
        rw [wordAt_succ, hindex]
      rw [hwords, hv]
      by_cases hword : s.flash (addr.toNat / 4) = leWord buf i
      · rw [if_pos ⟨List.mem_cons_self, hword⟩]
        refine ⟨r, t, hrun, ?_⟩
        rw [hiff, and_iff_right rfl, and_iff_right hword]
      · rw [if_neg fun h => hword h.2]
        exact ⟨failed, _, rfl, iff_of_false failed_ne_successed fun h => hword h.2.1⟩

/-! ### After a page write -/

/-- The page at `dest` is erased. -/
def Flash.ErasedPage (flash : Flash) (dest : UInt32) : Prop :=
  ∀ k < 128, flash (wordAt dest k) = 0xFFFFFFFF

/-- What a successful page write leaves on an erased page. -/
theorem flash_of_write {s t : Machine} {dest : UInt32} {buf : ℕ → UInt8}
    (herased : s.flash.ErasedPage dest)
    (hwrite : flashWriteAppPage dest buf s = .ok successed t) {k : ℕ} (hk : k < 128) :
    t.flash (wordAt dest k) = leWord buf (4 * k) := by
  obtain ⟨r, u, es, hrun, -, -, -, -, hflash⟩ := writeWords_spec buf 128 dest 0 s
  have hrun : flashWriteAppPage dest buf s = .ok r u := hrun
  rw [hrun] at hwrite
  cases hwrite
  rw [hflash rfl, Flash.burn_wordAt _ hk (by decide), herased k hk, Nat.zero_add]
  exact UInt32.neg_one_and

/-- The words of a page are equal when its bytes are. -/
theorem forall_leWord_eq_iff {b₁ b₂ : ℕ → UInt8} {n : ℕ} :
    (∀ k < n, leWord b₁ (4 * k) = leWord b₂ (4 * k)) ↔ ∀ j < 4 * n, b₁ j = b₂ j := by
  constructor
  · intro h j hj
    have hbyte := leWord_eq_iff.mp (h (j / 4) (by omega)) (j % 4) (by omega)
    rwa [Nat.div_add_mod] at hbyte
  · intro h k hk
    exact leWord_eq_iff.mpr fun j hj => h _ (by omega)

/-- **Verify and read-back.** Whatever the flash holds and however the reads end, a page
verifies exactly when it reads back without error and equal to the buffer. And after a
successful write on an erased page, when the reads that fail say so, it verifies exactly when
none of them fails and the buffer is the one that was written. -/
theorem verify_agrees (s : Machine) (src : UInt32) (buf : ℕ → UInt8) (base : ℕ)
    (hfits : base + 512 ≤ bufferSize) :
    (∃ r t r' t', flashVerifyAppPage src buf s = .ok r t ∧
      flashReadAppPage src base s = .ok r' t' ∧
      (r = successed ↔ r' = successed ∧ ∀ k < 512, t'.blBuffer (base + k) = buf k)) ∧
    ∀ t, s.flash.ErasedPage src → flashWriteAppPage src buf s = .ok successed t →
      t.ReadsReported 128 src → ∀ buf', ∃ r u, flashVerifyAppPage src buf' t = .ok r u ∧
        (r = successed ↔ t.ReadsDone 128 src ∧ ∀ k < 512, buf' k = buf k) := by
  constructor
  · obtain ⟨r, t, r', t', hverify, hread, hiff, -⟩ :=
      verifyWords_readWords buf base 128 src 0 s s.blBuffer rfl hfits
    simp only [Nat.zero_add] at hiff
    exact ⟨r, t, r', t', hverify, hread, hiff⟩
  · intro t herased hwrite hreported buf'
    obtain ⟨r, u, hrun, hiff⟩ := verifyWords_reported buf' 128 src 0 t rfl hreported
    have hwords : (∀ k < 128, t.flash (wordAt src k) = leWord buf' (0 + 4 * k)) ↔
        ∀ k < 512, buf' k = buf k := by
      rw [← forall_leWord_eq_iff (n := 128)]
      refine forall₂_congr fun k hk => ?_
      rw [flash_of_write herased hwrite hk, Nat.zero_add, eq_comm]
    exact ⟨r, u, hrun, by rw [hiff, hwords]⟩

/-- Counting bytes written to the first page of the application on a blank flash, with every
command done. -/
theorem verify_agrees_firstPage :
    let s : Machine := .connected [] .unformatted .blank
    let buf : ℕ → UInt8 := fun i => i.toUInt8
    ∃ t, flashWriteAppPage userAppStart buf s = .ok successed t ∧
      ∀ buf', ∃ r u, flashVerifyAppPage userAppStart buf' t = .ok r u ∧
        (r = successed ↔ t.ReadsDone 128 userAppStart ∧ ∀ k < 512, buf' k = buf k) := by
  intro s buf
  have hwell : s.verdicts = .allWell := rfl
  obtain ⟨t, hwrite, hstep, -⟩ := flashWriteAppPage_allWell userAppStart buf hwell
  have hreported : t.ReadsReported 128 userAppStart := by
    intro k _ hfault
    obtain ⟨n, hn⟩ := hstep.ispVerdicts
    rw [hn] at hfault
    cases hfault
  exact ⟨t, hwrite, (verify_agrees s userAppStart buf 4 (by decide)).2 t (fun _ _ => rfl) hwrite
    hreported⟩

end Num487Boot
