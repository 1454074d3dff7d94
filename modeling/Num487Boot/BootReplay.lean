import Num487Boot.BootOutcome
import Num487Boot.ReadBack

/-!
# What boot_from_fs Replays

When `boot_from_fs` reports success it has erased the application section and programmed
what the calls of LittleFS left in the packet buffer, pass by pass. It looks at none of their
results, so these are the records of `/boot` exactly as far as LittleFS delivers them.

## Main results

* `bootFromFs_succeeds_iff`: when `boot_from_fs` reports success.
* `bootImages_eq_iff`: what the answers to `lfs_file_size` and to the reads must be for the
  records of a file to be what is programmed.
* `replays_iff`: when a reported success means that `/boot` has been replayed.
* `replays_of_documented`: under a LittleFS that behaves as documented it always does.
-/

namespace Num487Boot

open Exec Memory

/-! ### The records of a file -/

/-- The records of a file of 516-byte records, a shorter last one padded with zeros. -/
def fileRecords (content : List UInt8) : List (List UInt8) :=
  (List.range ((content.length + (bufferSize - 1)) / bufferSize)).map fun k =>
    slice (fun i => content.getD i 0) (bufferSize * k) bufferSize

/-- The file `/boot` on a disk, which is empty where there is none. -/
def Disk.bootContent : Disk → List UInt8
  | .unformatted | .formatted none => []
  | .formatted (some b) => b.1

/-- The flash after a record has been programmed at its own address. -/
def Flash.burnRecord (flash : Flash) (record : List UInt8) : Flash :=
  flash.burn (fun i => record.getD (4 + i) 0) 128 (recordAddr record) 0

variable {content : List UInt8}

/-- The first record, before the file goes on. -/
theorem fileRecords_of_le (h : bufferSize ≤ content.length) :
    fileRecords content = content.take bufferSize :: fileRecords (content.drop bufferSize) := by
  have hcount : (content.length + (bufferSize - 1)) / bufferSize =
      ((content.drop bufferSize).length + (bufferSize - 1)) / bufferSize + 1 := by
    rw [List.length_drop]
    simp only [bufferSize] at h ⊢
    omega
  rw [fileRecords, hcount, List.range_succ_eq_map, List.map_cons, List.map_map, fileRecords]
  congr 1
  · apply List.ext_getElem
    · rw [length_slice, List.length_take, Nat.min_eq_left h]
    · intro k hk hk'
      rw [getElem_slice, List.getElem_take, Nat.mul_zero, Nat.zero_add]
      exact (List.getElem_eq_getD 0).symm
  · refine List.map_congr_left fun k _ => List.ext_getElem (by simp) fun j hj _ => ?_
    simp only [Function.comp_apply, getElem_slice, List.getD_eq_getElem?_getD, List.getElem?_drop]
    rw [Nat.mul_succ, Nat.add_right_comm, Nat.add_comm _ bufferSize]

/-- The last record, when there is less than a record left. -/
theorem fileRecords_of_lt (h : content.length < bufferSize) (hne : content ≠ []) :
    fileRecords content = [slice (fun i => content.getD i 0) 0 bufferSize] := by
  have hpos := List.length_pos_iff.mpr hne
  have hcount : (content.length + (bufferSize - 1)) / bufferSize = 1 := by
    simp only [bufferSize] at h ⊢
    omega
  rw [fileRecords, hcount]
  rfl

/-- A record has 516 bytes, the padded one included. -/
theorem length_of_mem_fileRecords {record : List UInt8} (h : record ∈ fileRecords content) :
    record.length = bufferSize := by
  obtain ⟨k, -, rfl⟩ := List.mem_map.mp h
  exact length_slice ..

/-! ### Commands determine records -/

/-- There is one command for each word. -/
theorem length_pageCommands (buf : ℕ → UInt8) (n : ℕ) (addr : UInt32) (i : ℕ) :
    (pageCommands buf n addr i).length = n := by
  induction n generalizing addr i with
  | zero => rfl
  | succ n ih => rw [pageCommands, List.length_cons, ih]

/-- The commands of a page tell its address. -/
theorem addr_of_pageCommands_eq {b₁ b₂ : ℕ → UInt8} {n : ℕ} {a₁ a₂ : UInt32} {i : ℕ}
    (h : pageCommands b₁ (n + 1) a₁ i = pageCommands b₂ (n + 1) a₂ i) : a₁ = a₂ := by
  rw [pageCommands, pageCommands, List.cons.injEq, IspCommand.program.injEq] at h
  exact h.1.1

/-- The commands of a page tell its words. -/
theorem words_of_pageCommands_eq {b₁ b₂ : ℕ → UInt8} {n : ℕ} {a₁ a₂ : UInt32} {i : ℕ}
    (h : pageCommands b₁ n a₁ i = pageCommands b₂ n a₂ i) {k : ℕ} (hk : k < n) :
    leWord b₁ (i + 4 * k) = leWord b₂ (i + 4 * k) := by
  induction n generalizing a₁ a₂ i k with
  | zero => omega
  | succ n ih =>
      rw [pageCommands, pageCommands, List.cons.injEq, IspCommand.program.injEq] at h
      cases k with
      | zero => exact h.1.2
      | succ k =>
          have hword := ih h.2 (k := k) (by omega)
          rwa [Nat.add_assoc, Nat.add_comm 4, ← Nat.mul_succ] at hword

/-- The commands of a record tell the record. -/
theorem recordCommands_inj {x y : List UInt8} (hx : x.length = bufferSize)
    (hy : y.length = bufferSize) (h : recordCommands x = recordCommands y) : x = y := by
  have haddr : recordAddr x = recordAddr y := addr_of_pageCommands_eq (n := 127) h
  have hbyte (j : ℕ) (hj : j < bufferSize) : x.getD j 0 = y.getD j 0 := by
    simp only [bufferSize] at hj
    by_cases hlt : j < 4
    · have hsame := leWord_eq_iff.mp haddr j hlt
      rwa [Nat.zero_add] at hsame
    · have hk : (j - 4) / 4 < 128 := by omega
      have hword := words_of_pageCommands_eq h hk
      have hsame := leWord_eq_iff.mp hword ((j - 4) % 4) (by omega)
      rwa [Nat.zero_add, Nat.div_add_mod, Nat.add_sub_cancel' (by omega)] at hsame
  apply List.ext_getElem (hx.trans hy.symm)
  intro j hj hj'
  rw [List.getElem_eq_getD 0, List.getElem_eq_getD 0]
  exact hbyte j (by rwa [hx] at hj)

/-- Codes of one length that tell their values apart tell lists of them apart. -/
theorem flatMap_inj {α β : Type} {code : α → List β} {n : ℕ} {xs ys : List α}
    (hlen : ∀ a, (code a).length = n + 1)
    (hinj : ∀ a ∈ xs, ∀ b ∈ ys, code a = code b → a = b)
    (h : xs.flatMap code = ys.flatMap code) : xs = ys := by
  have hhead (a : α) (as : List α) : (a :: as).flatMap code ≠ [] := by
    rw [List.flatMap_cons]
    exact List.append_ne_nil_of_left_ne_nil (List.ne_nil_of_length_pos (by rw [hlen]; omega)) _
  induction xs generalizing ys with
  | nil =>
      cases ys with
      | nil => rfl
      | cons b ys => exact absurd h.symm (hhead b ys)
  | cons a xs ih =>
      cases ys with
      | nil => exact absurd h (hhead a xs)
      | cons b ys =>
          rw [List.flatMap_cons, List.flatMap_cons] at h
          obtain ⟨hcode, hrest⟩ := List.append_inj h (by rw [hlen, hlen])
          rw [hinj a List.mem_cons_self b List.mem_cons_self hcode,
            ih (fun a ha b hb => hinj a (List.mem_cons_of_mem _ ha) b (List.mem_cons_of_mem _ hb))
              hrest]

/-! ### Commands and the flash -/

/-- Programming a page word by word burns it. -/
theorem foldl_pageCommands (flash : Flash) (buf : ℕ → UInt8) (n : ℕ) (addr : UInt32) (i : ℕ) :
    (pageCommands buf n addr i).foldl IspCommand.apply flash = flash.burn buf n addr i := by
  induction n generalizing flash addr i with
  | zero => rfl
  | succ n ih =>
      rw [pageCommands, List.foldl_cons, ih]
      rfl

/-- Programming records one by one. -/
theorem foldl_recordCommands (flash : Flash) (records : List (List UInt8)) :
    (records.flatMap recordCommands).foldl IspCommand.apply flash =
      records.foldl Flash.burnRecord flash := by
  induction records generalizing flash with
  | nil => rfl
  | cons r records ih =>
      rw [List.flatMap_cons, List.foldl_append, ih, recordCommands, foldl_pageCommands]
      rfl

/-- Where nothing is refused everything is carried out. -/
theorem carried_of_forall {isp : ℕ → IspCommand → IspVerdict} {cs : List IspCommand}
    (h : ∀ n, ∀ c ∈ cs, isp n c = .done) : Carried isp cs := by
  induction cs generalizing isp with
  | nil => trivial
  | cons c cs ih =>
      exact ⟨h 0 c List.mem_cons_self, ih fun n c hc => h (n + 1) c (List.mem_cons_of_mem _ hc)⟩

/-- The erase commands erase the application section. -/
theorem foldl_eraseCommands (flash : Flash) :
    eraseCommands.foldl IspCommand.apply flash = flash.erasedFrom 4 := by
  let s := Machine.reset [] .unformatted flash
  obtain ⟨r, t, hrun, -, hr, hcarries, -⟩ := flashEraseAppAll_outcome s
  have hok : r = successed := hr.mpr (carried_of_forall fun _ _ _ => rfl)
  obtain ⟨r', t', es, hrun', -, -, -, -, hflash⟩ := flashEraseAppAll_spec s
  rw [hrun] at hrun'
  cases hrun'
  exact (hcarries hok).flash.symm.trans (hflash hok)

/-! ### Replaying the file -/

/-- From `s` to `t` the application section was erased and the records programmed, each once
and in order, and nothing else was. -/
structure Replayed (records : List (List UInt8)) (s t : Machine) : Prop where
  commands : ∃ es, t.trace = s.trace ++ es ∧
    es.filterMap Event.ispCommand = eraseCommands ++ records.flatMap recordCommands
  flash : t.flash = records.foldl Flash.burnRecord (s.flash.erasedFrom 4)

variable {s t : Machine} {records : List (List UInt8)}

/-- Carrying out the commands for records replays them. -/
theorem Carries.replayed (h : Carries (eraseCommands ++ records.flatMap recordCommands) s t) :
    Replayed records s t := by
  refine ⟨h.trace, ?_⟩
  rw [h.flash, List.foldl_append, foldl_eraseCommands, foldl_recordCommands]

/-- The commands tell which records were programmed. -/
theorem Carries.records_eq {images : List (List UInt8)}
    (h : Carries (eraseCommands ++ images.flatMap recordCommands) s t)
    (hlen : ∀ x ∈ images, x.length = bufferSize) (hlen' : ∀ x ∈ records, x.length = bufferSize)
    (hr : Replayed records s t) : images = records := by
  obtain ⟨es, htrace, hes⟩ := h.trace
  obtain ⟨es', htrace', hes'⟩ := hr.commands
  obtain rfl := List.append_cancel_left (htrace.symm.trans htrace')
  refine flatMap_inj (n := 127) (fun x => length_pageCommands ..)
    (fun x hx y hy => recordCommands_inj (hlen x hx) (hlen' y hy)) ?_
  exact List.append_cancel_left (hes.symm.trans hes')

/-- What is programmed are contents of the whole buffer. -/
theorem length_of_mem_images {ds : List Delivery} {buf : ℕ → UInt8} {x : List UInt8}
    (h : x ∈ images ds buf) : x.length = bufferSize := by
  induction ds generalizing buf with
  | nil => cases h
  | cons d ds ih =>
      rcases List.mem_cons.mp h with rfl | h
      · exact length_slice ..
      · exact ih h

/-- Where `boot_from_fs` can succeed it does, with all its commands carried out. -/
theorem bootFromFs_of_succeeds (h : s.BootSucceeds) :
    ∃ t, bootFromFs s = .ok successed t ∧ Carries (eraseCommands ++ s.bootCommands) s t := by
  obtain ⟨hopens, hfits, hcarried⟩ := h
  obtain ⟨t, hrun, hcarries, -⟩ :=
    (bootFromFs_ends (carried_append.mp hcarried).1 hopens hfits).1 hcarried
  exact ⟨t, hrun, hcarries⟩

/-- `boot_from_fs` succeeds nowhere else. -/
theorem succeeds_of_bootFromFs (h : bootFromFs s = .ok successed t) : s.BootSucceeds := by
  rcases bootFromFs_cases s with ⟨hs, -⟩ | ⟨-, u, hrun, -⟩ | ⟨-, -, e, u, hrun⟩
  · exact hs
  · rw [h] at hrun
    cases hrun
  · rw [h] at hrun
    cases hrun

/-- `boot_from_fs` reports success exactly when it can. -/
theorem bootFromFs_succeeds_iff : (∃ t, bootFromFs s = .ok successed t) ↔ s.BootSucceeds := by
  constructor
  · rintro ⟨t, h⟩
    exact succeeds_of_bootFromFs h
  · intro h
    obtain ⟨t, hrun, -⟩ := bootFromFs_of_succeeds h
    exact ⟨t, hrun⟩

/-! ### What the answers of LittleFS must be -/

/-- A byte of the record a file holds at position `k`, zero past its end. -/
def recordByte (content : List UInt8) (k j : ℕ) : UInt8 := content.getD (bufferSize * k + j) 0

/-- The number of reads `boot_from_fs` makes, by the size LittleFS returned: one for each full
or partial record, and a single one after a negative size. -/
def Volume.bootReads (v : Volume) : ℕ :=
  if v.bootSize < 0 then 1 else (v.bootSize.toNat + (bufferSize - 1)) / bufferSize

/-- The answers to `lfs_file_size` and to the reads deliver a file. A read that falls short does
no harm exactly where the bytes it leaves out are those the packet buffer holds anyway: zeros
for the first record and for the last, which is read into a cleared buffer, else the bytes of
the record before. -/
structure Volume.DeliversFile (v : Volume) (content : List UInt8) : Prop where
  reads : v.bootReads = (content.length + (bufferSize - 1)) / bufferSize
  bytes : ∀ k d, v.bootDeliveries[k]? = some d → ∀ j < bufferSize,
    recordByte content k j =
      if j < d.bytes.length then d.bytes.getD j 0
      else if d.cleared ∨ k = 0 then 0
      else recordByte content (k - 1) j

/-- The buffer after a delivery, byte by byte. -/
theorem Delivery.store_apply (d : Delivery) (buf : ℕ → UInt8) {j : ℕ} (hj : j < bufferSize) :
    d.store buf j =
      if j < d.bytes.length then d.bytes.getD j 0 else if d.cleared then 0 else buf j := by
  rw [store]
  by_cases hin : j < d.bytes.length
  · rw [if_pos hin, overlay_zero_apply hin]
    exact List.getElem_eq_getD 0
  · rw [if_neg hin, overlay_apply_of_le (by omega)]
    by_cases hcleared : d.cleared
    · rw [if_pos hcleared, if_pos hcleared, zeroed, if_pos hj]
    · rw [if_neg hcleared, if_neg hcleared]

/-- The first of the buffers is a record of a file when the first delivery leaves it there. -/
theorem images_cons_iff (content : List UInt8) (d : Delivery) (ds : List Delivery)
    (buf : ℕ → UInt8) (m n : ℕ) :
    images (d :: ds) buf = (List.range' m (n + 1)).map
        (fun k => slice (fun i => content.getD i 0) (bufferSize * k) bufferSize) ↔
      (∀ j < bufferSize, recordByte content m j = d.store buf j) ∧
        images ds (d.store buf) = (List.range' (m + 1) n).map
          fun k => slice (fun i => content.getD i 0) (bufferSize * k) bufferSize := by
  have hhead : slice (d.store buf) 0 bufferSize =
      slice (fun i => content.getD i 0) (bufferSize * m) bufferSize ↔
      ∀ j < bufferSize, recordByte content m j = d.store buf j := by
    rw [slice_eq_iff]
    refine forall₂_congr fun j _ => ?_
    rw [Nat.zero_add, recordByte]
    exact eq_comm
  rw [images, List.range'_succ, List.map_cons, List.cons.injEq, hhead]

/-- The buffers a list of deliveries leaves are records of a file, from record `m` on, exactly
when there are as many of them and every delivery leaves its record. -/
theorem images_eq_iff (content : List UInt8) (ds : List Delivery) (buf : ℕ → UInt8) (m n : ℕ) :
    images ds buf = (List.range' m n).map
        (fun k => slice (fun i => content.getD i 0) (bufferSize * k) bufferSize) ↔
      ds.length = n ∧ ∀ k d, ds[k]? = some d → ∀ j < bufferSize,
        recordByte content (m + k) j =
          if j < d.bytes.length then d.bytes.getD j 0
          else if d.cleared then 0
          else if k = 0 then buf j
          else recordByte content (m + k - 1) j := by
  induction ds generalizing buf m n with
  | nil =>
      cases n with
      | zero => simp [images]
      | succ n => simp [images, List.range'_succ]
  | cons d ds ih =>
      cases n with
      | zero => simp [images]
      | succ n =>
          rw [images_cons_iff, ih, List.length_cons, Nat.add_right_cancel_iff]
          constructor
          · rintro ⟨hfirst, hlen, hrest⟩
            refine ⟨hlen, fun k e he j hj => ?_⟩
            cases k with
            | zero =>
                obtain rfl : d = e := Option.some.inj he
                rw [Nat.add_zero, hfirst j hj, Delivery.store_apply d buf hj, if_pos rfl]
            | succ k =>
                have hsame := hrest k e he j hj
                rw [Nat.add_right_comm, Nat.add_assoc m k 1] at hsame
                rw [hsame, if_neg k.succ_ne_zero]
                cases k with
                | zero => rw [if_pos rfl, ← hfirst j hj]; rfl
                | succ k => rw [if_neg k.succ_ne_zero]
          · rintro ⟨hlen, hall⟩
            have hfirst (j : ℕ) (hj : j < bufferSize) :
                recordByte content m j = d.store buf j := by
              have hzero := hall 0 d rfl j hj
              rwa [Nat.add_zero, if_pos rfl, ← Delivery.store_apply d buf hj] at hzero
            refine ⟨hfirst, hlen, fun k e he j hj => ?_⟩
            have hsame := hall (k + 1) e he j hj
            rw [Nat.add_right_comm, Nat.add_assoc m k 1, hsame, if_neg k.succ_ne_zero]
            cases k with
            | zero => rw [if_pos rfl, ← hfirst j hj]; rfl
            | succ k => rw [if_neg k.succ_ne_zero]

/-- Behind the loop there is one read, unless the size has come down to zero. -/
theorem Volume.length_tailDelivery (v : Volume) (fsize : ℤ) :
    (v.tailDelivery fsize).length = if fsize ≠ 0 then 1 else 0 := by
  rw [tailDelivery]
  split <;> rfl

/-- A loop over a size that is not negative makes one read for each full or partial record. -/
theorem Volume.length_deliveries (n : ℕ) (v : Volume) {fsize : ℤ} (h₀ : 0 ≤ fsize)
    (hn : fsize.toNat / bufferSize = n) :
    (v.deliveries n fsize).length = (fsize.toNat + (bufferSize - 1)) / bufferSize := by
  induction n generalizing v fsize with
  | zero =>
      rw [deliveries, length_tailDelivery]
      simp only [bufferSize] at hn ⊢
      split <;> omega
  | succ n ih =>
      have hsize : fsize ≥ bufferSize := by
        simp only [bufferSize] at hn ⊢
        omega
      rw [deliveries, if_pos hsize, List.length_cons,
        ih _ (Int.sub_nonneg_of_le hsize) (by simp only [bufferSize] at hn hsize ⊢; omega)]
      simp only [bufferSize] at hsize ⊢
      omega

/-- The reads `boot_from_fs` makes are as many as the size says. -/
theorem Volume.length_bootDeliveries (v : Volume) : v.bootDeliveries.length = v.bootReads := by
  rw [bootDeliveries, bootReads]
  by_cases hneg : v.bootSize < 0
  · have hn : v.bootSize.toNat / bufferSize = 0 := by
      rw [Int.toNat_of_nonpos (Int.le_of_lt hneg), Nat.zero_div]
    have hne : v.bootSize ≠ 0 := by omega
    rw [if_pos hneg, hn, deliveries, length_tailDelivery, if_pos hne]
  · rw [if_neg hneg]
    exact length_deliveries _ _ (by omega) rfl

/-- What is programmed are the records of a file exactly when the answers deliver it. -/
theorem bootImages_eq_iff (s : Machine) (content : List UInt8) :
    s.bootImages = fileRecords content ↔ s.volume.DeliversFile content := by
  rw [Machine.bootImages, fileRecords, List.range_eq_range', images_eq_iff,
    Volume.length_bootDeliveries]
  have hbyte : (∀ k d, s.volume.bootDeliveries[k]? = some d → ∀ j < bufferSize,
        recordByte content (0 + k) j =
          if j < d.bytes.length then d.bytes.getD j 0
          else if d.cleared then 0
          else if k = 0 then zeroed s.blBuffer j
          else recordByte content (0 + k - 1) j) ↔
      ∀ k d, s.volume.bootDeliveries[k]? = some d → ∀ j < bufferSize,
        recordByte content k j =
          if j < d.bytes.length then d.bytes.getD j 0
          else if d.cleared ∨ k = 0 then 0
          else recordByte content (k - 1) j := by
    refine forall₅_congr fun k d _ j hj => ?_
    rw [Nat.zero_add, zeroed, if_pos hj]
    by_cases hcleared : d.cleared = true <;> by_cases hk : k = 0 <;> simp [hcleared, hk]
  rw [hbyte]
  exact ⟨fun h => ⟨h.1, h.2⟩, fun h => ⟨h.reads, h.bytes⟩⟩

/-! ### When a success means a replay -/

/-- No read overruns the packet buffer, and a reported success means that `/boot` has been
replayed. -/
structure Replays (s : Machine) : Prop where
  inBounds : ∀ i t, bootFromFs s ≠ .error (.overrun i) t
  replayed : ∀ t, bootFromFs s = .ok successed t →
    Replayed (fileRecords s.lfs.disk.bootContent) s t

/-- However `boot_from_fs` ends, what it has programmed by then are words of the records of
`/boot`, in their order. -/
def ProgramsOnlyFile (s : Machine) : Prop :=
  Begins (eraseCommands ++ (fileRecords s.lfs.disk.bootContent).flatMap recordCommands) s
    (after (bootFromFs s))

/-- The machine with other answers of the hardware to the ISP commands. -/
def Machine.withIsp (s : Machine) (isp : ℕ → IspCommand → IspVerdict) : Machine :=
  { s with verdicts := { s.verdicts with isp := isp } }

/-- Then what was programmed are the records of the file. -/
theorem images_of_replays (h : Replays s) (hs : s.BootSucceeds) :
    s.bootImages = fileRecords s.lfs.disk.bootContent := by
  obtain ⟨t, hrun, hcarries⟩ := bootFromFs_of_succeeds hs
  exact hcarries.records_eq (fun _ => length_of_mem_images)
    (fun _ => length_of_mem_fileRecords) (h.replayed t hrun)

/-- Reads that fit the buffer do not leave it. -/
theorem bootFromFs_inBounds (hfits : Carried s.verdicts.isp eraseCommands → s.volume.Opens →
    s.volume.Fits) (i : ℕ) (t : Machine) : bootFromFs s ≠ .error (.overrun i) t := by
  intro hover
  rcases bootFromFs_cases s with ⟨-, u, hrun, -⟩ | ⟨-, u, hrun, -⟩ | ⟨herase, hnot, -⟩
  · rw [hover] at hrun
    cases hrun
  · rw [hover] at hrun
    cases hrun
  · have hopens : ¬ s.volume.Opens := fun h => hnot ⟨h, hfits herase h⟩
    obtain ⟨u, hrun, -⟩ := bootFromFs_openFails herase hopens
    rw [hover] at hrun
    cases hrun

/-- For one pattern of failures of the hardware. -/
theorem replays_iff_carried : Replays s ↔
    (Carried s.verdicts.isp eraseCommands → s.volume.Opens → s.volume.Fits ∧
      (Carried s.verdicts.isp (eraseCommands ++ s.bootCommands) →
        s.volume.DeliversFile s.lfs.disk.bootContent)) := by
  constructor
  · intro h herase hopens
    have hfits : s.volume.Fits := by
      by_contra hnot
      obtain ⟨t, hrun⟩ := bootFromFs_overruns herase hopens hnot
      exact h.inBounds _ t hrun
    exact ⟨hfits, fun hcarried =>
      (bootImages_eq_iff s _).mp (images_of_replays h ⟨hopens, hfits, hcarried⟩)⟩
  · intro h
    refine ⟨bootFromFs_inBounds fun herase hopens => (h herase hopens).1, fun t hrun => ?_⟩
    obtain ⟨hopens, hfits, hcarried⟩ := succeeds_of_bootFromFs hrun
    have hdelivers := (h (carried_append.mp hcarried).1 hopens).2 hcarried
    obtain ⟨u, hrun', hcarries⟩ := bootFromFs_of_succeeds ⟨hopens, hfits, hcarried⟩
    rw [hrun] at hrun'
    cases hrun'
    rw [Machine.bootCommands, (bootImages_eq_iff s _).mpr hdelivers] at hcarries
    exact hcarries.replayed

/-- **Replay**, for every state of the machine, every behaviour of LittleFS and every pattern
of failures of the hardware. Whatever the hardware does, a reported success means that `/boot`
has been replayed, and nothing but `/boot` is ever programmed, if and only if `lfs_file_open`
fails or the answers to the calls after it deliver the file, in reads that fit the buffer. Under
one pattern of failures, the commands that fail before the end excuse the answers. -/
theorem replays_iff (s : Machine) :
    ((∀ isp, Replays (s.withIsp isp) ∧ ProgramsOnlyFile (s.withIsp isp)) ↔
      (s.volume.Opens → s.volume.Fits ∧ s.volume.DeliversFile s.lfs.disk.bootContent)) ∧
    (Replays s ↔
      (Carried s.verdicts.isp eraseCommands → s.volume.Opens → s.volume.Fits ∧
        (Carried s.verdicts.isp (eraseCommands ++ s.bootCommands) →
          s.volume.DeliversFile s.lfs.disk.bootContent))) := by
  refine ⟨⟨fun h hopens => ?_, fun h isp => ⟨?_, ?_⟩⟩, replays_iff_carried⟩
  · have hdone := replays_iff_carried.mp (h fun _ _ => .done).1
      (carried_of_forall fun _ _ _ => rfl) hopens
    exact ⟨hdone.1, hdone.2 (carried_of_forall fun _ _ _ => rfl)⟩
  · exact replays_iff_carried.mpr fun _ hopens =>
      ⟨(h hopens).1, fun _ => (h hopens).2⟩
  · exact bootFromFs_begins (s := s.withIsp isp) fun _ hopens =>
      ⟨(h hopens).1, congrArg (List.flatMap recordCommands)
        ((bootImages_eq_iff (s.withIsp isp) _).mpr (h hopens).2)⟩

/-! ### A LittleFS that behaves as documented -/

/-- Every call on the volume goes as documented. -/
def Volume.Documented (v : Volume) : Prop := ∀ n c, v.answers n c = .asDocumented

section Documented

variable {v : Volume} {f : LfsFile}

/-- The calls that are left go as documented, too. -/
theorem Volume.Documented.next {ρ : Type} (h : v.Documented) (c : LfsCall)
    (act : Lfs → LfsVerdict → ρ × Lfs) : (v.next c act).Documented :=
  fun n c' => h (n + 1) c'

/-- A read delivers what comes next in the file, and moves on. -/
theorem Volume.Documented.fileRead (h : v.Documented) (hfile : v.lfs.file = some f) (size : ℕ) :
    let bytes := (f.content.1.drop f.pos).take size
    (v.ret (.fileRead size) (Lfs.fileRead size)).2 = bytes ∧
      (v.next (.fileRead size) (Lfs.fileRead size)).lfs.file =
        some { f with pos := f.pos + bytes.length } := by
  simp [Volume.ret, Volume.next, Lfs.fileRead, h 0, hfile]

/-- The loop over what is left of the file. -/
theorem images_deliveries (n : ℕ) {rest : List UInt8} (h : v.Documented)
    (hfile : v.lfs.file = some f) (hrest : f.content.1.drop f.pos = rest)
    (hn : rest.length / bufferSize = n) (buf : ℕ → UInt8) :
    images (v.deliveries n rest.length) buf = fileRecords rest := by
  induction n generalizing v f rest buf with
  | zero =>
      have hlt : rest.length < bufferSize := by
        simp only [bufferSize] at hn ⊢
        omega
      rw [Volume.deliveries, Volume.tailDelivery]
      by_cases hne : rest = []
      · subst hne
        rfl
      · have hsize : (rest.length : ℤ) ≠ 0 := by simpa using hne
        have hall : toLfsSize rest.length = rest.length := by
          simp only [toLfsSize, bufferSize] at hlt ⊢
          omega
        rw [if_pos hsize, hall, (h.fileRead hfile rest.length).1, hrest, List.take_length,
          fileRecords_of_lt hlt hne, images, images]
        have hstore : Delivery.store ⟨true, rest⟩ buf = overlay (zeroed buf) 0 rest := rfl
        refine congrArg (· :: []) (slice_congr fun j hj => ?_)
        rw [hstore, Nat.zero_add]
        by_cases hin : j < rest.length
        · rw [overlay_zero_apply hin]
          exact List.getElem_eq_getD 0
        · rw [overlay_apply_of_le (by omega), zeroed, if_pos hj, List.getD_eq_getElem?_getD,
            List.getElem?_eq_none (by omega)]
          rfl
  | succ n ih =>
      have hle : bufferSize ≤ rest.length := by
        simp only [bufferSize] at hn ⊢
        omega
      have hlen : (rest.take bufferSize).length = bufferSize := by
        rw [List.length_take, Nat.min_eq_left hle]
      obtain ⟨hread, hmoved⟩ := h.fileRead hfile bufferSize
      rw [hrest] at hread hmoved
      have hrest' : (f.content.1).drop (f.pos + (rest.take bufferSize).length) =
          rest.drop bufferSize := by
        rw [hlen, ← List.drop_drop, hrest]
      have hsize : (rest.length : ℤ) ≥ (bufferSize : ℕ) := by omega
      have hleft : (rest.length : ℤ) - (bufferSize : ℕ) = ((rest.drop bufferSize).length : ℕ) := by
        rw [List.length_drop]
        omega
      rw [Volume.deliveries, if_pos hsize, hread, hleft, images, fileRecords_of_le hle,
        ih (h.next _ _) hmoved hrest' (by
          rw [List.length_drop]
          simp only [bufferSize] at hn ⊢
          omega)]
      have hstored := slice_overlay buf 0 (rest.take bufferSize)
      rw [hlen] at hstored
      exact congrArg (· :: _) hstored

/-- The mount sequence ends mounted, on a disk that was formatted if it had to be. -/
theorem mountOrFormat_documented (h : v.Documented) :
    v.mountOrFormat.Documented ∧ v.mountOrFormat.lfs = ⟨v.lfs.disk.mountable, true, none⟩ := by
  rw [Volume.mountOrFormat]
  cases hdisk : v.lfs.disk with
  | unformatted =>
      have hret : v.ret .mount Lfs.mount ≠ 0 := by
        simp [Volume.ret, Lfs.mount, h 0, hdisk, lfsErrCorrupt]
      rw [if_pos hret]
      refine ⟨((h.next _ _).next _ _).next _ _, ?_⟩
      simp [Volume.next, Lfs.mount, Lfs.format, h 1, h 2, Disk.mountable]
  | formatted b =>
      have hret : ¬ v.ret .mount Lfs.mount ≠ 0 := by
        simp [Volume.ret, Lfs.mount, h 0, hdisk]
      rw [if_neg hret]
      refine ⟨h.next _ _, ?_⟩
      simp [Volume.next, Lfs.mount, h 0, hdisk, Disk.mountable]

/-- Opening `/boot` for reading finds the file of the disk. -/
theorem bootOpened_documented (h : v.Documented) :
    v.Opens ∧ v.bootOpened.Documented ∧
      ∃ b, v.bootOpened.lfs.file = some ⟨bootReadFlags, 0, b, false, false⟩ ∧
        b.1 = v.lfs.disk.bootContent := by
  obtain ⟨hdoc, hlfs⟩ := mountOrFormat_documented h
  rw [Volume.Opens, Volume.bootOpened]
  refine ⟨?_, hdoc.next _ _, ?_⟩
  · rcases hdisk : v.lfs.disk with _ | _ | b <;>
      simp [Volume.ret, Lfs.fileOpen, hdoc 0, hlfs, hdisk, Disk.mountable, bootReadFlags]
  · rcases hdisk : v.lfs.disk with _ | _ | b <;>
      simp [Volume.next, Lfs.fileOpen, hdoc 0, hlfs, hdisk, Disk.mountable, bootReadFlags,
        Disk.bootContent, FileData.empty]

/-- The size is that of the file. -/
theorem bootSize_documented (h : v.Documented) :
    v.bootSize = v.lfs.disk.bootContent.length := by
  obtain ⟨-, hdoc, b, hfile, hb⟩ := bootOpened_documented h
  rw [Volume.bootSize, Volume.ret, hdoc 0, ← hb]
  simp [Lfs.fileSize, hfile]

/-- A documented LittleFS delivers the file, in reads that fit the buffer. -/
theorem bootImages_of_documented {s : Machine} (h : s.volume.Documented) :
    s.volume.Opens ∧ s.volume.Fits ∧ s.bootImages = fileRecords s.lfs.disk.bootContent := by
  obtain ⟨hopens, hdoc, b, hfile, hb⟩ := bootOpened_documented h
  have hsize := bootSize_documented h
  have hfile' : (s.volume.bootOpened.next .fileSize Lfs.fileSize).lfs.file =
      some ⟨bootReadFlags, 0, b, false, false⟩ := by
    rw [Volume.next, hdoc 0]
    exact hfile
  refine ⟨hopens, Volume.bootDeliveries_fit (by rw [hsize]; omega), ?_⟩
  rw [Machine.bootImages, Volume.bootDeliveries, hsize]
  exact images_deliveries _ (hdoc.next _ _) hfile' hb rfl _

/-- Under a documented LittleFS a reported success means a replay, whatever the hardware
does. -/
theorem replays_of_documented {s : Machine} (h : s.volume.Documented) : Replays s := by
  obtain ⟨-, hfits, himages⟩ := bootImages_of_documented h
  exact replays_iff_carried.mpr fun _ _ =>
    ⟨hfits, fun _ => (bootImages_eq_iff s _).mp himages⟩

end Documented

/-! ### A read that fails -/

/-- A file of two records. -/
def twoRecords : FileData :=
  ⟨firstPage.bytes ++ lastPage.bytes, by
    rw [List.length_append, firstPage.size, lastPage.size]
    decide⟩

/-- A machine whose second `lfs_file_read` (the call after the mount, the open, the size and
the first read) fails with `LFS_ERR_IO` and delivers nothing. -/
def failingRead : Machine :=
  { Machine.connected [] (.formatted (some twoRecords)) .blank with
    verdicts := {
      isp := fun _ _ => .done
      lfs := fun n _ =>
        if n = 4 then .deviates (-5) (.formatted (some twoRecords)) .empty else .asDocumented } }

/-- Success is reported, and the first record was programmed in the place of the second. -/
theorem failingRead_programs_again : failingRead.BootSucceeds ∧ ¬ Replays failingRead := by
  have himages : failingRead.bootImages.map (·.getD 4 0) = [0x5A, 0x5A] := by decide +kernel
  have hrecords : (fileRecords twoRecords.1).map (·.getD 4 0) = [0x5A, 0xC3] := by decide +kernel
  have hsize : failingRead.volume.bootSize = 1032 := by decide +kernel
  have hopens : failingRead.volume.Opens := by
    rw [Volume.Opens]
    rfl
  have hsucceeds : failingRead.BootSucceeds :=
    ⟨hopens, Volume.bootDeliveries_fit (by rw [hsize]; decide),
      carried_of_forall fun _ _ _ => rfl⟩
  refine ⟨hsucceeds, fun h => ?_⟩
  have hcontent : failingRead.lfs.disk.bootContent = twoRecords.1 := rfl
  have hsame := congrArg (List.map (·.getD 4 0)) (images_of_replays h hsucceeds)
  rw [himages, hcontent, hrecords] at hsame
  revert hsame
  decide

end Num487Boot
