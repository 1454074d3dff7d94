import Num487Boot.Footprint

/-!
# What LittleFS Delivers to boot_from_fs

The external flash as `boot_from_fs` meets it, apart from any program: a `Volume` is the
LittleFS instance together with its answers to the calls to come. `Volume.bootDeliveries`
lists what the successive `lfs_file_read`s put into the packet buffer, and `programmed`
the addresses of the records found there. The conditions on the external flash that later
results need are stated on these lists, before anything has run.
-/

namespace Num487Boot

open Exec Memory

/-- A delivery of `lfs_file_read`: the bytes it puts into the buffer, and whether the
buffer was cleared before. -/
structure Delivery where
  cleared : Bool
  bytes : List UInt8

/-- The buffer after a delivery. -/
def Delivery.store (d : Delivery) (buf : ℕ → UInt8) : ℕ → UInt8 :=
  overlay (if d.cleared then zeroed buf else buf) 0 d.bytes

namespace Volume

/-- After the mount sequence. -/
def mountOrFormat (v : Volume) : Volume :=
  let w := v.next .mount Lfs.mount
  if v.ret .mount Lfs.mount ≠ 0 then (w.next .format Lfs.format).next .mount Lfs.mount else w

/-- What the part of `boot_from_fs` after its loop reads. -/
def tailDelivery (fsize : ℤ) (v : Volume) : List Delivery :=
  if fsize ≠ 0 then
    [⟨true, (v.ret (.fileRead (toLfsSize fsize)) (Lfs.fileRead (toLfsSize fsize))).2⟩]
  else []

/-- What a loop over `fsize` bytes with at most `n` passes reads, and its tail. -/
def deliveries : ℕ → ℤ → Volume → List Delivery
  | 0, fsize, v => v.tailDelivery fsize
  | n + 1, fsize, v =>
      if fsize ≥ bufferSize then
        ⟨false, (v.ret (.fileRead bufferSize) (Lfs.fileRead bufferSize)).2⟩ ::
          deliveries n (fsize - bufferSize)
            (v.next (.fileRead bufferSize) (Lfs.fileRead bufferSize))
      else v.tailDelivery fsize

/-- The volume when `/boot` has been opened for reading. -/
def bootOpened (v : Volume) : Volume :=
  v.mountOrFormat.next (.fileOpen bootReadFlags) (Lfs.fileOpen bootReadFlags)

/-- The size `boot_from_fs` sees. -/
def bootSize (v : Volume) : ℤ := v.bootOpened.ret .fileSize Lfs.fileSize

/-- What `boot_from_fs` reads. -/
def bootDeliveries (v : Volume) : List Delivery :=
  (v.bootOpened.next .fileSize Lfs.fileSize).deliveries (v.bootSize.toNat / bufferSize) v.bootSize

end Volume

/-- The addresses at which the records of a list of deliveries are programmed, starting
from a buffer. -/
def programmed : List Delivery → (ℕ → UInt8) → List UInt32
  | [], _ => []
  | d :: ds, buf => leWord (d.store buf) 0 :: programmed ds (d.store buf)

/-- The deliveries stay inside the buffer, and the addresses of their records satisfy
`A`. -/
def Acceptable (A : UInt32 → Prop) (ds : List Delivery) (buf : ℕ → UInt8) : Prop :=
  (∀ d ∈ ds, d.bytes.length ≤ bufferSize) ∧ ∀ addr ∈ programmed ds buf, A addr

instance {A : UInt32 → Prop} [DecidablePred A] (ds : List Delivery) (buf : ℕ → UInt8) :
    Decidable (Acceptable A ds buf) :=
  -- by a walk over the two lists, not over all addresses
  @instDecidableAnd _ _ (List.decidableBAll _ _) (List.decidableBAll _ _)

/-- The first delivery is acceptable. -/
theorem Acceptable.head {A : UInt32 → Prop} {d : Delivery} {ds : List Delivery}
    {buf : ℕ → UInt8} (h : Acceptable A (d :: ds) buf) :
    d.bytes.length ≤ bufferSize ∧ A (leWord (d.store buf) 0) :=
  ⟨h.1 d List.mem_cons_self, h.2 _ List.mem_cons_self⟩

/-- The deliveries after an acceptable one are acceptable from the buffer it leaves. -/
theorem Acceptable.tail {A : UInt32 → Prop} {d : Delivery} {ds : List Delivery}
    {buf : ℕ → UInt8} (h : Acceptable A (d :: ds) buf) : Acceptable A ds (d.store buf) :=
  ⟨fun e he => h.1 e (List.mem_cons_of_mem d he), fun a ha => h.2 a (List.mem_cons_of_mem _ ha)⟩

/-! ### Deliveries of a well-behaved volume -/

/-- A read delivers at most what it was asked for. -/
theorem length_fileRead_le (size : ℕ) (l : Lfs) (v : LfsVerdict) :
    (Lfs.fileRead size l v).1.2.length ≤ size := by
  cases v with
  | asDocumented =>
      cases h : l.file with
      | none => simp [Lfs.fileRead, h]
      | some f => simp [Lfs.fileRead, h]
  | deviates ret disk data => simp [Lfs.fileRead]

/-- A remainder below a record fits the buffer. -/
theorem Volume.tailDelivery_fits {v : Volume} {fsize : ℤ} (h₀ : 0 ≤ fsize)
    (h₁ : fsize < bufferSize) :
    ∀ d ∈ v.tailDelivery fsize, d.bytes.length ≤ bufferSize := by
  intro d hd
  rw [tailDelivery] at hd
  split at hd
  · obtain rfl := List.mem_singleton.mp hd
    refine Nat.le_trans (length_fileRead_le _ _ _) ?_
    simp only [toLfsSize, bufferSize] at h₁ ⊢
    omega
  · cases hd

/-- A loop with enough passes for the size reads what fits the buffer. -/
theorem Volume.deliveries_fit {n : ℕ} {v : Volume} {fsize : ℤ} (h₀ : 0 ≤ fsize)
    (h₁ : fsize < (n + 1 : ℕ) * bufferSize) :
    ∀ d ∈ v.deliveries n fsize, d.bytes.length ≤ bufferSize := by
  induction n generalizing v fsize with
  | zero => exact tailDelivery_fits h₀ (by simpa using h₁)
  | succ n ih =>
      rw [deliveries]
      split
      · rename_i hsize
        rw [List.forall_mem_cons]
        simp only [bufferSize] at h₁ hsize
        refine ⟨length_fileRead_le _ _ _, ih ?_ ?_⟩ <;> simp only [bufferSize] <;> omega
      · exact tailDelivery_fits h₀ (by omega)

/-- Unless `lfs_file_size` returns a negative value, what `boot_from_fs` reads fits the
buffer. -/
theorem Volume.bootDeliveries_fit {v : Volume} (h : 0 ≤ v.bootSize) :
    ∀ d ∈ v.bootDeliveries, d.bytes.length ≤ bufferSize := by
  refine deliveries_fit h ?_
  simp only [bufferSize]
  omega

/-! ### The mount sequence of a machine -/

/-- The volume after the mount sequence of the machine. -/
theorem volume_afterMount (s : Machine) : s.afterMount.volume = s.volume.mountOrFormat := by
  rw [Machine.afterMount, Volume.mountOrFormat]
  split <;> rfl

/-- Mounting leaves the packet buffer. -/
theorem blBuffer_afterMount (s : Machine) : s.afterMount.blBuffer = s.blBuffer := by
  rw [Machine.afterMount]
  split <;> rfl

end Num487Boot
