import Mathlib.Data.Int.Notation
import Mathlib.Data.Nat.Notation

/-!
# LittleFS, as the Bootloader Sees It

The bootloader drives one LittleFS instance (`lfs_w25q128jv`), one file handle
(`lfs_file_w25q128jv`) and one path (`/boot`). This module models the API layer of
`Middleware/LittleFS/lfs.c` on that instance: the open list `lfs->mlist` (which `lfs_init`
resets), the handle's flags, position and content, the `LFS_ASSERT`s, and the documented
effect of every call on the file `/boot`. The block-level internals are abstracted to the
durable content of the disk.

Each call also receives a verdict of its surroundings. `LfsVerdict.asDocumented` is the
documented behaviour; `LfsVerdict.deviates` is any failure of the device below: an
arbitrary return value, an arbitrary durable content left behind, and arbitrary data
(the bytes put into the caller's buffer by a read, the content of the open file after a
write). The front-end bookkeeping, the open list, follows the source in both cases.
-/

namespace Num487Boot

/-- `LFS_ERR_CORRUPT` -/
def lfsErrCorrupt : ℤ := -84
/-- `LFS_ERR_NOENT` -/
def lfsErrNoent : ℤ := -2
/-- `LFS_ERR_FBIG` -/
def lfsErrFbig : ℤ := -27

/-- `LFS_FILE_MAX`, which is also `lfs->file_max` for this configuration. -/
def lfsFileMax : ℕ := 2147483647

/-- The content of a file: LittleFS keeps it within `LFS_FILE_MAX`. -/
abbrev FileData := {bytes : List UInt8 // bytes.length ≤ lfsFileMax}

/-- The content of a file nothing has been written to. -/
def FileData.empty : FileData := ⟨[], Nat.zero_le _⟩

/-- What the external flash holds durably: no mountable file system, or one with the
file `/boot` present or absent. -/
inductive Disk
  | unformatted
  | formatted (boot : Option FileData)
  deriving DecidableEq

/-- The `LFS_O_*` flags the bootloader uses. -/
structure OpenFlags where
  rdonly : Bool
  wronly : Bool
  creat : Bool
  append : Bool
  deriving DecidableEq

/-- An open handle. `dirty` stands for `LFS_F_WRITING` or `LFS_F_DIRTY`: content not yet
committed to the disk; `erred` for `LFS_F_ERRED`. -/
structure LfsFile where
  flags : OpenFlags
  pos : ℕ
  content : FileData
  dirty : Bool
  erred : Bool
  deriving DecidableEq

/-- The instance: the disk below it, whether it is mounted, and its open list, which is
empty or holds the one handle. -/
structure Lfs where
  disk : Disk
  mounted : Bool
  file : Option LfsFile
  deriving DecidableEq

/-- A LittleFS call of the bootloader, with the arguments that matter. -/
inductive LfsCall
  | mount | format | unmount | remove
  | fileOpen (flags : OpenFlags)
  | fileClose | fileRewind
  | fileWrite (size : ℕ)
  | fileSize
  | fileRead (size : ℕ)
  deriving DecidableEq

/-- How a call goes: as documented, or in any other way. -/
inductive LfsVerdict
  | asDocumented
  | deviates (ret : ℤ) (disk : Disk) (data : FileData)

/-- The `LFS_ASSERT`s a call passes before it does anything: `lfs_mlist_isopen`, and the
access mode of a read or a write. -/
def LfsCall.asserts (l : Lfs) : LfsCall → Bool
  | .fileOpen _ => l.file.isNone
  | .fileClose => l.file.isSome
  | .fileSize => l.file.isSome
  | .fileRead _ => l.file.any (·.flags.rdonly)
  | .fileWrite _ => l.file.any (·.flags.wronly)
  | _ => true

/-- `lfs_file_rawwrite` on an open handle: with `LFS_O_APPEND` the position is moved to the
end of the file first; a write past `lfs->file_max` returns `LFS_ERR_FBIG`. -/
def LfsFile.write (f : LfsFile) (bytes : List UInt8) : ℤ × LfsFile :=
  let size := f.content.1.length
  let pos := if f.flags.append ∧ f.pos < size then size else f.pos
  let filled := f.content.1 ++ List.replicate (pos - size) 0
  let content := filled.take pos ++ bytes ++ filled.drop (pos + bytes.length)
  if h : content.length ≤ lfsFileMax then
    (bytes.length,
      { f with pos := pos + bytes.length, content := ⟨content, h⟩, dirty := true, erred := false })
  else (lfsErrFbig, f)

namespace Lfs

/-- `lfs_mount`: `lfs_init` empties the open list, then the superblock is looked up. -/
def mount (l : Lfs) : LfsVerdict → ℤ × Lfs
  | .asDocumented =>
      match l.disk with
      | .unformatted => (lfsErrCorrupt, { l with mounted := false, file := none })
      | .formatted _ => (0, { l with mounted := true, file := none })
  | .deviates ret disk _ => (ret, { disk := disk, mounted := ret == 0, file := none })

/-- `lfs_format`: `lfs_init`, a new superblock, `lfs_deinit`. -/
def format (_ : Lfs) : LfsVerdict → ℤ × Lfs
  | .asDocumented => (0, { disk := .formatted none, mounted := false, file := none })
  | .deviates ret disk _ => (ret, { disk := disk, mounted := false, file := none })

/-- `lfs_unmount`: `lfs_deinit`, which leaves the open list alone. -/
def unmount (l : Lfs) : LfsVerdict → ℤ × Lfs
  | .asDocumented => (0, { l with mounted := false })
  | .deviates ret disk _ => (ret, { l with disk := disk, mounted := false })

/-- `lfs_remove` of `/boot`. -/
def remove (l : Lfs) : LfsVerdict → ℤ × Lfs
  | .asDocumented =>
      match l.disk with
      | .unformatted => (lfsErrCorrupt, l)
      | .formatted none => (lfsErrNoent, l)
      | .formatted (some _) => (0, { l with disk := .formatted none })
  | .deviates ret disk _ => (ret, { l with disk := disk })

/-- `lfs_file_open` of `/boot`: a failing open leaves the handle off the open list
(`lfs_file_rawclose` in its cleanup), a new file is committed at once. -/
def fileOpen (flags : OpenFlags) (l : Lfs) : LfsVerdict → ℤ × Lfs
  | .asDocumented =>
      match l.disk with
      | .unformatted => (lfsErrCorrupt, { l with file := none })
      | .formatted none =>
          if flags.creat then
            (0, { l with
              disk := .formatted (some .empty)
              file := some ⟨flags, 0, .empty, false, false⟩ })
          else (lfsErrNoent, { l with file := none })
      | .formatted (some b) => (0, { l with file := some ⟨flags, 0, b, false, false⟩ })
  | .deviates ret disk data =>
      (ret, { l with
        disk := disk
        file := if ret = 0 then some ⟨flags, 0, data, false, false⟩ else none })

/-- `lfs_file_close`: `lfs_file_rawsync` commits unless the file has erred, and the handle
leaves the open list whatever it returned. -/
def fileClose (l : Lfs) : LfsVerdict → ℤ × Lfs
  | .asDocumented =>
      match l.file with
      | none => (0, l)
      | some f =>
          if f.dirty && !f.erred then
            (0, { l with disk := .formatted (some f.content), file := none })
          else (0, { l with file := none })
  | .deviates ret disk _ => (ret, { l with disk := disk, file := none })

/-- `lfs_file_rewind`: the position goes back to the start. It asserts nothing. -/
def fileRewind (l : Lfs) : LfsVerdict → ℤ × Lfs
  | .asDocumented => (0, { l with file := l.file.map ({ · with pos := 0 }) })
  | .deviates ret disk _ => (ret, { l with disk := disk })

/-- `lfs_file_write`. A deviating write that returns an error sets `LFS_F_ERRED`. -/
def fileWrite (bytes : List UInt8) (l : Lfs) : LfsVerdict → ℤ × Lfs
  | .asDocumented =>
      match l.file with
      | none => (0, l)
      | some f =>
          let r := f.write bytes
          (r.1, { l with file := some r.2 })
  | .deviates ret disk data =>
      (ret, { l with
        disk := disk
        file := l.file.map fun f =>
          { f with pos := data.1.length, content := data, dirty := true, erred := ret < 0 } })

/-- `lfs_file_size`. -/
def fileSize (l : Lfs) : LfsVerdict → ℤ × Lfs
  | .asDocumented => (l.file.elim 0 (fun f => f.content.1.length), l)
  | .deviates ret disk _ => (ret, { l with disk := disk })

/-- `lfs_file_read` of at most `size` bytes: the return value, the bytes put into the
caller's buffer, and the instance after it. -/
def fileRead (size : ℕ) (l : Lfs) : LfsVerdict → (ℤ × List UInt8) × Lfs
  | .asDocumented =>
      match l.file with
      | none => ((0, []), l)
      | some f =>
          let bytes := (f.content.1.drop f.pos).take size
          ((bytes.length, bytes),
            { l with file := some { f with pos := f.pos + bytes.length } })
  | .deviates ret disk data => ((ret, data.1.take size), { l with disk := disk })

end Lfs

end Num487Boot
