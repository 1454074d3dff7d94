import Num487Boot.LfsCtz

/-!
# Reading a File

An open file that is only read, and is not inline: reads, seeks and the position, through the
cache of the file. To its user the file is its content and a cursor.

A seek that stays in the block of the position and in the cache moves the cursor without
dropping what was read. It compares the index of the old position with that of the new one; at
a position where a block starts, the file may still be at the end of the block before, and such
a seek is told the wrong block (`Cursor.Legal`).

## Main results

* `lfsFileFlushedread_spec`: a read returns the bytes from the position on, up to the end.
* `lfsFile_cursor`: over any run of calls, the file is a cursor over its content.
-/

namespace Num487Boot

open Exec Memory Runs

/-- `LFS_ERR_INVAL` -/
def lfsErrInval : ℤ := -22

/-- What `lfs_file_t` has of a file that is not inline: the list, the position, and the block
and offset it was found at, if `LFS_F_READING` is set. -/
structure CtzFile where
  head : ℕ
  size : ℕ
  pos : ℕ
  reading : Bool
  block : ℕ
  off : ℕ

/-- The open file, and what its reads work on: the device and the cache of the file, as the read
cache of every operation. The program cache is the null pointer. -/
structure LfsReader (δ : Type) where
  file : CtzFile
  bd : LfsBd δ

/-- `LFS_SEEK_SET`, `LFS_SEEK_CUR` and `LFS_SEEK_END`. -/
inductive Whence
  | set | cur | fromEnd
  deriving DecidableEq

section Programs

variable {δ : Type} (c : LfsSetup δ)

/-- Code that works on the caches and the device only. -/
def onBd {α : Type} : LfsProg (LfsBd δ) α → LfsProg (LfsReader δ) α :=
  zoom LfsReader.bd fun bd s => { s with bd := bd }

/-- A new block is found, if one is needed. -/
def findBlock : LfsProg (LfsReader δ) Unit := do
  let s ← get
  if s.file.reading = false ∨ s.file.off = c.blockSize then do
    let r ← onBd (lfsCtzFind c false s.file.head s.file.size s.file.pos)
    modify fun s => { s with file := { s.file with block := r.1, off := r.2, reading := true } }
  else pure ()

/-- The loop of `lfs_file_flushedread`. -/
def lfsFileFlushedreadLoop : ℕ → ℕ → LfsProg (LfsReader δ) (List UInt8)
  | 0, _ => throw .endless
  | fuel + 1, nsize =>
      if nsize = 0 then pure []
      else do
        findBlock c
        let s ← get
        let diff := min nsize (c.blockSize - s.file.off)
        let data ← onBd (bdRead c false c.blockSize s.file.block s.file.off diff)
        modify fun s => { s with
          file := { s.file with pos := s.file.pos + diff, off := s.file.off + diff } }
        let rest ← lfsFileFlushedreadLoop fuel (nsize - diff)
        pure (data ++ rest)

/-- The bytes read; their number is what the source returns. -/
def lfsFileFlushedread (size : ℕ) : LfsProg (LfsReader δ) (List UInt8) := do
  let s ← get
  if s.file.pos ≥ s.file.size then pure []
  else do
    let nsize := min size (s.file.size - s.file.pos)
    lfsFileFlushedreadLoop c (nsize + 1) nsize

/-- The part of `lfs_file_flush` for a file that was not written to. -/
def lfsFileFlush : LfsProg (LfsReader δ) Unit :=
  modify fun s =>
    if s.file.reading then
      { file := { s.file with reading := false }
        bd := { s.bd with rcache := lfsCacheDrop s.bd.rcache } }
    else s

/-- The new position, if it is one. -/
def seekPos (file : CtzFile) (off : ℤ) : Whence → Option ℕ
  | .set => some (u32 off)
  | .cur => if file.pos + off < 0 then none else some (u32 (file.pos + off))
  | .fromEnd => if file.size + off < 0 then none else some (u32 (file.size + off))

/-- `lfs_file_rawseek` -/
def lfsFileRawseek (off : ℤ) (whence : Whence) : LfsProg (LfsReader δ) ℕ := do
  let s ← get
  match seekPos s.file off whence with
  | none => throw (.err lfsErrInval)
  | some npos =>
      if npos > lfsFileMax then throw (.err lfsErrInval)
      else if s.file.pos = npos then pure npos
      else do
        let oindex := (lfsCtzIndex c.toLfsGeometry s.file.pos).1
        let r := lfsCtzIndex c.toLfsGeometry npos
        if oindex = r.1 ∧ r.2 ≥ s.bd.rcache.off ∧ r.2 < s.bd.rcache.off + s.bd.rcache.size then do
          modify fun s => { s with file := { s.file with pos := npos, off := r.2 } }
          pure npos
        else do
          lfsFileFlush
          modify fun s => { s with file := { s.file with pos := npos } }
          pure npos

/-- `lfs_file_rawtell` -/
def lfsFileRawtell : LfsProg (LfsReader δ) ℕ := do
  let s ← get
  pure s.file.pos

/-- `lfs_file_rawrewind` -/
def lfsFileRawrewind : LfsProg (LfsReader δ) Unit := do
  let _ ← lfsFileRawseek c 0 .set
  pure ()

/-- `lfs_file_rawsize` -/
def lfsFileRawsize : LfsProg (LfsReader δ) ℕ := do
  let s ← get
  pure s.file.size

end Programs

/-! ### Files on the device -/

/-- Further on in the same block. -/
theorem CtzAt.add {g : LfsGeometry} {pos i off : ℕ} (h : CtzAt g pos i off) {k : ℕ}
    (hk : off + k < g.blockSize) : CtzAt g (pos + k) i (off + k) := by
  obtain ⟨hlow, -, hpos⟩ := h
  exact ⟨by omega, hk, by omega⟩

/-- The end of a block is where the next one starts. -/
theorem CtzAt.end {g : LfsGeometry} {pos i off : ℕ} (h : CtzAt g pos i off) {k : ℕ}
    (hk : off + k = g.blockSize) : pos + k = ctzStart g (i + 1) := by
  obtain ⟨hlow, hhigh, hpos⟩ := h
  rw [ctzStart]
  omega

/-- The blocks `bl 0`, ..., `bl n` hold the content of a file, each position where the layout
has it. -/
structure BlockLogs.HasFile (L : BlockLogs) (g : LfsGeometry) (bl : ℕ → ℕ) (n : ℕ)
    (content : List UInt8) : Prop where
  size_le : content.length ≤ lfsFileMax
  linked : L.Linked g bl n
  last : content ≠ [] → ∃ off, CtzAt g (content.length - 1) n off
  byte : ∀ pos i off, CtzAt g pos i off → pos < content.length →
    (L.bytes (bl i))[off]? = content[pos]?
  sees : ∀ i ≤ n, L.Sees false (bl i)

section Files

variable {δ : Type} {c : LfsSetup δ} {R : δ → BlockDevice → Prop} {L : BlockLogs} {bl : ℕ → ℕ}
  {n : ℕ} {content : List UInt8}

namespace BlockLogs

/-- The blocks of positions in the file are in the list. -/
theorem HasFile.index_le {g : LfsGeometry} (h : L.HasFile g bl n content) {pos i off : ℕ}
    (hpos : pos < content.length) (hi : CtzAt g pos i off) : i ≤ n := by
  have hne : content ≠ [] := by
    rintro rfl
    exact Nat.not_lt_zero pos hpos
  obtain ⟨last, hlast⟩ := h.last hne
  exact hi.mono hlast (by omega)

/-- What is in a block of the file is a part of its content. -/
theorem HasFile.part_eq {g : LfsGeometry} (h : L.HasFile g bl n content) {pos i off m : ℕ}
    (hi : CtzAt g pos i off) (hoff : off + m ≤ g.blockSize) (hpos : pos + m ≤ content.length) :
    L.part (bl i) off m = (content.drop pos).take m := by
  refine List.ext_getElem? fun k => ?_
  rw [part, List.getElem?_take, List.getElem?_take, List.getElem?_drop, List.getElem?_drop]
  split
  · exact h.byte _ i _ (hi.add (by omega)) (by omega)
  · rfl

/-- The bytes of the file are in the logs of its blocks. -/
theorem HasFile.known {g : LfsGeometry} (h : L.HasFile g bl n content) {pos i off m : ℕ}
    (hi : CtzAt g pos i off) (hm : 0 < m) (hoff : off + m ≤ g.blockSize)
    (hpos : pos + m ≤ content.length) : off + m ≤ (L.bytes (bl i)).length := by
  have hlen := congrArg List.length (h.part_eq hi hoff hpos)
  rw [length_part, List.length_take, List.length_drop] at hlen
  omega

end BlockLogs

/-- The file is open at a position. If it was found, it is at the end of a block or at the
position in its block. -/
structure LfsReader.Opened (c : LfsSetup δ) (R : δ → BlockDevice → Prop) (L : BlockLogs)
    (bl : ℕ → ℕ) (n : ℕ) (content : List UInt8) (s : LfsReader δ) (pos : ℕ) : Prop where
  shown : L.Shown c R s.bd
  head_eq : s.file.head = bl n
  size_eq : s.file.size = content.length
  pos_eq : s.file.pos = pos
  pos_le : pos ≤ lfsFileMax
  found : s.file.reading = true →
    (s.file.off = c.blockSize ∧ ∃ k, pos = ctzStart c.toLfsGeometry (k + 1)) ∨
      ∃ i, s.file.block = bl i ∧ CtzAt c.toLfsGeometry pos i s.file.off

variable {s : LfsReader δ} {pos : ℕ} {E : LfsHalt → LfsReader δ → Prop}

/-- A read changes nothing of the open file. -/
theorem ends_onBd {α : Type} {x : LfsProg (LfsBd δ) α} {Q : α → Prop}
    (h : Ends (fun a t => Q a ∧ L.Shown c R t) (fun _ _ => False) (x s.bd)) :
    Ends (fun a t => Q a ∧ ∃ bd, t = { s with bd := bd } ∧ L.Shown c R bd) E (onBd x s) :=
  ends_zoom (h.imp (fun _ t ht => ⟨ht.1, t, rfl, ht.2⟩) fun _ _ h => h.elim)

/-- The block of a position in the file is found. -/
theorem LfsReader.Opened.findBlock (hc : c.Drives R) (hreads : c.ReadsSucceed R)
    (hfile : L.HasFile c.toLfsGeometry bl n content) (hs : s.Opened c R L bl n content pos)
    (hpos : pos < content.length) :
    Ends (fun _ t => t.Opened c R L bl n content pos ∧
        ∃ i, t.file.block = bl i ∧ CtzAt c.toLfsGeometry pos i t.file.off) E
      (findBlock c s) := by
  rw [Num487Boot.findBlock, bind_of_ok (get_apply _)]
  split
  · have hne : content ≠ [] := by
      rintro rfl
      exact Nat.not_lt_zero pos hpos
    have hsize : content.length < 2 ^ 32 := Nat.lt_of_le_of_lt hfile.size_le (by decide)
    obtain ⟨last, hlast⟩ := hfile.last hne
    have hpos32 : pos < 2 ^ 32 := by omega
    have hi := ctzAt_lfsCtzIndex (g := c.toLfsGeometry) hpos32
    rw [hs.head_eq, hs.size_eq, hs.pos_eq]
    refine (ends_onBd (hfile.linked.find hc hreads hs.shown hpos hsize hlast hi hfile.sees)).bind ?_
    rintro _ t ⟨rfl, bd, rfl, hbd⟩
    exact ⟨⟨hbd, hs.head_eq, hs.size_eq, hs.pos_eq, hs.pos_le, fun _ => .inr ⟨_, rfl, hi⟩⟩, _, rfl,
      hi⟩
  · rename_i hold
    have hreading : s.file.reading = true := by
      cases h : s.file.reading with
      | false => exact absurd (.inl h) hold
      | true => rfl
    rcases hs.found hreading with ⟨hend, -⟩ | hfound
    · exact absurd (.inr hend) hold
    · exact ⟨hs, hfound⟩

/-- The loop of `lfs_file_flushedread` returns the bytes from the position on. -/
theorem LfsReader.Opened.readLoop (hc : c.Drives R) (hreads : c.ReadsSucceed R)
    (hfile : L.HasFile c.toLfsGeometry bl n content) (fuel nsize : ℕ) (s : LfsReader δ) (pos : ℕ)
    (hs : s.Opened c R L bl n content pos) (hsize : pos + nsize ≤ content.length)
    (hfuel : nsize < fuel) :
    Ends (fun data t => data = (content.drop pos).take nsize ∧
        t.Opened c R L bl n content (pos + nsize)) E
      (lfsFileFlushedreadLoop c fuel nsize s) := by
  induction fuel generalizing nsize s pos with
  | zero => omega
  | succ fuel ih =>
      rw [lfsFileFlushedreadLoop]
      by_cases hzero : nsize = 0
      · rw [if_pos hzero, hzero]
        exact ⟨rfl, hs⟩
      rw [if_neg hzero]
      refine (hs.findBlock hc hreads hfile (by omega)).bind ?_
      rintro - t ⟨ht, i, hblock, hi⟩
      have hoff := hi.2.1
      rw [bind_of_ok (get_apply _), hblock]
      obtain ⟨diff, hdiff⟩ : ∃ diff, min nsize (c.blockSize - t.file.off) = diff := ⟨_, rfl⟩
      rw [hdiff]
      have hin : t.file.off + diff ≤ c.blockSize := by omega
      have hpart := hfile.part_eq hi hin (show pos + diff ≤ content.length by omega)
      have hknown := hfile.known hi (show 0 < diff by omega) hin (by omega)
      have hle := hfile.index_le (show pos < content.length by omega) hi
      have hread := ht.shown.bdRead (E := fun _ _ => False) hc hreads c.block_pos
        ⟨hfile.linked.count i hle, Nat.le_refl c.blockSize, hknown, hfile.sees i hle⟩
      refine (ends_onBd hread).bind ?_
      rintro _ u ⟨rfl, bd, rfl, hbd⟩
      rw [bind_of_ok (modify_apply _ _), hpart]
      -- the file is at the position after the piece
      have hnext : LfsReader.Opened c R L bl n content
          { file := { t.file with pos := t.file.pos + diff, off := t.file.off + diff }, bd := bd }
          (pos + diff) := by
        have hmax := hfile.size_le
        have hpos := ht.pos_eq
        refine ⟨hbd, ht.head_eq, ht.size_eq, congrArg (· + diff) hpos, by omega, fun _ => ?_⟩
        by_cases hend : t.file.off + diff = c.blockSize
        · exact .inl ⟨hend, i, hi.end hend⟩
        · exact .inr ⟨i, hblock, hi.add (by omega)⟩
      refine (ih (nsize - diff) _ (pos + diff) hnext (by omega) (by omega)).bind ?_
      rintro _ v ⟨rfl, hv⟩
      have hsplit : nsize = diff + (nsize - diff) := by omega
      have htotal : pos + diff + (nsize - diff) = pos + nsize := by omega
      rw [htotal] at hv
      refine ⟨?_, hv⟩
      rw [hsplit, List.take_add, List.drop_drop, Nat.add_sub_cancel_left]

/-- **A read returns the bytes from the position on**, up to the end of the file. -/
theorem LfsReader.Opened.read (hc : c.Drives R) (hreads : c.ReadsSucceed R)
    (hfile : L.HasFile c.toLfsGeometry bl n content) (hs : s.Opened c R L bl n content pos)
    (size : ℕ) :
    Ends (fun data t => data = (content.drop pos).take size ∧
        t.Opened c R L bl n content (pos + ((content.drop pos).take size).length)) E
      (lfsFileFlushedread c size s) := by
  have hlen : ((content.drop pos).take size).length = min size (content.length - pos) := by
    rw [List.length_take, List.length_drop]
  rw [lfsFileFlushedread, bind_of_ok (get_apply _), hs.pos_eq, hs.size_eq, hlen]
  split
  · rename_i hend
    have hnone : content.drop pos = [] := List.drop_eq_nil_of_le hend
    have hzero : min size (content.length - pos) = 0 := by omega
    rw [hnone, hzero, List.take_nil]
    exact ⟨rfl, hs⟩
  · have hloop := LfsReader.Opened.readLoop (E := E) hc hreads hfile
      (min size (content.length - pos) + 1) (min size (content.length - pos)) s pos hs (by omega)
      (Nat.lt_succ_self _)
    refine hloop.imp (fun data t ht => ⟨ht.1.trans ?_, ht.2⟩) fun _ _ h => h
    rw [List.take_eq_take_iff, List.length_drop]
    omega

/-- A seek tells the right block: it stays where it is, goes to the first block, or does not
start where the block it goes to does. -/
def SafeSeek (g : LfsGeometry) (pos npos : ℕ) : Prop :=
  npos = pos ∨ (lfsCtzIndex g npos).1 = 0 ∨ pos ≠ ctzStart g (lfsCtzIndex g npos).1

instance (g : LfsGeometry) (pos npos : ℕ) : Decidable (SafeSeek g pos npos) :=
  inferInstanceAs (Decidable (_ ∨ _ ∨ _))

/-- Flushing a file that was read forgets where it was found. -/
theorem LfsReader.Opened.flush (hs : s.Opened c R L bl n content pos) {npos : ℕ}
    (hle : npos ≤ lfsFileMax) :
    Ends (fun r t => r = npos ∧ t.Opened c R L bl n content npos) E
      ((do
        lfsFileFlush
        modify fun s => { s with file := { s.file with pos := npos } }
        pure npos : LfsProg (LfsReader δ) ℕ) s) := by
  rw [lfsFileFlush, bind_of_ok (modify_apply _ _), bind_of_ok (modify_apply _ _)]
  split
  · exact ⟨rfl, hs.shown.dropRcache, hs.head_eq, hs.size_eq, rfl, hle, fun h => by cases h⟩
  · rename_i hreading
    exact ⟨rfl, hs.shown, hs.head_eq, hs.size_eq, rfl, hle, fun h => absurd h hreading⟩

/-- A seek to a position moves there. -/
theorem LfsReader.Opened.seek (hs : s.Opened c R L bl n content pos) {off : ℤ} {whence : Whence}
    {npos : ℕ} (hnpos : seekPos s.file off whence = some npos) (hle : npos ≤ lfsFileMax)
    (hsafe : SafeSeek c.toLfsGeometry pos npos) :
    Ends (fun r t => r = npos ∧ t.Opened c R L bl n content npos) E
      (lfsFileRawseek c off whence s) := by
  have hmax : lfsFileMax < 2 ^ 32 := by decide
  have hpos32 : pos < 2 ^ 32 := Nat.lt_of_le_of_lt hs.pos_le hmax
  have hnpos32 : npos < 2 ^ 32 := Nat.lt_of_le_of_lt hle hmax
  have hold := ctzAt_lfsCtzIndex (g := c.toLfsGeometry) hpos32
  have hnew := ctzAt_lfsCtzIndex (g := c.toLfsGeometry) hnpos32
  rw [lfsFileRawseek, bind_of_ok (get_apply _), hnpos]
  dsimp only
  rw [if_neg (by omega), hs.pos_eq]
  split
  · rename_i heq
    subst heq
    exact ⟨rfl, hs⟩
  rename_i hne
  split
  · -- the block is that of the position, unless the file is still at the end of the one before
    rename_i hcached
    refine ⟨rfl, hs.shown, hs.head_eq, hs.size_eq, rfl, hle, fun hreading => .inr ?_⟩
    rw [← hcached.1] at hnew
    rw [SafeSeek, ← hcached.1] at hsafe
    rcases hs.found hreading with ⟨-, k, hstart⟩ | ⟨i, hblock, hi⟩
    · -- there the seek would be told the block before
      have hhere := ctzAt_start (g := c.toLfsGeometry) (i := k + 1) (by omega)
      rw [← hstart] at hhere
      obtain ⟨hk, -⟩ := hold.unique hhere
      rw [hk] at hsafe
      rcases hsafe with h | h | h
      · exact absurd h.symm hne
      · exact absurd h (Nat.succ_ne_zero k)
      · exact absurd hstart h
    · obtain ⟨rfl, -⟩ := hold.unique hi
      exact ⟨_, hblock, hnew⟩
  · exact hs.flush hle

end Files

/-! ### The file as a cursor -/

/-- A call on an open file. -/
inductive FileOp
  | read (nsize : ℕ)
  | seek (off : ℤ) (whence : Whence)
  | tell
  | rewind
  | size

/-- What the calls on an open file return. -/
inductive FileAnswer
  | bytes (data : List UInt8)
  | pos (pos : ℕ)
  | done
  deriving DecidableEq

/-- The function of a call. -/
def FileOp.call {δ : Type} (c : LfsSetup δ) : FileOp → LfsProg (LfsReader δ) FileAnswer
  | .read nsize => do
      let data ← lfsFileFlushedread c nsize
      pure (.bytes data)
  | .seek off whence => do
      let npos ← lfsFileRawseek c off whence
      pure (.pos npos)
  | .tell => do
      let pos ← lfsFileRawtell
      pure (.pos pos)
  | .rewind => do
      lfsFileRawrewind c
      pure .done
  | .size => do
      let res ← lfsFileRawsize
      pure (.pos res)

namespace Cursor

variable (content : List UInt8)

/-- Where a seek is counted from: the start, the position or the end. -/
def base (pos : ℕ) : Whence → ℕ
  | .set => 0
  | .cur => pos
  | .fromEnd => content.length

/-- The position a seek asks for, if it is in range. -/
def target (pos : ℕ) (off : ℤ) (whence : Whence) : Option ℕ :=
  let npos := base content pos whence + off
  if 0 ≤ npos ∧ npos ≤ lfsFileMax then some npos.toNat else none

/-- What a call answers at a position of the content. -/
def answer (pos : ℕ) : FileOp → Except ℤ FileAnswer
  | .read nsize => .ok (.bytes ((content.drop pos).take nsize))
  | .seek off whence =>
      match target content pos off whence with
      | some npos => .ok (.pos npos)
      | none => .error lfsErrInval
  | .tell => .ok (.pos pos)
  | .rewind => .ok .done
  | .size => .ok (.pos content.length)

/-- The position after a call. -/
def next (pos : ℕ) : FileOp → ℕ
  | .read nsize => pos + ((content.drop pos).take nsize).length
  | .seek off whence => (target content pos off whence).getD pos
  | .rewind => 0
  | _ => pos

/-- Offsets are `lfs_soff_t`, and a seek is told the right block. -/
def Legal (g : LfsGeometry) (pos : ℕ) : FileOp → Prop
  | .seek off whence =>
      -2 ^ 31 ≤ off ∧ off < 2 ^ 31 ∧ SafeSeek g pos ((target content pos off whence).getD pos)
  | _ => True

instance (g : LfsGeometry) (pos : ℕ) : ∀ op, Decidable (Legal content g pos op)
  | .read _ => isTrue trivial
  | .seek _ _ => inferInstanceAs (Decidable (_ ∧ _ ∧ _))
  | .tell => isTrue trivial
  | .rewind => isTrue trivial
  | .size => isTrue trivial

end Cursor

section Runs

variable {δ : Type} {c : LfsSetup δ} {R : δ → BlockDevice → Prop} {L : BlockLogs} {bl : ℕ → ℕ}
  {n : ℕ} {content : List UInt8} {s : LfsReader δ} {pos : ℕ}

/-- A sum of positions in 32 bits, if it is in range and if it is not. -/
theorem u32_target {base : ℕ} {off : ℤ} (hbase : base ≤ lfsFileMax) (hlow : -2 ^ 31 ≤ off)
    (hhigh : off < 2 ^ 31) :
    (0 ≤ base + off ∧ base + off ≤ lfsFileMax → u32 (base + off) = (base + off).toNat) ∧
      (¬ (0 ≤ base + off ∧ base + off ≤ lfsFileMax) → lfsFileMax < u32 (base + off)) := by
  rw [lfsFileMax] at *
  rw [u32]
  omega

/-- The new position is the sum, unless it is refused for being negative. -/
theorem seekPos_cases (hs : s.Opened c R L bl n content pos) (off : ℤ) (whence : Whence) :
    seekPos s.file off whence = some (u32 (Cursor.base content pos whence + off)) ∨
      Cursor.base content pos whence + off < 0 ∧ seekPos s.file off whence = none := by
  cases whence with
  | set =>
      left
      rw [seekPos, Cursor.base, Int.natCast_zero, Int.zero_add]
  | cur =>
      rw [seekPos, Cursor.base, hs.pos_eq]
      split
      · rename_i h
        exact .inr ⟨h, rfl⟩
      · exact .inl rfl
  | fromEnd =>
      rw [seekPos, Cursor.base, hs.size_eq]
      split
      · rename_i h
        exact .inr ⟨h, rfl⟩
      · exact .inl rfl

/-- The new position is the target, or out of range. -/
theorem seekPos_spec (hs : s.Opened c R L bl n content pos) (hsize : content.length ≤ lfsFileMax)
    {off : ℤ} (whence : Whence) (hlow : -2 ^ 31 ≤ off) (hhigh : off < 2 ^ 31) :
    match Cursor.target content pos off whence with
    | some npos => seekPos s.file off whence = some npos ∧ npos ≤ lfsFileMax
    | none => ∀ npos, seekPos s.file off whence = some npos → lfsFileMax < npos := by
  have hbase : Cursor.base content pos whence ≤ lfsFileMax := by
    cases whence with
    | set => exact Nat.zero_le _
    | cur => exact hs.pos_le
    | fromEnd => exact hsize
  obtain ⟨hin, hout⟩ := u32_target hbase hlow hhigh
  rcases seekPos_cases hs off whence with hsum | ⟨hneg, hnone⟩
  · rw [hsum, Cursor.target]
    by_cases h : 0 ≤ (Cursor.base content pos whence : ℤ) + off ∧
        (Cursor.base content pos whence : ℤ) + off ≤ lfsFileMax
    · rw [if_pos h, hin h]
      exact ⟨rfl, by omega⟩
    · rw [if_neg h]
      rintro npos hnpos
      injection hnpos with hnpos
      exact hnpos ▸ hout h
  · have h : ¬ (0 ≤ (Cursor.base content pos whence : ℤ) + off ∧
        (Cursor.base content pos whence : ℤ) + off ≤ lfsFileMax) := by omega
    rw [hnone, Cursor.target, if_neg h]
    rintro npos hnpos
    cases hnpos

/-- A call on an open file answers as the cursor does. -/
theorem simulates_cursor (hc : c.Drives R) (hreads : c.ReadsSucceed R)
    (hfile : L.HasFile c.toLfsGeometry bl n content) :
    Simulates (fun op => reported (FileOp.call c op)) (Cursor.next content)
      (Cursor.answer content) (Cursor.Legal content c.toLfsGeometry)
      fun s pos => LfsReader.Opened c R L bl n content s pos := by
  intro s pos op hs hop
  -- a call that returns what it should
  have hreturn : ∀ {a : FileAnswer} {pos' : ℕ}, Cursor.answer content pos op = .ok a →
      Cursor.next content pos op = pos' →
      Ends (fun a' t => a' = a ∧ LfsReader.Opened c R L bl n content t pos') (fun _ _ => False)
        (FileOp.call c op s) →
      ∃ t, reported (FileOp.call c op) s = .ok (Cursor.answer content pos op) t ∧
        LfsReader.Opened c R L bl n content t (Cursor.next content pos op) := by
    intro a pos' ha hpos' hends
    obtain ⟨a', t, hcall, rfl, ht⟩ := hends.returns
    rw [ha, hpos']
    exact ⟨t, reported_ok hcall, ht⟩
  cases op with
  | read nsize =>
      refine hreturn rfl rfl ((hs.read hc hreads hfile nsize).bind ?_)
      rintro _ t ⟨rfl, ht⟩
      exact ⟨rfl, ht⟩
  | seek off whence =>
      obtain ⟨hlow, hhigh, hsafe⟩ := hop
      have hspec := seekPos_spec hs hfile.size_le whence hlow hhigh
      cases htarget : Cursor.target content pos off whence with
      | some npos =>
          rw [htarget] at hspec hsafe
          have hans : Cursor.answer content pos (.seek off whence) = .ok (.pos npos) := by
            rw [Cursor.answer, htarget]
          have hnext : Cursor.next content pos (.seek off whence) = npos := by
            rw [Cursor.next, htarget]
            rfl
          refine hreturn hans hnext ((hs.seek hspec.1 hspec.2 hsafe).bind ?_)
          rintro _ t ⟨rfl, ht⟩
          exact ⟨rfl, ht⟩
      | none =>
          rw [htarget] at hspec
          have hans : Cursor.answer content pos (.seek off whence) = .error lfsErrInval := by
            rw [Cursor.answer, htarget]
          have hnext : Cursor.next content pos (.seek off whence) = pos := by
            rw [Cursor.next, htarget]
            rfl
          rw [hans, hnext]
          refine ⟨s, reported_error ?_, hs⟩
          have hrefused : lfsFileRawseek c off whence s = .error (.err lfsErrInval) s := by
            rw [lfsFileRawseek, bind_of_ok (get_apply _)]
            cases hnpos : seekPos s.file off whence with
            | none => rfl
            | some npos =>
                dsimp only
                rw [if_pos (hspec npos hnpos)]
                rfl
          rw [FileOp.call, bind_of_error hrefused]
  | tell => exact hreturn rfl rfl ⟨congrArg FileAnswer.pos hs.pos_eq, hs⟩
  | rewind =>
      have hzero : u32 0 = 0 := rfl
      have hsafe : SafeSeek c.toLfsGeometry pos 0 := by
        refine .inr (.inl ?_)
        rw [lfsCtzIndex, Nat.zero_div, if_pos rfl]
      refine hreturn rfl rfl ((Ends.bind (Q := fun _ t => LfsReader.Opened c R L bl n content t 0)
        ((hs.seek (by rw [seekPos, hzero]) (Nat.zero_le _) hsafe).bind ?_)) ?_)
      · rintro _ t ⟨rfl, ht⟩
        exact ht
      · exact fun _ t ht => ⟨rfl, ht⟩
  | size => exact hreturn rfl rfl ⟨congrArg FileAnswer.pos hs.size_eq, hs⟩

/-- **A file that is read is a cursor over its content.** Over any run of reads, rewinds and
seeks that are told the right block, from the opening of the file on, every call returns what
the cursor answers: the bytes from the position on, up to the end; the new position, or an error
if it would be out of range; and nothing on the device changes. -/
theorem lfsFile_cursor (hc : c.Drives R) (hreads : c.ReadsSucceed R)
    (hfile : L.HasFile c.toLfsGeometry bl n content) (hs : L.Shown c R s.bd)
    (hopen : s.file.head = bl n ∧ s.file.size = content.length ∧ s.file.pos = 0 ∧
      s.file.reading = false) {ops : List FileOp}
    (hops : Guarded (Cursor.next content) (Cursor.Legal content c.toLfsGeometry) 0 ops) :
    ∃ t, ops.mapM (fun op => reported (FileOp.call c op)) s
        = .ok (answers (Cursor.next content) (Cursor.answer content) 0 ops) t ∧
      t.file.pos = run (Cursor.next content) 0 ops ∧ L.Shown c R t.bd := by
  obtain ⟨hhead, hsize, hpos, hreading⟩ := hopen
  have hopened : s.Opened c R L bl n content 0 :=
    ⟨hs, hhead, hsize, hpos, Nat.zero_le _, fun h => by cases hreading.symm.trans h⟩
  obtain ⟨t, hrun, ht⟩ := (simulates_cursor hc hreads hfile).run hopened hops
  exact ⟨t, hrun, ht.pos_eq, ht.shown⟩

end Runs

/-- The content of the file of two blocks. -/
theorem hasFile_nines :
    (BlockLogs.ofDevice forgetful.toLfsGeometry ninesDevice).HasFile forgetful.toLfsGeometry
      (· + 2) 1 (.replicate 130 9) where
  size_le := by
    rw [List.length_replicate]
    decide
  linked := linked_nines
  last _ := by
    rw [List.length_replicate]
    exact ⟨5, by decide, by decide, by decide⟩
  byte pos i off hi hpos := by
    rw [List.length_replicate] at hpos
    have hlast : CtzAt forgetful.toLfsGeometry 129 1 5 := ⟨by decide, by decide, by decide⟩
    have hi' : i ≤ 1 := hi.mono hlast (by omega)
    obtain ⟨hlow, hhigh, hoff⟩ := hi
    have hbyte : ninesDevice.data (i + 2) off = 9 := by
      rcases Nat.le_one_iff_eq_zero_or_eq_one.mp hi' with rfl | rfl
      · have hblock : off < 128 := hhigh
        have hmem : ninesDevice.data 2 off
            = if 2 * 4096 + off = 12288 then 2
              else if 2 * 4096 + off < 12288 ∨ 12292 ≤ 2 * 4096 + off then 9 else 0 := rfl
        rw [hmem, if_neg (by omega), if_pos (.inl (by omega))]
      · have hheader : 4 ≤ off := hlow
        have hmem : ninesDevice.data 3 off
            = if 3 * 4096 + off = 12288 then 2
              else if 3 * 4096 + off < 12288 ∨ 12292 ≤ 3 * 4096 + off then 9 else 0 := rfl
        rw [hmem, if_neg (by omega), if_pos (.inr (by omega))]
    have hlen : off < (slice (ninesDevice.data (i + 2)) 0 128).length := by
      rw [length_slice]
      exact hhigh
    rw [List.getElem?_replicate, if_pos hpos]
    refine (List.getElem?_eq_getElem hlen).trans (congrArg some ?_)
    rw [getElem_slice, Nat.zero_add, hbyte]
  sees _ _ := BlockLogs.sees_ofDevice false

/-- The file is read across the end of its first block, and up to its end. -/
theorem lfsFile_cursor_nines :
    ∃ t, [FileOp.seek 126 .set, .read 3, .tell, .seek (-2) .fromEnd, .read 30, .rewind].mapM
        (fun op => reported (FileOp.call forgetful op))
        ⟨⟨3, 130, 0, false, 0, 0⟩, ninesMounted⟩
      = .ok [.ok (.pos 126), .ok (.bytes [9, 9, 9]), .ok (.pos 129), .ok (.pos 128),
          .ok (.bytes [9, 9]), .ok .done] t := by
  have hops : Guarded (Cursor.next (.replicate 130 9))
      (Cursor.Legal (.replicate 130 9) forgetful.toLfsGeometry) 0
      [.seek 126 .set, .read 3, .tell, .seek (-2) .fromEnd, .read 30, .rewind] := by decide +kernel
  have hans : answers (Cursor.next (.replicate 130 9)) (Cursor.answer (.replicate 130 9)) 0
      [.seek 126 .set, .read 3, .tell, .seek (-2) .fromEnd, .read 30, .rewind]
      = [.ok (.pos 126), .ok (.bytes [9, 9, 9]), .ok (.pos 129), .ok (.pos 128),
          .ok (.bytes [9, 9]), .ok .done] := by decide +kernel
  obtain ⟨t, hrun, -⟩ := lfsFile_cursor (s := ⟨⟨3, 130, 0, false, 0, 0⟩, ninesMounted⟩)
    drives_forgetful readsSucceed_forgetful hasFile_nines shown_nines
    ⟨rfl, (List.length_replicate ..).symm, rfl, rfl⟩ hops
  rw [hans] at hrun
  exact ⟨t, hrun⟩

end Num487Boot
