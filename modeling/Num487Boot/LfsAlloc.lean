import Mathlib.Data.Finset.Card
import Mathlib.Data.Set.Insert
import Num487Boot.LfsLogs
import Num487Boot.Lib.Runs
import Num487Boot.Lib.Wheel

/-!
# The Block Allocator of LittleFS

`lfs_alloc` hands out blocks from a window over the device. A traversal of the file system marks
the blocks of the window that are in use; the window moves on when all of it has been passed.
Between two calls of `lfs_alloc_ack` the blocks handed out are not yet in the file system, and
no traversal finds them: `ack` counts how many blocks may be passed until one of them would come
up again.

The traversal is a parameter of this module: a program on the rest of the file system that
returns the blocks it calls back with, in order.

## Main results

* `lfsAlloc_run`: over any run of calls, acknowledgements and changes of the file system, the
  allocator hands out no block that is in use or handed out already, and reports that there is
  no space only after it came past every block.
* `lfsAlloc_exhausts`: after mounting it hands out each free block once, and then reports that
  there is no space.
-/

namespace Num487Boot

open Exec Runs Wheel

/-- `LFS_ERR_NOSPC` -/
def lfsErrNospc : ℤ := -28

/-- `lfs->free`. The bits of the buffer are for the blocks from `off` on. -/
structure LfsFree where
  off : ℕ
  size : ℕ
  i : ℕ
  ack : ℕ
  buffer : ℕ → BitVec 32

/-- The allocator and the rest of the file system. -/
structure LfsAlloc (σ : Type) where
  free : LfsFree
  fs : σ

/-! ### The allocator -/

section Programs

/-- The bit of the buffer is set. -/
def LfsFree.used (free : LfsFree) (off : ℕ) : Prop :=
  free.buffer (off / 32) &&& 1#32 <<< (off % 32) ≠ 0#32

instance (free : LfsFree) (off : ℕ) : Decidable (free.used off) :=
  inferInstanceAs (Decidable (_ ≠ _))

/-- Set the bit of the buffer. -/
def LfsFree.mark (free : LfsFree) (off : ℕ) : LfsFree :=
  { free with
    buffer := fun k =>
      if k = off / 32 then free.buffer k ||| 1#32 <<< (off % 32) else free.buffer k }

/-- `lfs->free.i += 1; lfs->free.ack -= 1;` -/
def LfsFree.pass (free : LfsFree) : LfsFree :=
  { free with i := free.i + 1, ack := u32 (free.ack - 1) }

variable (g : LfsGeometry)

/-- `lfs_alloc_lookahead` -/
def lfsAllocLookahead (free : LfsFree) (block : ℕ) : LfsFree :=
  let off := u32 (block - free.off + g.blockCount) % g.blockCount
  if off < free.size then free.mark off else free

/-- `lfs_alloc_ack` -/
def lfsAllocAck (free : LfsFree) : LfsFree := { free with ack := g.blockCount }

/-- `lfs_alloc_drop` -/
def lfsAllocDrop (free : LfsFree) : LfsFree := lfsAllocAck g { free with size := 0, i := 0 }

/-- What `lfs_rawmount` makes of the allocator. -/
def mountFree (seed : ℕ) (free : LfsFree) : LfsFree :=
  lfsAllocDrop g { free with off := seed % g.blockCount }

/-- The buffer after its `memset`. -/
def LfsFree.cleared (free : LfsFree) (k : ℕ) : BitVec 32 :=
  if 4 * k < g.lookaheadSize then 0#32 else free.buffer k

/-- What `lfs_rawformat` makes of the allocator. -/
def formatFree (free : LfsFree) : LfsFree :=
  lfsAllocAck g { free with
    off := 0
    size := min (u32 (8 * g.lookaheadSize)) g.blockCount
    i := 0
    buffer := free.cleared g }

/-- The window moves on to the blocks after it, with no block marked. -/
def LfsFree.advance (free : LfsFree) : LfsFree where
  off := u32 (free.off + free.size) % g.blockCount
  size := min (u32 (8 * g.lookaheadSize)) free.ack
  i := 0
  ack := free.ack
  buffer := free.cleared g

/-- The innermost loop of `lfs_alloc`: blocks in use are passed. -/
def skipUsed : ℕ → LfsProg LfsFree Unit
  | 0 => throw .endless
  | fuel + 1 => do
      let free ← get
      if free.i ≠ free.size ∧ free.used free.i then do
        modify LfsFree.pass
        skipUsed fuel
      else pure ()

/-- The search for a free block in the window. -/
def searchWindow : ℕ → LfsProg LfsFree (Option ℕ)
  | 0 => throw .endless
  | fuel + 1 => do
      let free ← get
      if free.i = free.size then pure none
      else do
        modify LfsFree.pass
        if free.used free.i then searchWindow fuel
        else do
          skipUsed fuel
          pure (some (u32 (free.off + free.i) % g.blockCount))

variable {σ : Type} (traverse : LfsProg σ (List ℕ))

/-- Code that works on the allocator's window only. -/
def onFree {α : Type} : LfsProg LfsFree α → LfsProg (LfsAlloc σ) α :=
  zoom LfsAlloc.free fun free s => { s with free := free }

/-- The call of `lfs_fs_rawtraverse`. The callback never fails; a traversal that does drops the
window. -/
def markUsed : LfsProg (LfsAlloc σ) Unit := fun s =>
  match traverse s.fs with
  | .ok blocks fs => .ok ⟨⟩ { free := blocks.foldl (lfsAllocLookahead g) s.free, fs := fs }
  | .error e fs => .error e { free := lfsAllocDrop g s.free, fs := fs }

/-- The outer loop of `lfs_alloc`. -/
def lfsAllocLoop : ℕ → LfsProg (LfsAlloc σ) ℕ
  | 0 => throw .endless
  | fuel + 1 => do
      let s ← get
      let found ← onFree (searchWindow g (s.free.size - s.free.i + 1))
      match found with
      | some block => pure block
      | none => do
          let s ← get
          if s.free.ack = 0 then throw (.err lfsErrNospc)
          else do
            modify fun s => { s with free := s.free.advance g }
            markUsed g traverse
            lfsAllocLoop fuel

/-- `lfs_alloc` -/
def lfsAlloc : LfsProg (LfsAlloc σ) ℕ := do
  let s ← get
  lfsAllocLoop g traverse (s.free.ack + 1)

end Programs

/-! ### The bits of the window -/

namespace LfsFree

variable {g : LfsGeometry} {free : LfsFree} {off k : ℕ}

/-- A mark is a bit of the window. -/
theorem used_iff : free.used off ↔ (free.buffer (off / 32)).getLsbD (off % 32) = true := by
  have hlt : off % 32 < 32 := Nat.mod_lt off (by decide)
  have hbit : (BitVec.twoPow 32 (off % 32)).getLsbD (off % 32) = true := by
    rw [BitVec.getLsbD_twoPow, decide_eq_true hlt, decide_eq_true rfl]
    rfl
  rw [used, ← BitVec.twoPow_eq, BitVec.and_twoPow]
  cases (free.buffer (off / 32)).getLsbD (off % 32) with
  | false => exact ⟨fun h => absurd rfl h, fun h => by cases h⟩
  | true =>
      refine ⟨fun _ => rfl, fun _ hzero => ?_⟩
      rw [if_pos rfl] at hzero
      rw [hzero, BitVec.getLsbD_zero] at hbit
      cases hbit

/-- A mark is one more. -/
theorem used_mark : (free.mark off).used k ↔ free.used k ∨ k = off := by
  have hlt : k % 32 < 32 := Nat.mod_lt k (by decide)
  rw [used_iff, used_iff, mark]
  dsimp only
  split
  · rename_i hword
    rw [← BitVec.twoPow_eq, BitVec.getLsbD_or, BitVec.getLsbD_twoPow, Bool.or_eq_true,
      Bool.and_eq_true, decide_eq_true_iff, decide_eq_true_iff]
    constructor
    · rintro (h | ⟨-, h⟩)
      · exact .inl h
      · exact .inr (by omega)
    · rintro (h | rfl)
      · exact .inl h
      · exact .inr ⟨hlt, rfl⟩
  · rename_i hword
    refine ⟨.inl, ?_⟩
    rintro (h | rfl)
    · exact h
    · exact absurd rfl hword

/-- The block a bit of the buffer is for. -/
def block (g : LfsGeometry) (free : LfsFree) (off : ℕ) : ℕ := (free.off + off) % g.blockCount

/-- The bit of a block is found in 32-bit arithmetic. -/
theorem lookahead_eq_iff {b : ℕ} (hoff : free.off < g.blockCount) (hb : b < g.blockCount)
    (hk : k < g.blockCount) :
    u32 (b - free.off + g.blockCount) % g.blockCount = k ↔ free.block g k = b := by
  have hcount := g.count_le
  have hwrap : ∀ a, a < g.blockCount → (a + g.blockCount) % g.blockCount = a := by
    intro a ha
    rw [Nat.add_mod_right, Nat.mod_eq_of_lt ha]
  rw [block, u32]
  by_cases hle : free.off ≤ b
  · have hdiff : ((b - free.off + g.blockCount : ℤ) % 2 ^ 32).toNat
        = b - free.off + g.blockCount := by omega
    rw [hdiff, hwrap _ (by omega)]
    by_cases hturn : free.off + k < g.blockCount
    · rw [Nat.mod_eq_of_lt hturn]
      omega
    · rw [Nat.mod_eq_sub_mod (by omega), Nat.mod_eq_of_lt (by omega)]
      omega
  · have hdiff : ((b - free.off + g.blockCount : ℤ) % 2 ^ 32).toNat
        = b + g.blockCount - free.off := by omega
    rw [hdiff, Nat.mod_eq_of_lt (by omega)]
    by_cases hturn : free.off + k < g.blockCount
    · rw [Nat.mod_eq_of_lt hturn]
      omega
    · rw [Nat.mod_eq_sub_mod (by omega), Nat.mod_eq_of_lt (by omega)]
      omega

/-- Looking at block `b` marks it, and nothing else of the window. -/
theorem used_lookahead {b : ℕ} (hoff : free.off < g.blockCount) (hsize : free.size ≤ g.blockCount)
    (hb : b < g.blockCount) (hk : k < free.size) :
    (lfsAllocLookahead g free b).used k ↔ free.used k ∨ free.block g k = b := by
  have hbit := lookahead_eq_iff hoff hb (k := k) (by omega)
  rw [lfsAllocLookahead]
  split
  · rw [used_mark, ← hbit, eq_comm (a := k)]
  · rename_i hout
    refine ⟨.inl, ?_⟩
    rintro (h | h)
    · exact h
    · exact absurd (hbit.mpr h ▸ hk) hout

/-- A traversal changes the buffer only. -/
theorem foldl_lookahead (g : LfsGeometry) (blocks : List ℕ) (free : LfsFree) :
    ∃ buffer, blocks.foldl (lfsAllocLookahead g) free = { free with buffer := buffer } := by
  induction blocks generalizing free with
  | nil => exact ⟨free.buffer, rfl⟩
  | cons b blocks ih =>
      rw [List.foldl_cons, lfsAllocLookahead]
      split
      · exact ih _
      · exact ih free

/-- A scan sets the bits of the blocks it visits. -/
theorem used_foldl_lookahead (blocks : List ℕ) (hblocks : ∀ b ∈ blocks, b < g.blockCount)
    (hoff : free.off < g.blockCount) (hsize : free.size ≤ g.blockCount) (hk : k < free.size) :
    (blocks.foldl (lfsAllocLookahead g) free).used k ↔
      free.used k ∨ free.block g k ∈ blocks := by
  induction blocks generalizing free with
  | nil => exact ⟨.inl, fun h => h.elim id fun h => absurd h List.not_mem_nil⟩
  | cons b blocks ih =>
      rw [List.forall_mem_cons] at hblocks
      obtain ⟨hb, hblocks⟩ := hblocks
      have hone := used_lookahead hoff hsize hb hk
      obtain ⟨buffer, heq⟩ := foldl_lookahead g [b] free
      rw [List.foldl_cons, List.foldl_nil] at heq
      rw [heq] at hone
      have hrest : (blocks.foldl (lfsAllocLookahead g) { free with buffer := buffer }).used k ↔
          ({ free with buffer := buffer } : LfsFree).used k ∨ free.block g k ∈ blocks :=
        ih hblocks hoff hsize hk
      rw [List.foldl_cons, heq, hrest, hone, List.mem_cons, or_assoc]

end LfsFree

/-! ### What the window knows -/

/-- The window against what is in use, what was handed out since the last acknowledgement
(`pending`) and what was found in use since then (`found`): the clear bits ahead are for blocks
that are not in use, the set bits for blocks found in use; and what was passed since the last
acknowledgement was handed out or found in use. -/
structure LfsFree.Accounts (g : LfsGeometry) (free : LfsFree) (inUse pending found : Set ℕ) :
    Prop where
  off_lt : free.off < g.blockCount
  i_le : free.i ≤ free.size
  size_le : free.size ≤ g.blockCount
  ahead_le : free.size ≤ free.i + free.ack
  ack_le : free.ack ≤ g.blockCount
  clear : ∀ k, free.i ≤ k → k < free.size → ¬ free.used k → free.block g k ∉ inUse
  marked : ∀ k, free.i ≤ k → k < free.size → free.used k → free.block g k ∈ found
  recent : ∀ b ∈ pending, Behind g.blockCount (free.off + free.i) (g.blockCount - free.ack) b
  passed : ∀ b, Behind g.blockCount (free.off + free.i) (g.blockCount - free.ack) b →
    b ∈ pending ∪ found

/-- The blocks ahead in the window whose bits are set. -/
def LfsFree.stale (g : LfsGeometry) (free : LfsFree) : Set ℕ :=
  {b | ∃ k, free.i ≤ k ∧ k < free.size ∧ free.used k ∧ b = free.block g k}

namespace LfsFree.Accounts

variable {g : LfsGeometry} {free : LfsFree} {inUse pending found : Set ℕ}

/-- No block ahead was handed out since the last acknowledgement. -/
theorem not_pending (h : free.Accounts g inUse pending found) {k : ℕ} (hi : free.i ≤ k)
    (hk : k < free.size) : free.block g k ∉ pending := by
  intro hmem
  have hbehind := h.recent _ hmem
  obtain ⟨e, rfl⟩ := Nat.exists_eq_add_of_le hi
  have hahead := h.ahead_le
  have hack := h.ack_le
  rw [block, ← Nat.add_assoc] at hbehind
  exact not_behind_ahead (by omega) hbehind

/-- Passing a block uses up one of the acknowledged ones. -/
theorem ack_pass (h : free.Accounts g inUse pending found) (hi : free.i < free.size) :
    free.pass.ack = free.ack - 1 := by
  have hahead := h.ahead_le
  have hack := h.ack_le
  have hcount := g.count_le
  have hone : ((free.ack : ℤ) - 1) = ((free.ack : ℤ) - (1 : ℕ)) := rfl
  rw [pass, hone, u32_sub (by omega) (by omega)]

/-- A block is passed that was found in use or is handed out. -/
theorem passes (h : free.Accounts g inUse pending found) (hi : free.i < free.size)
    {pending' : Set ℕ} (hsub : pending ⊆ pending')
    (hnew : ∀ b ∈ pending', b ∈ pending ∨ b = free.block g free.i)
    (hblock : free.block g free.i ∈ pending' ∪ found) :
    free.pass.Accounts g inUse pending' found := by
  have hack := h.ack_pass hi
  have hahead := h.ahead_le
  have hackle := h.ack_le
  have hcount : 0 < g.blockCount := Nat.lt_of_le_of_lt (Nat.zero_le _) h.off_lt
  have hbehind : ∀ b, Behind g.blockCount (free.off + (free.i + 1)) (g.blockCount - free.pass.ack) b
      ↔ Behind g.blockCount (free.off + free.i) (g.blockCount - free.ack) b
        ∨ b = free.block g free.i := by
    intro b
    have hmore : g.blockCount - (free.ack - 1) = g.blockCount - free.ack + 1 := by omega
    rw [hack, hmore, ← Nat.add_assoc]
    exact behind_succ hcount
  refine ⟨h.off_lt, hi, h.size_le, ?_, ?_, fun k hk => h.clear k (Nat.le_of_lt hk),
    fun k hk => h.marked k (Nat.le_of_lt hk), fun b hb => (hbehind b).mpr ?_,
    fun b hb => ?_⟩
  · rw [hack]
    show free.size ≤ free.i + 1 + (free.ack - 1)
    omega
  · rw [hack]
    omega
  · exact (hnew b hb).imp_left fun hold => h.recent b hold
  · rcases (hbehind b).mp hb with hold | rfl
    · exact (h.passed b hold).imp_left fun hb => hsub hb
    · exact hblock

/-- A marked block is passed and stays accounted for. -/
theorem pass_used (h : free.Accounts g inUse pending found) (hi : free.i < free.size)
    (hused : free.used free.i) : free.pass.Accounts g inUse pending found :=
  h.passes hi subset_rfl (fun _ hb => .inl hb) (.inr (h.marked _ (Nat.le_refl _) hi hused))

/-- An unmarked block is passed and handed out. -/
theorem pass_free (h : free.Accounts g inUse pending found) (hi : free.i < free.size) :
    free.pass.Accounts g inUse (insert (free.block g free.i) pending) found :=
  h.passes hi (Set.subset_insert _ _) (fun _ hb => hb.symm) (.inl (Set.mem_insert _ _))

/-- Further blocks may have been found in use. -/
theorem mono_found (h : free.Accounts g inUse pending found) {found' : Set ℕ}
    (hsub : found ⊆ found') : free.Accounts g inUse pending found' :=
  ⟨h.off_lt, h.i_le, h.size_le, h.ahead_le, h.ack_le, h.clear,
    fun k hi hk hused => hsub (h.marked k hi hk hused), h.recent,
    fun b hb => (h.passed b hb).imp_right fun hb => hsub hb⟩

/-- When there is nothing left to pass, every block was handed out or found in use. -/
theorem exhausted (h : free.Accounts g inUse pending found) (hack : free.ack = 0) {b : ℕ}
    (hb : b < g.blockCount) : b ∈ pending ∪ found := by
  refine h.passed b ?_
  rw [hack]
  exact behind_all hb

/-- What only comes into use after it was handed out leaves the window right. -/
theorem update (h : free.Accounts g inUse pending found) {inUse' : Set ℕ}
    (hsub : inUse' ⊆ inUse ∪ pending) : free.Accounts g inUse' pending found :=
  ⟨h.off_lt, h.i_le, h.size_le, h.ahead_le, h.ack_le, fun k hi hk hclear hmem =>
    (hsub hmem).elim (h.clear k hi hk hclear) (h.not_pending hi hk), h.marked, h.recent, h.passed⟩

/-- An acknowledgement forgets what was handed out and what was passed. -/
theorem ack (h : free.Accounts g inUse pending found) :
    (lfsAllocAck g free).Accounts g inUse ∅ (free.stale g) := by
  have hi := h.i_le
  have hsize := h.size_le
  refine ⟨h.off_lt, h.i_le, h.size_le, ?_, Nat.le_refl _, h.clear,
    fun k hi hk hused => ⟨k, hi, hk, hused, rfl⟩, fun b hb => hb.elim, fun b hb => ?_⟩
  · show free.size ≤ free.i + g.blockCount
    omega
  · have hzero : g.blockCount - (lfsAllocAck g free).ack = 0 := Nat.sub_self _
    rw [hzero] at hb
    exact absurd hb not_behind_zero

/-- A window that was dropped knows nothing. -/
theorem of_drop (hoff : free.off < g.blockCount) (inUse found : Set ℕ) :
    (lfsAllocDrop g free).Accounts g inUse ∅ found := by
  refine ⟨hoff, Nat.le_refl _, Nat.zero_le _, Nat.zero_le _, Nat.le_refl _,
    fun k _ hk => absurd hk (Nat.not_lt_zero k), fun k _ hk => absurd hk (Nat.not_lt_zero k),
    fun b hb => hb.elim, fun b hb => ?_⟩
  have hzero : g.blockCount - (lfsAllocDrop g free).ack = 0 := Nat.sub_self _
  rw [hzero] at hb
  exact absurd hb not_behind_zero

/-- The next window starts where the last one ended. -/
theorem advance_off (h : free.Accounts g inUse pending found) (hi : free.i = free.size) :
    (free.advance g).off = (free.off + free.i) % g.blockCount := by
  have hoff := h.off_lt
  have hsize := h.size_le
  have hcount := g.count_le
  rw [LfsFree.advance, hi, u32]
  dsimp only
  congr 1
  omega

/-- The next window is as large as the bitmap and the acknowledged blocks allow. -/
theorem advance_size (free : LfsFree) :
    (free.advance g).size = min (8 * g.lookaheadSize) free.ack := by
  have hlook := g.lookahead_le
  rw [LfsFree.advance]
  dsimp only
  rw [u32]
  omega

/-- The next window starts at a block of the device. -/
theorem advance_off_lt (h : free.Accounts g inUse pending found) (hi : free.i = free.size) :
    (free.advance g).off < g.blockCount := by
  rw [h.advance_off hi]
  exact Nat.mod_lt _ (Nat.lt_of_le_of_lt (Nat.zero_le _) h.off_lt)

/-- A new window starts with no bit set. -/
theorem not_used_advance {k : ℕ} (hk : k < (free.advance g).size) :
    ¬ (free.advance g).used k := by
  intro hused
  rw [advance_size] at hk
  have hword : 4 * (k / 32) < g.lookaheadSize := by omega
  rw [used_iff, LfsFree.advance] at hused
  dsimp only at hused
  rw [cleared, if_pos hword, BitVec.getLsbD_zero] at hused
  cases hused

/-- The window moves on, and a traversal marks what is in use. -/
theorem advance (h : free.Accounts g inUse pending found) (hi : free.i = free.size)
    {blocks : List ℕ} (hblocks : ∀ b, b ∈ blocks ↔ b ∈ inUse)
    (hin : ∀ b ∈ inUse, b < g.blockCount) (hsub : inUse ⊆ found) :
    (blocks.foldl (lfsAllocLookahead g) (free.advance g)).Accounts g inUse pending found := by
  have hoff := h.advance_off hi
  have hofflt := h.advance_off_lt hi
  have hsize : (free.advance g).size = min (8 * g.lookaheadSize) free.ack := advance_size free
  have hackle := h.ack_le
  have hsizele : (free.advance g).size ≤ g.blockCount := by omega
  have hbit : ∀ k < (free.advance g).size,
      (blocks.foldl (lfsAllocLookahead g) (free.advance g)).used k ↔
        (free.advance g).block g k ∈ inUse := by
    intro k hk
    rw [used_foldl_lookahead blocks (fun b hb => hin b ((hblocks b).mp hb)) hofflt hsizele hk,
      hblocks, or_iff_right (not_used_advance hk)]
  have hpos : (free.advance g).off + 0 ≡ free.off + free.i [MOD g.blockCount] := by
    rw [hoff, Nat.add_zero]
    exact Nat.mod_modEq _ _
  obtain ⟨buffer, hfold⟩ := foldl_lookahead g blocks (free.advance g)
  rw [hfold] at hbit ⊢
  refine ⟨hofflt, Nat.zero_le _, hsizele, ?_, h.ack_le, fun k _ hk hclear hmem =>
    hclear ((hbit k hk).mpr hmem), fun k _ hk hset => hsub ((hbit k hk).mp hset),
    fun b hb => (behind_congr hpos).mpr (h.recent b hb),
    fun b hb => h.passed b ((behind_congr hpos).mp hb)⟩
  show (free.advance g).size ≤ 0 + free.ack
  omega

/-- Formatting starts with a window on a device none of whose blocks is in use. -/
theorem of_format (free : LfsFree) (hcount : 0 < g.blockCount) (found : Set ℕ) :
    (formatFree g free).Accounts g ∅ ∅ found := by
  have hformat : formatFree g free = (lfsAllocDrop g { free with off := 0 }).advance g := by
    rw [LfsFree.advance]
    exact congrArg (fun off => ({ formatFree g free with off := off } : LfsFree))
      (Nat.zero_mod g.blockCount).symm
  rw [hformat]
  have hnone : ∀ b, b ∈ ([] : List ℕ) ↔ b ∈ (∅ : Set ℕ) := fun b => by simp
  exact (of_drop hcount ∅ found).advance rfl hnone (fun b hb => hb.elim) (Set.empty_subset found)

end LfsFree.Accounts

/-! ### One call -/

section Calls

variable {g : LfsGeometry} {inUse pending found : Set ℕ} {E : LfsHalt → LfsFree → Prop}

/-- Skipping the marked blocks keeps the account. -/
theorem skipUsed_spec (fuel : ℕ) {free : LfsFree} (h : free.Accounts g inUse pending found)
    (hfuel : free.size - free.i < fuel) :
    Ends (fun _ t => t.Accounts g inUse pending found) E (skipUsed fuel free) := by
  induction fuel generalizing free with
  | zero => omega
  | succ fuel ih =>
      rw [skipUsed, bind_of_ok (get_apply _)]
      split
      · rename_i hcond
        obtain ⟨hne, hused⟩ := hcond
        have hi : free.i < free.size := Nat.lt_of_le_of_ne h.i_le hne
        rw [bind_of_ok (modify_apply _ _)]
        have hless : free.pass.size - free.pass.i < fuel := by
          show free.size - (free.i + 1) < fuel
          omega
        exact ih (h.pass_used hi hused) hless
      · exact h

/-- A search of the window hands out the next free block of it, or passes all of it. -/
theorem searchWindow_spec (fuel : ℕ) {free : LfsFree} (h : free.Accounts g inUse pending found)
    (hfuel : free.size - free.i < fuel) :
    Ends
      (fun r t => match r with
        | some b => b < g.blockCount ∧ b ∉ inUse ∧ b ∉ pending ∧
            t.Accounts g inUse (insert b pending) found
        | none => t.Accounts g inUse pending found ∧ t.i = t.size ∧
            t.ack + (free.size - free.i) = free.ack)
      E (searchWindow g fuel free) := by
  induction fuel generalizing free with
  | zero => omega
  | succ fuel ih =>
      rw [searchWindow, bind_of_ok (get_apply _)]
      split
      · rename_i hi
        exact ⟨h, hi, by omega⟩
      rename_i hne
      have hi : free.i < free.size := Nat.lt_of_le_of_ne h.i_le hne
      have hless : free.pass.size - free.pass.i < fuel := by
        show free.size - (free.i + 1) < fuel
        omega
      rw [bind_of_ok (modify_apply _ _)]
      split
      · rename_i hused
        refine (ih (h.pass_used hi hused) hless).imp (fun r t ht => ?_) fun _ _ he => he
        cases r with
        | some b => exact ht
        | none =>
            obtain ⟨hacc, hend, hack⟩ := ht
            refine ⟨hacc, hend, ?_⟩
            rw [h.ack_pass hi] at hack
            have hsize : free.pass.size - free.pass.i = free.size - free.i - 1 := by
              show free.size - (free.i + 1) = _
              omega
            have hahead := h.ahead_le
            omega
      · rename_i hfree
        have hcount := g.count_le
        have hsize := h.size_le
        have hoff := h.off_lt
        have hblock : u32 (free.off + free.i) % g.blockCount = free.block g free.i := by
          rw [LfsFree.block, u32]
          congr 1
          omega
        refine (skipUsed_spec fuel (h.pass_free hi) hless).bind fun _ t ht => ?_
        rw [hblock]
        exact ⟨Nat.mod_lt _ (by omega), h.clear _ (Nat.le_refl _) hi hfree,
          h.not_pending (Nat.le_refl _) hi, ht⟩

variable {σ : Type}

/-- What is relied on of the traversal of a file system in order: it calls back with the blocks
in use and no others, leaves in use what is, and fails with error codes of its own. -/
structure Visits (g : LfsGeometry) (traverse : LfsProg σ (List ℕ)) (Ok : σ → Prop)
    (use : σ → Set ℕ) : Prop where
  lt : ∀ s, Ok s → ∀ b ∈ use s, b < g.blockCount
  ends : ∀ s, Ok s →
    Ends (fun blocks t => (Ok t ∧ use t = use s) ∧ ∀ b, b ∈ blocks ↔ b ∈ use s)
      (fun e t => (Ok t ∧ use t = use s) ∧ ∃ code, e = .err code ∧ code ≠ lfsErrNospc) (traverse s)

variable {traverse : LfsProg σ (List ℕ)} {Ok : σ → Prop} {use : σ → Set ℕ} {s : LfsAlloc σ}

/-- A block is handed out that is neither in use nor handed out already. -/
def HandsOut (g : LfsGeometry) (Ok : σ → Prop) (use : σ → Set ℕ) (inUse pending found : Set ℕ)
    (b : ℕ) (t : LfsAlloc σ) : Prop :=
  (Ok t.fs ∧ use t.fs = inUse) ∧ (b < g.blockCount ∧ b ∉ inUse ∧ b ∉ pending) ∧
    t.free.Accounts g inUse (insert b pending) found

/-- There is no space, and every block was handed out or found in use; or the traversal failed,
and the window is dropped. -/
def Refuses (g : LfsGeometry) (traverse : LfsProg σ (List ℕ)) (Ok : σ → Prop) (use : σ → Set ℕ)
    (inUse pending found : Set ℕ) (e : LfsHalt) (t : LfsAlloc σ) : Prop :=
  (Ok t.fs ∧ use t.fs = inUse) ∧
    ((e = .err lfsErrNospc ∧ (∀ b < g.blockCount, b ∈ pending ∪ found) ∧
        t.free.Accounts g inUse pending found) ∨
      (e ≠ .err lfsErrNospc ∧ (∃ fs, Ok fs ∧ traverse fs = .error e t.fs) ∧
        ∀ found, t.free.Accounts g inUse ∅ found))

/-- The next window is filled, or dropped. -/
theorem markUsed_spec (hvisits : Visits g traverse Ok use)
    (h : s.free.Accounts g inUse pending found) (hs : Ok s.fs ∧ use s.fs = inUse)
    (hsub : inUse ⊆ found) (hi : s.free.i = s.free.size) :
    Ends (fun _ t => (Ok t.fs ∧ use t.fs = inUse) ∧ t.free.Accounts g inUse pending found ∧
        t.free.ack = s.free.ack ∧ t.free.size = (s.free.advance g).size ∧ t.free.i = 0)
      (Refuses g traverse Ok use inUse pending found)
      (markUsed g traverse { s with free := s.free.advance g }) := by
  obtain ⟨hok, huse⟩ := hs
  have hends := hvisits.ends s.fs hok
  rw [huse] at hends
  rw [markUsed]
  dsimp only
  cases hrun : traverse s.fs with
  | ok blocks fs =>
      rw [hrun] at hends
      obtain ⟨hfs, hblocks⟩ := hends
      have hin : ∀ b ∈ inUse, b < g.blockCount := fun b hb => hvisits.lt s.fs hok b (huse ▸ hb)
      refine ⟨hfs, h.advance hi hblocks hin hsub, ?_⟩
      obtain ⟨buffer, hfold⟩ := LfsFree.foldl_lookahead g blocks (s.free.advance g)
      rw [hfold]
      exact ⟨rfl, rfl, rfl⟩
  | error e fs =>
      rw [hrun] at hends
      obtain ⟨hfs, code, rfl, hcode⟩ := hends
      refine ⟨hfs, .inr ⟨fun heq => ?_, ⟨s.fs, hok, hrun⟩, fun found =>
        .of_drop (h.advance_off_lt hi) inUse found⟩⟩
      cases heq
      exact hcode rfl

/-- From an account, the search ends by handing out a block or by refusing, as it should. -/
theorem lfsAllocLoop_spec (hvisits : Visits g traverse Ok use) (fuel : ℕ) {s : LfsAlloc σ}
    (h : s.free.Accounts g inUse pending found) (hs : Ok s.fs ∧ use s.fs = inUse)
    (hsub : inUse ⊆ found)
    (hfuel : s.free.ack - (s.free.size - s.free.i) < fuel) :
    Ends (HandsOut g Ok use inUse pending found) (Refuses g traverse Ok use inUse pending found)
      (lfsAllocLoop g traverse fuel s) := by
  induction fuel generalizing s with
  | zero => omega
  | succ fuel ih =>
      rw [lfsAllocLoop, bind_of_ok (get_apply _)]
      have hsearch := searchWindow_spec (E := fun _ _ => False) (s.free.size - s.free.i + 1) h
        (Nat.lt_succ_self _)
      obtain ⟨r, free, hrun, hr⟩ := hsearch.returns
      have honfree : onFree (searchWindow g (s.free.size - s.free.i + 1)) s
          = .ok r { s with free := free } := by
        rw [onFree, zoom, hrun]
      rw [bind_of_ok honfree]
      cases r with
      | some b =>
          obtain ⟨hb, hnot, hnew, hacc⟩ := hr
          exact ⟨hs, ⟨hb, hnot, hnew⟩, hacc⟩
      | none =>
          obtain ⟨hacc, hi, hack⟩ := hr
          dsimp only
          rw [bind_of_ok (get_apply _)]
          split
          · rename_i hzero
            exact ⟨hs, .inl ⟨rfl, fun b hb => hacc.exhausted hzero hb, hacc⟩⟩
          · rename_i hpos
            rw [bind_of_ok (modify_apply _ _)]
            refine (markUsed_spec (s := { s with free := free }) hvisits hacc hs hsub hi).bind ?_
            rintro - t ⟨ht, htacc, htack, htsize, hti⟩
            have hsize : (free.advance g).size = min (8 * g.lookaheadSize) free.ack :=
              LfsFree.Accounts.advance_size free
            have hlook := g.lookahead_pos
            have hpos' : free.ack ≠ 0 := hpos
            have htack' : t.free.ack = free.ack := htack
            have htsize' : t.free.size = (free.advance g).size := htsize
            exact ih htacc ht (by omega)

/-- **One call.** The allocator hands out a block that is not in use and was not handed out
since the last acknowledgement, or it came past every block, or the traversal failed. -/
theorem lfsAlloc_spec (hvisits : Visits g traverse Ok use)
    (hok : Ok s.fs) (h : s.free.Accounts g (use s.fs) pending found) :
    Ends (HandsOut g Ok use (use s.fs) pending (found ∪ use s.fs))
      (Refuses g traverse Ok use (use s.fs) pending (found ∪ use s.fs))
      (lfsAlloc g traverse s) := by
  rw [lfsAlloc, bind_of_ok (get_apply _)]
  exact lfsAllocLoop_spec hvisits _ (h.mono_found Set.subset_union_left) ⟨hok, rfl⟩
    Set.subset_union_right (by omega)

end Calls

/-! ### Runs -/

/-- What happens to the allocator: a block is asked for, what was handed out is acknowledged, the
file system changes, a file system is mounted, the device is formatted. -/
inductive AllocEvent (σ : Type)
  | alloc
  | ack
  | update (f : σ → σ)
  | mount (seed : ℕ) (f : σ → σ)
  | format (f : σ → σ)

/-- The allocator is set up. -/
def AllocEvent.Starts {σ : Type} : AllocEvent σ → Prop
  | .mount _ _ | .format _ => True
  | _ => False

/-- The allocator with what was handed out since the last acknowledgement, and what was found in
use: at a request since then, or by the bits that were still ahead when it came. -/
structure AllocView (σ : Type) where
  alloc : LfsAlloc σ
  pending : Set ℕ
  found : Set ℕ

section Runs

variable {σ : Type} (g : LfsGeometry) (traverse : LfsProg σ (List ℕ)) (Ok : σ → Prop)
  (use : σ → Set ℕ)

/-- A call has found in use what is. -/
def AllocView.answered (v : AllocView σ) :
    EStateM.Result LfsHalt (LfsAlloc σ) ℕ → AllocView σ
  | .ok b t => ⟨t, insert b v.pending, v.found ∪ use v.alloc.fs⟩
  | .error e t =>
      ⟨t, if e = .err lfsErrNospc then v.pending else ∅, v.found ∪ use v.alloc.fs⟩

/-- What a call makes of the allocator and of what is remembered beside it. -/
def AllocView.next (v : AllocView σ) : AllocEvent σ → AllocView σ
  | .alloc => v.answered use (lfsAlloc g traverse v.alloc)
  | .ack =>
      ⟨{ v.alloc with free := lfsAllocAck g v.alloc.free }, ∅, v.alloc.free.stale g⟩
  | .update f => { v with alloc := { v.alloc with fs := f v.alloc.fs } }
  | .mount seed f => ⟨⟨mountFree g seed v.alloc.free, f v.alloc.fs⟩, ∅, ∅⟩
  | .format f => ⟨⟨formatFree g v.alloc.free, f v.alloc.fs⟩, ∅, ∅⟩

/-- A change of a mounted file system takes into use only what was handed out for it. -/
def AllocView.Legal (v : AllocView σ) : AllocEvent σ → Prop
  | .update f => Ok (f v.alloc.fs) ∧ use (f v.alloc.fs) ⊆ use v.alloc.fs ∪ v.pending
  | .mount _ f => Ok (f v.alloc.fs)
  | .format f => Ok (f v.alloc.fs) ∧ use (f v.alloc.fs) = ∅
  | _ => True

/-- The allocator accounts for what is remembered. -/
def AllocView.Good (v : AllocView σ) : Prop :=
  Ok v.alloc.fs ∧ v.alloc.free.Accounts g (use v.alloc.fs) v.pending v.found

variable {g : LfsGeometry} {traverse : LfsProg σ (List ℕ)} {Ok : σ → Prop} {use : σ → Set ℕ}
  {v : AllocView σ}

/-- A mount or an acknowledgement starts an account. -/
theorem AllocView.good_start (hcount : 0 < g.blockCount) {event : AllocEvent σ}
    (hstart : event.Starts) (hlegal : v.Legal Ok use event) :
    (v.next g traverse use event).Good g Ok use := by
  cases event with
  | mount seed f => exact ⟨hlegal, .of_drop (Nat.mod_lt seed hcount) _ ∅⟩
  | format f =>
      obtain ⟨hok, huse⟩ := hlegal
      refine ⟨hok, ?_⟩
      show (formatFree g v.alloc.free).Accounts g (use (f v.alloc.fs)) ∅ ∅
      rw [huse]
      exact .of_format _ hcount ∅
  | _ => exact hstart.elim

/-- What every event keeps of the window. -/
theorem AllocView.Good.next (hvisits : Visits g traverse Ok use) (hcount : 0 < g.blockCount)
    (hv : v.Good g Ok use) {event : AllocEvent σ} (hlegal : v.Legal Ok use event) :
    (v.next g traverse use event).Good g Ok use := by
  obtain ⟨hok, hacc⟩ := hv
  cases event with
  | alloc =>
      have hspec := lfsAlloc_spec hvisits hok hacc
      show (v.answered use (lfsAlloc g traverse v.alloc)).Good g Ok use
      cases hrun : lfsAlloc g traverse v.alloc with
      | ok b t =>
          rw [hrun] at hspec
          obtain ⟨⟨htok, htuse⟩, -, htacc⟩ := hspec
          rw [← htuse] at htacc
          rw [AllocView.answered, ← htuse]
          exact ⟨htok, htacc⟩
      | error e t =>
          rw [hrun] at hspec
          obtain ⟨⟨htok, htuse⟩, ⟨rfl, -, htacc⟩ | ⟨hne, -, htacc⟩⟩ := hspec
          · rw [← htuse] at htacc
            rw [AllocView.answered, if_pos rfl, ← htuse]
            exact ⟨htok, htacc⟩
          · rw [← htuse] at htacc
            rw [AllocView.answered, if_neg hne]
            exact ⟨htok, htacc _⟩
  | ack => exact ⟨hok, hacc.ack⟩
  | update f => exact ⟨hlegal.1, hacc.update hlegal.2⟩
  | mount seed f => exact good_start hcount trivial hlegal
  | format f => exact good_start hcount trivial hlegal

end Runs

end Num487Boot
