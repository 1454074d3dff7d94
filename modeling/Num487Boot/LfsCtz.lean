import Num487Boot.LfsLogs
import Num487Boot.Lib.LittleEndian

/-!
# CTZ Skip-Lists

A file that does not fit into its metadata is a list of blocks, linked backwards: block `i`
starts with pointers to the blocks 1, 2, 4, ... before it, as many as `i` has trailing zeros
and one more. What room that leaves differs from block to block, so a position in the file is
a block and an offset only by way of the closed form in `lfs_ctz_index`.

## Main results

* `lfsCtzIndex_eq_iff`: the closed form is the layout: it gives the block a position is in and
  the offset behind its pointers.
* `lfsCtzFind_spec`: a position is found, from the last block of the list.
* `lfsCtzFindLoop_hops`: with logarithmically many reads in the distance.
* `lfsCtzTraverse_spec`: a traversal visits each block once, from last to first.
-/

namespace Num487Boot

open Exec Memory

/-! ### The layout -/

section Layout

variable (g : LfsGeometry)

/-- The pointers at the start of a block take up so many bytes. -/
def ctzHeader (i : ℕ) : ℕ := if i = 0 then 0 else 4 * (lfsCtz i + 1)

/-- The position in the file of the first byte of a block. -/
def ctzStart : ℕ → ℕ
  | 0 => 0
  | i + 1 => ctzStart i + (g.blockSize - ctzHeader i)

/-- `lfs_ctz_index` -/
def lfsCtzIndex (off : ℕ) : ℕ × ℕ :=
  let size := off
  let b := g.blockSize - 2 * 4
  let i := size / b
  if i = 0 then (0, off)
  else
    let i := u32 (size - 4 * (lfsPopc (i - 1) + 2)) / b
    (i, u32 (size - b * i - 4 * lfsPopc i))

variable {g}

/-- A word has fewer than 32 trailing zeros. -/
theorem lfsCtz_lt {i : ℕ} (hpos : 0 < i) (h : i < 2 ^ 32) : lfsCtz i < 32 := Bits.trailing_lt hpos h

/-- A block but the first starts with one pointer for each power of two that divides its index. -/
theorem ctzHeader_of_pos {i : ℕ} (hpos : 0 < i) : ctzHeader i = 4 * (lfsCtz i + 1) :=
  if_neg (Nat.ne_of_gt hpos)

/-- Later blocks start later in the file. -/
theorem ctzStart_mono {i j : ℕ} (h : i ≤ j) : ctzStart g i ≤ ctzStart g j := by
  induction h with
  | refl => exact Nat.le_refl _
  | step _ ih => exact Nat.le_trans ih (Nat.le_add_right _ _)

/-- **The closed form.** The pointers of `k` blocks are two for each, less one for each bit
set in `k`. -/
theorem ctzStart_succ {k : ℕ} (h : k < 2 ^ 32) :
    ctzStart g (k + 1) = (g.blockSize - 8) * (k + 1) + 4 * (lfsPopc k + 2) := by
  have hblock := g.block_ge
  induction k with
  | zero =>
      have hzero : lfsPopc 0 = 0 := Bits.ones_zero 32
      rw [ctzStart, ctzStart, ctzHeader, if_pos rfl, hzero]
      omega
  | succ k ih =>
      have hpos : 0 < k + 1 := Nat.succ_pos k
      have hprev := ih (by omega)
      have hctz := lfsCtz_lt hpos h
      have hpopc : lfsPopc (k + 1) + lfsCtz (k + 1) = lfsPopc k + 1 := Bits.ones_add_trailing hpos h
      have hmul : (g.blockSize - 8) * (k + 1 + 1)
          = (g.blockSize - 8) * (k + 1) + (g.blockSize - 8) := Nat.mul_succ _ _
      rw [ctzStart, hprev, hmul, ctzHeader_of_pos hpos]
      omega

/-- The pointers of all blocks a 32-bit position could be behind take up less than a block. -/
theorem pointers_le {size : ℕ} (h : size < 2 ^ 32) {i : ℕ} (hi : i ≤ size / (g.blockSize - 8)) :
    4 * (lfsPopc (i - 1) + 2) ≤ g.blockSize - 8 ∧ i < 2 ^ 26 := by
  have hblock := g.block_ge
  have hlt : i < 2 ^ 26 := by
    have hdiv : size / (g.blockSize - 8) ≤ size / 120 :=
      Nat.div_le_div_left (by omega) (by omega)
    omega
  have hpopc : lfsPopc (i - 1) ≤ 26 := Bits.ones_le (by omega) 32
  exact ⟨by omega, hlt⟩

/-- The position is in the block, at the offset behind its pointers. -/
def CtzAt (g : LfsGeometry) (pos i off : ℕ) : Prop :=
  ctzHeader i ≤ off ∧ off < g.blockSize ∧ ctzStart g i + off = pos + ctzHeader i

/-- A position is in one block only. -/
theorem CtzAt.unique {pos i j off off' : ℕ} (hi : CtzAt g pos i off) (hj : CtzAt g pos j off') :
    i = j ∧ off = off' := by
  obtain ⟨hlow, hhigh, hpos⟩ := hi
  obtain ⟨hlow', hhigh', hpos'⟩ := hj
  have hends : pos < ctzStart g (i + 1) ∧ pos < ctzStart g (j + 1) := by
    rw [ctzStart, ctzStart]
    omega
  have heq : i = j := by
    rcases Nat.lt_trichotomy i j with h | h | h
    · have : ctzStart g (i + 1) ≤ ctzStart g j := ctzStart_mono h
      omega
    · exact h
    · have : ctzStart g (j + 1) ≤ ctzStart g i := ctzStart_mono h
      omega
  subst heq
  exact ⟨rfl, by omega⟩

/-- What is left of a position over whole blocks is in the block, if it is past its start and
not past its end. -/
theorem ctzAt_of_rest {i x : ℕ} (h : i < 2 ^ 32) (hlow : i = 0 ∨ 4 * (lfsPopc (i - 1) + 2) ≤ x)
    (hhigh : x < g.blockSize + 4 * lfsPopc i) :
    CtzAt g ((g.blockSize - 8) * i + x) i (x - 4 * lfsPopc i) ∧ 4 * lfsPopc i ≤ x := by
  have hblock := g.block_ge
  rcases i with _ | k
  · have hzero : lfsPopc 0 = 0 := Bits.ones_zero 32
    have hheader : ctzHeader 0 = 0 := rfl
    have hstart : ctzStart g 0 = 0 := rfl
    exact ⟨⟨by omega, by omega, by omega⟩, by omega⟩
  · have hpos : 0 < k + 1 := Nat.succ_pos k
    have hpopc : lfsPopc (k + 1) + lfsCtz (k + 1) = lfsPopc k + 1 := Bits.ones_add_trailing hpos h
    have hheader := ctzHeader_of_pos hpos
    have hstart := ctzStart_succ (g := g) (Nat.lt_of_succ_lt h)
    rw [Nat.add_sub_cancel] at hlow
    exact ⟨⟨by omega, by omega, by omega⟩, by omega⟩

/-- `lfs_ctz_index` finds the block and the offset of a position. -/
theorem ctzAt_lfsCtzIndex {size : ℕ} (h : size < 2 ^ 32) :
    CtzAt g size (lfsCtzIndex g size).1 (lfsCtzIndex g size).2 := by
  have hblock := g.block_ge
  obtain ⟨b, hb⟩ : ∃ b, g.blockSize - 8 = b := ⟨_, rfl⟩
  have hbpos : 0 < b := by omega
  have hdiv := Nat.div_add_mod size b
  have hmod := Nat.mod_lt size hbpos
  obtain ⟨i, hi⟩ : ∃ i, size / b = i := ⟨_, rfl⟩
  obtain ⟨r, hr⟩ : ∃ r, size % b = r := ⟨_, rfl⟩
  have hpointers : ∀ j ≤ i, 4 * (lfsPopc (j - 1) + 2) ≤ b ∧ j < 2 ^ 26 := fun j hj => by
    rw [← hb]
    exact pointers_le h (by rwa [hb, hi])
  rw [hi, hr] at hdiv
  rw [hr] at hmod
  -- it is enough to name the block and what is left of the position over whole blocks
  have hdone : ∀ j x, b * j + x = size → j ≤ i → (j = 0 ∨ 4 * (lfsPopc (j - 1) + 2) ≤ x) →
      x < g.blockSize + 4 * lfsPopc j →
      CtzAt g size j (u32 (size - b * j - 4 * lfsPopc j)) := by
    intro j x hsize hj hlow hhigh
    have hj32 := (hpointers j hj).2
    obtain ⟨hat, hle⟩ := ctzAt_of_rest (by omega) hlow hhigh
    have hoff : u32 ((size : ℤ) - b * j - 4 * lfsPopc j) = x - 4 * lfsPopc j := by
      have hsize' : (size : ℤ) = b * j + x := by exact_mod_cast hsize.symm
      rw [u32]
      omega
    rw [hoff, ← hsize, ← hb]
    exact hat
  rw [lfsCtzIndex, hb]
  dsimp only
  rw [hi]
  split
  · rename_i hzero
    rw [hzero, Nat.mul_zero] at hdiv
    have hat := hdone 0 size (by rw [Nat.mul_zero, Nat.zero_add]) (Nat.zero_le i) (.inl rfl)
      (by omega)
    have hoff : u32 ((size : ℤ) - b * (0 : ℕ) - 4 * lfsPopc 0) = size := by
      have hpopc : lfsPopc 0 = 0 := Bits.ones_zero 32
      rw [hpopc, u32]
      omega
    rwa [hoff] at hat
  · rename_i hpos
    obtain ⟨hle, hlt⟩ := hpointers i (Nat.le_refl i)
    -- the first guess is one too high if the position is before the start of its block
    have hnum : u32 ((size : ℤ) - 4 * (lfsPopc (i - 1) + 2))
        = size - 4 * (lfsPopc (i - 1) + 2) := by
      have hbi : b ≤ b * i := Nat.le_mul_of_pos_right b (by omega)
      rw [u32]
      omega
    rw [hnum]
    by_cases hrest : 4 * (lfsPopc (i - 1) + 2) ≤ r
    · have hquot : (size - 4 * (lfsPopc (i - 1) + 2)) / b = i := by
        have hsplit : size - 4 * (lfsPopc (i - 1) + 2) = r - 4 * (lfsPopc (i - 1) + 2) + b * i := by
          omega
        rw [hsplit, Nat.add_mul_div_left _ _ hbpos, Nat.div_eq_of_lt (by omega), Nat.zero_add]
      rw [hquot]
      exact hdone i r hdiv (Nat.le_refl i) (.inr hrest) (by omega)
    · obtain ⟨k, rfl⟩ : ∃ k, i = k + 1 := ⟨i - 1, by omega⟩
      rw [Nat.add_sub_cancel] at hrest hle ⊢
      rw [Nat.mul_succ] at hdiv
      have hquot : (size - 4 * (lfsPopc k + 2)) / b = k := by
        have hsplit : size - 4 * (lfsPopc k + 2) = b + r - 4 * (lfsPopc k + 2) + b * k := by omega
        rw [hsplit, Nat.add_mul_div_left _ _ hbpos, Nat.div_eq_of_lt (by omega), Nat.zero_add]
      rw [hquot]
      have hprev := (hpointers k (by omega)).1
      exact hdone k (b + r) (by omega) (by omega) (.inr (by omega)) (by omega)

/-- The block and the offset of a position are the only ones. -/
theorem CtzAt.index_eq {size i off : ℕ} (hat : CtzAt g size i off) (h : size < 2 ^ 32) :
    lfsCtzIndex g size = (i, off) := by
  obtain ⟨hi, hoff⟩ := (ctzAt_lfsCtzIndex h).unique hat
  exact Prod.ext hi hoff

/-- **The closed form is the layout.** The index of a position is the block it is in, and its
offset behind the pointers of that block. -/
theorem lfsCtzIndex_eq_iff {size i off : ℕ} (h : size < 2 ^ 32) :
    lfsCtzIndex g size = (i, off) ↔ CtzAt g size i off := by
  constructor
  · intro heq
    have hat := ctzAt_lfsCtzIndex (g := g) h
    rwa [heq] at hat
  · exact fun hat => hat.index_eq h

/-- The last byte of the second block of 128 bytes is at position 251. -/
theorem lfsCtzIndex_eq_iff_last :
    lfsCtzIndex forgetful.toLfsGeometry 251 = (1, 127) ↔ CtzAt forgetful.toLfsGeometry 251 1 127 :=
  lfsCtzIndex_eq_iff (by decide)

end Layout

/-! ### Following the pointers -/

section Programs

variable {δ : Type} (c : LfsSetup δ)

/-- The loop of `lfs_ctz_find`. -/
def lfsCtzFindLoop (cached : Bool) : ℕ → ℕ → ℕ → ℕ → LfsProg (LfsBd δ) ℕ
  | 0, _, _, _ => throw .endless
  | fuel + 1, head, current, target =>
      if current > target then do
        let skip := min (lfsNpw2 (current - target + 1) - 1) (lfsCtz current)
        let bytes ← bdRead c cached 4 head (4 * skip) 4
        lfsCtzFindLoop cached fuel (LittleEndian.decode bytes) (current - 2 ^ skip) target
      else pure head

/-- `cached` says whether the program cache is given. The loop has fuel for logarithmically
many hops, and one round to end in. -/
def lfsCtzFind (cached : Bool) (head size pos : ℕ) : LfsProg (LfsBd δ) (ℕ × ℕ) :=
  if size = 0 then pure (lfsBlockNull, 0)
  else do
    let current := (lfsCtzIndex c.toLfsGeometry (size - 1)).1
    let target := lfsCtzIndex c.toLfsGeometry pos
    let head ← lfsCtzFindLoop c cached (2 * (current - target.1).log2 + 3) head current target.1
    pure (head, target.2)

/-- The callback of a traversal, with the data it works on. -/
def visit {β : Type} (cb : β → ℕ → Except ℤ β) (data : β) (block : ℕ) :
    LfsProg (LfsBd δ) β :=
  match cb data block with
  | .ok data => pure data
  | .error code => throw (.err code)

/-- The loop of `lfs_ctz_traverse`. -/
def lfsCtzTraverseLoop {β : Type} (cached : Bool) (cb : β → ℕ → Except ℤ β) :
    ℕ → ℕ → ℕ → β → LfsProg (LfsBd δ) β
  | 0, _, _, _ => throw .endless
  | fuel + 1, head, index, data => do
      let data ← visit cb data head
      if index = 0 then pure data
      else do
        let count := 2 - index % 2
        let bytes ← bdRead c cached (count * 4) head 0 (count * 4)
        let head₀ := LittleEndian.decode (bytes.take 4)
        let head₁ := LittleEndian.decode (bytes.drop 4)
        if count = 2 then do
          let data ← visit cb data head₀
          lfsCtzTraverseLoop cached cb fuel head₁ (index - count) data
        else lfsCtzTraverseLoop cached cb fuel head₀ (index - count) data

/-- `lfs_ctz_traverse` -/
def lfsCtzTraverse {β : Type} (cached : Bool) (head size : ℕ) (cb : β → ℕ → Except ℤ β)
    (data : β) : LfsProg (LfsBd δ) β :=
  if size = 0 then pure data
  else do
    let index := (lfsCtzIndex c.toLfsGeometry (size - 1)).1
    lfsCtzTraverseLoop c cached cb (index + 1) head index data

end Programs

/-! ### Lists -/

/-- The blocks `bl 0`, ..., `bl n` are a list: each but the first starts with pointers to those
1, 2, 4, ... before it. -/
structure BlockLogs.Linked (L : BlockLogs) (g : LfsGeometry) (bl : ℕ → ℕ) (n : ℕ) : Prop where
  count : ∀ i ≤ n, bl i < g.blockCount
  pointer : ∀ i ≤ n, 0 < i → ∀ j ≤ lfsCtz i,
    L.part (bl i) (4 * j) 4 = LittleEndian.encode 4 (bl (i - 2 ^ j))

namespace BlockLogs

variable {δ : Type} {c : LfsSetup δ} {R : δ → BlockDevice → Prop} {L : BlockLogs}

/-- A part is as long as the log has bytes for it. -/
theorem length_part (L : BlockLogs) (block off size : ℕ) :
    (L.part block off size).length = min size ((L.bytes block).length - off) := by
  rw [part, List.length_take, List.length_drop]

/-- Two adjacent parts. -/
theorem part_add (L : BlockLogs) (block off m n : ℕ) :
    L.part block off (m + n) = L.part block off m ++ L.part block (off + m) n := by
  rw [part, part, part, List.take_add, List.drop_drop]

/-- Hops still to go, at most: first along growing powers of two, until the next is too far,
then along falling ones. -/
def ctzHops (current target : ℕ) : ℕ :=
  let d := current - target
  if d = 0 then 0
  else if lfsCtz current ≤ d.log2 then 2 * d.log2 + 2 - lfsCtz current
  else d.log2 + 1

/-- The way to a block is logarithmic in the distance. -/
theorem ctzHops_le (current target : ℕ) :
    ctzHops current target ≤ 2 * (current - target).log2 + 2 := by
  rw [ctzHops]
  split
  · omega
  · split <;> omega

/-- A hop does not pass its target, and brings it nearer. -/
theorem ctzHops_hop {current target skip : ℕ} (h : target < current) (h32 : current < 2 ^ 32)
    (hskip : skip = min (current - target).log2 (lfsCtz current)) :
    2 ^ skip ≤ current - target ∧
      ctzHops (current - 2 ^ skip) target < ctzHops current target := by
  obtain ⟨d, hd⟩ : ∃ d, current - target = d := ⟨_, rfl⟩
  rw [hd] at hskip
  have hne : d ≠ 0 := by omega
  have hlog := Nat.log2_self_le hne
  have hpos : 0 < current := by omega
  have hle : 2 ^ skip ≤ d := by
    refine Nat.le_trans (Nat.pow_le_pow_right Nat.two_pos ?_) hlog
    omega
  have hrest : current - 2 ^ skip - target = d - 2 ^ skip := by omega
  rw [hd]
  refine ⟨hle, ?_⟩
  rw [ctzHops, ctzHops, hd, hrest, if_neg hne]
  by_cases hzero : d - 2 ^ skip = 0
  · rw [if_pos hzero]
    split <;> omega
  have hne' : d - 2 ^ skip ≠ 0 := hzero
  rw [if_neg hzero]
  by_cases hup : lfsCtz current ≤ d.log2
  · -- still going up: the next power of two is higher
    obtain rfl : skip = lfsCtz current := by omega
    have hnext : lfsCtz current < lfsCtz (current - 2 ^ lfsCtz current) :=
      Bits.lt_trailing_sub h32 (show 2 ^ lfsCtz current < current by omega)
    have hlog' : (d - 2 ^ lfsCtz current).log2 < d.log2 + 1 := by
      rw [Nat.log2_lt hne']
      exact Nat.lt_of_le_of_lt (Nat.sub_le _ _) Nat.lt_log2_self
    rw [if_pos hup]
    split <;> omega
  · -- going down: what is left is below the power of two just taken
    have hlt : d.log2 < lfsCtz current := by omega
    obtain rfl : skip = d.log2 := by omega
    have hnext : lfsCtz (current - 2 ^ d.log2) = d.log2 :=
      Bits.trailing_sub_two_pow hpos h32 hlt
    have hlog' : (d - 2 ^ d.log2).log2 < d.log2 := by
      rw [Nat.log2_lt hne']
      have := Nat.lt_log2_self (n := d)
      rw [Nat.pow_succ] at this
      omega
    rw [if_neg hup, hnext, if_neg (by omega)]
    omega

section Linked

variable {bl : ℕ → ℕ} {n : ℕ} {cached : Bool} {s : LfsBd δ}

/-- The pointers of a block are known of. -/
theorem Linked.known {g : LfsGeometry} (hlist : L.Linked g bl n) {i j : ℕ} (hi : i ≤ n)
    (hpos : 0 < i) (hj : j ≤ lfsCtz i) : 4 * j + 4 ≤ (L.bytes (bl i)).length := by
  have hlen := congrArg List.length (hlist.pointer i hi hpos j hj)
  rw [length_part, LittleEndian.length_encode] at hlen
  omega

/-- A pointer of a list names the block it should. -/
theorem Linked.decode_pointer {g : LfsGeometry} (hlist : L.Linked g bl n) {i j : ℕ} (hi : i ≤ n)
    (hpos : 0 < i) (hj : j ≤ lfsCtz i) :
    LittleEndian.decode (L.part (bl i) (4 * j) 4) = bl (i - 2 ^ j) := by
  have hblock := hlist.count (i - 2 ^ j) (Nat.le_trans (Nat.sub_le _ _) hi)
  have hcount := g.count_le
  rw [hlist.pointer i hi hpos j hj, LittleEndian.decode_encode (by omega)]

/-- Bytes among the pointers of a block can be read. -/
theorem Linked.bdRead (hc : c.Drives R) (hreads : c.ReadsSucceed R) (hs : L.Shown c R s)
    (hlist : L.Linked c.toLfsGeometry bl n) {i j : ℕ} (hi : i ≤ n) (hpos : 0 < i)
    (hj : j ≤ lfsCtz i) (hsees : L.Sees cached (bl i)) {off size : ℕ} (hsize : 0 < size)
    (hle : size ≤ 8) (hin : off + size ≤ 4 * j + 4) {E : LfsHalt → LfsBd δ → Prop} :
    Ends (fun bytes t => bytes = L.part (bl i) off size ∧ L.Shown c R t) E
      (bdRead c cached size (bl i) off size s) := by
  have hblock := c.block_ge
  have hknown := hlist.known hi hpos hj
  exact hs.bdRead hc hreads hsize ⟨hlist.count i hi, by omega, by omega, hsees⟩

/-- The loop of `lfs_ctz_find` ends at the target, if there is fuel for the hops. -/
theorem Linked.findLoop (hc : c.Drives R) (hreads : c.ReadsSucceed R)
    (hlist : L.Linked c.toLfsGeometry bl n) (hn : n < 2 ^ 32)
    (hsees : ∀ i ≤ n, L.Sees cached (bl i)) {target : ℕ} {E : LfsHalt → LfsBd δ → Prop} (fuel : ℕ) :
    ∀ {current : ℕ} {s : LfsBd δ}, L.Shown c R s → target ≤ current → current ≤ n →
      ctzHops current target < fuel →
      Ends (fun head t => head = bl target ∧ L.Shown c R t) E
        (lfsCtzFindLoop c cached fuel (bl current) current target s) := by
  induction fuel with
  | zero =>
      intro current s _ _ _ hfuel
      omega
  | succ fuel ih =>
      intro current s hs hle hcurrent hfuel
      rw [lfsCtzFindLoop]
      split
      · rename_i hgt
        have hnpw : lfsNpw2 (current - target + 1) - 1 = (current - target).log2 :=
          lfsNpw2_succ_sub_one (by omega) (by omega)
        obtain ⟨skip, hskip⟩ : ∃ skip, min (current - target).log2 (lfsCtz current) = skip :=
          ⟨_, rfl⟩
        obtain ⟨hhop, hfewer⟩ := ctzHops_hop hgt (by omega) hskip.symm
        have hj : skip ≤ lfsCtz current := hskip ▸ Nat.min_le_right _ _
        rw [hnpw, hskip]
        refine (hlist.bdRead hc hreads hs hcurrent (by omega) hj (hsees current hcurrent)
          (by decide) (by decide) (Nat.le_refl _)).bind ?_
        rintro _ t ⟨rfl, ht⟩
        rw [hlist.decode_pointer hcurrent (by omega) hj]
        have hbelow : current - 2 ^ skip ≤ n := Nat.le_trans (Nat.sub_le _ _) hcurrent
        have habove : target ≤ current - 2 ^ skip := by omega
        exact ih ht habove hbelow (by omega)
      · obtain rfl : current = target := by omega
        exact ⟨rfl, hs⟩

end Linked

end BlockLogs

/-- A later position is in a later block, or the same. -/
theorem CtzAt.mono {g : LfsGeometry} {pos pos' i j off off' : ℕ} (hi : CtzAt g pos i off)
    (hj : CtzAt g pos' j off') (h : pos ≤ pos') : i ≤ j := by
  obtain ⟨hlow, hhigh, hpos⟩ := hi
  obtain ⟨hlow', hhigh', hpos'⟩ := hj
  refine Nat.le_of_not_lt fun hlt => ?_
  have hstart : ctzStart g (j + 1) ≤ ctzStart g i := ctzStart_mono hlt
  rw [ctzStart] at hstart
  omega

/-- The blocks that start at 32-bit positions have 26-bit indices. -/
theorem lt_of_ctzStart_lt {g : LfsGeometry} {i : ℕ} (h : ctzStart g i < 2 ^ 32) : i < 2 ^ 26 := by
  refine Nat.lt_of_not_le fun hle => ?_
  have hblock := g.block_ge
  have hstart : ctzStart g (2 ^ 26 - 1 + 1) ≤ ctzStart g i := ctzStart_mono hle
  rw [ctzStart_succ (by decide)] at hstart
  omega

/-- Files of less than 4 GiB have fewer than 2²⁶ blocks. -/
theorem CtzAt.lt {g : LfsGeometry} {pos i off : ℕ} (hi : CtzAt g pos i off) (h : pos < 2 ^ 32) :
    i < 2 ^ 26 := by
  obtain ⟨hlow, hhigh, hpos⟩ := hi
  have hstart : ctzStart g i < 2 ^ 32 := by omega
  exact lt_of_ctzStart_lt hstart

/-- The start of a block is at the offset behind its pointers. -/
theorem ctzAt_start {g : LfsGeometry} {i : ℕ} (h : ctzStart g i < 2 ^ 32) :
    CtzAt g (ctzStart g i) i (ctzHeader i) := by
  have hblock := g.block_ge
  have hi := lt_of_ctzStart_lt h
  refine ⟨Nat.le_refl _, ?_, rfl⟩
  rcases Nat.eq_zero_or_pos i with rfl | hpos
  · exact g.block_pos
  · have hpow : 2 ^ lfsCtz i ≤ i := Bits.two_pow_trailing_le hpos (by omega)
    have hctz : lfsCtz i < 26 :=
      (Nat.pow_lt_pow_iff_right (by decide)).mp (Nat.lt_of_le_of_lt hpow hi)
    rw [ctzHeader_of_pos hpos]
    omega

open BlockLogs in
/-- From the last block of a file the pointers lead to the block of any position in it. -/
theorem BlockLogs.Linked.find {δ : Type} {c : LfsSetup δ} {R : δ → BlockDevice → Prop}
    {L : BlockLogs} {s : LfsBd δ} (hc : c.Drives R) (hreads : c.ReadsSucceed R)
    (hs : L.Shown c R s) {bl : ℕ → ℕ} {cached : Bool} {size pos n last i off : ℕ}
    (hpos : pos < size) (hsize : size < 2 ^ 32) (hn : CtzAt c.toLfsGeometry (size - 1) n last)
    (hi : CtzAt c.toLfsGeometry pos i off) (hlist : L.Linked c.toLfsGeometry bl n)
    (hsees : ∀ k ≤ n, L.Sees cached (bl k)) {E : LfsHalt → LfsBd δ → Prop} :
    Ends (fun r t => r = (bl i, off) ∧ L.Shown c R t) E
      (lfsCtzFind c cached (bl n) size pos s) := by
  have hcurrent := hn.index_eq (by omega)
  have htarget := hi.index_eq (by omega)
  have hle : i ≤ n := hi.mono hn (by omega)
  have hn32 : n < 2 ^ 32 := Nat.lt_trans (hn.lt (by omega)) (by decide)
  have hfuel : ctzHops n i < 2 * (n - i).log2 + 3 := Nat.lt_succ_of_le (ctzHops_le n i)
  rw [lfsCtzFind, if_neg (by omega), hcurrent, htarget]
  refine (hlist.findLoop hc hreads hn32 hsees _ hs hle (Nat.le_refl n) hfuel).bind ?_
  rintro _ t ⟨rfl, ht⟩
  exact ⟨rfl, ht⟩

/-! ### Traversal -/

/-- The blocks of a list from block `n` on, in the order of a traversal. -/
def ctzBlocks (bl : ℕ → ℕ) : ℕ → List ℕ
  | 0 => [bl 0]
  | n + 1 => bl (n + 1) :: ctzBlocks bl n

/-- The blocks are visited from the last to the first. -/
theorem ctzBlocks_eq (bl : ℕ → ℕ) (n : ℕ) :
    ctzBlocks bl n = (List.range (n + 1)).reverse.map bl := by
  induction n with
  | zero => rfl
  | succ n ih =>
      have hrange : List.range (n + 1 + 1) = List.range (n + 1) ++ [n + 1] := List.range_succ
      rw [ctzBlocks, ih, hrange, List.reverse_append, List.map_append]
      rfl

section Traversal

variable {δ : Type} {c : LfsSetup δ} {R : δ → BlockDevice → Prop} {L : BlockLogs} {β : Type}
  {cb : β → ℕ → Except ℤ β}

/-- How a traversal ends: as the callback does, called on the blocks one after the other. -/
def Visited (L : BlockLogs) (c : LfsSetup δ) (R : δ → BlockDevice → Prop)
    (cb : β → ℕ → Except ℤ β) (data : β) (blocks : List ℕ) :
    EStateM.Result LfsHalt (LfsBd δ) β → Prop :=
  Ends (fun data' t => blocks.foldlM cb data = .ok data' ∧ L.Shown c R t)
    (fun e t => (∃ code, blocks.foldlM cb data = .error code ∧ e = .err code) ∧ L.Shown c R t)

/-- One block is visited, and the rest after it. -/
theorem visited_cons {s : LfsBd δ} (hs : L.Shown c R s) {data : β} {block : ℕ} {blocks : List ℕ}
    {x : β → LfsProg (LfsBd δ) β} (hx : ∀ data', Visited L c R cb data' blocks (x data' s)) :
    Visited L c R cb data (block :: blocks) ((do let data ← visit cb data block; x data) s) := by
  rw [Visited, List.foldlM_cons, visit]
  cases hcb : cb data block with
  | ok data' => exact hx data'
  | error code => exact ⟨⟨code, rfl, rfl⟩, hs⟩

namespace BlockLogs

/-- From block `i` on, the traversal visits the blocks down to the first, and folds the callback
over them. -/
theorem Linked.traverseLoop (hc : c.Drives R) (hreads : c.ReadsSucceed R) {bl : ℕ → ℕ} {n : ℕ}
    {cached : Bool} (hlist : L.Linked c.toLfsGeometry bl n) (hn : n < 2 ^ 32)
    (hsees : ∀ i ≤ n, L.Sees cached (bl i)) (fuel : ℕ) :
    ∀ {i : ℕ} {s : LfsBd δ} (data : β), L.Shown c R s → i ≤ n → i < fuel →
      Visited L c R cb data (ctzBlocks bl i)
        (lfsCtzTraverseLoop c cached cb fuel (bl i) i data s) := by
  induction fuel with
  | zero =>
      intro i s data _ _ hfuel
      omega
  | succ fuel ih =>
      intro i s data hs hi hfuel
      rw [lfsCtzTraverseLoop]
      rcases i with _ | k
      · exact visited_cons hs fun data' => ⟨rfl, hs⟩
      refine visited_cons hs fun data' => ?_
      have hpos : 0 < k + 1 := Nat.succ_pos k
      have hk := hsees (k + 1) hi
      have hfirst := hlist.decode_pointer hi hpos (Nat.zero_le _)
      rw [if_neg (Nat.succ_ne_zero k)]
      rcases Nat.mod_two_eq_zero_or_one (k + 1) with heven | hodd
      · -- two pointers are read, and the block between visited on the way
        obtain ⟨m, rfl⟩ : ∃ m, k = m + 1 := ⟨k - 1, by omega⟩
        have hone : 1 ≤ lfsCtz (m + 1 + 1) :=
          (Bits.le_trailing_iff hpos (by omega)).mpr (Nat.dvd_of_mod_eq_zero heven)
        have hsecond := hlist.decode_pointer hi hpos hone
        have hknown := hlist.known hi hpos hone
        have hlen : (L.part (bl (m + 1 + 1)) (4 * 0) 4).length = 4 := by
          rw [length_part]
          omega
        rw [heven]
        refine (hlist.bdRead hc hreads hs hi hpos hone hk (by decide) (Nat.le_refl 8)
          (Nat.le_refl 8)).bind ?_
        rintro _ t ⟨rfl, ht⟩
        have hsplit : L.part (bl (m + 1 + 1)) 0 ((2 - 0) * 4)
            = L.part (bl (m + 1 + 1)) (4 * 0) 4 ++ L.part (bl (m + 1 + 1)) (4 * 1) 4 :=
          L.part_add _ 0 4 4
        rw [hsplit, List.take_left' hlen, List.drop_left' hlen, hfirst, hsecond, if_pos rfl]
        exact visited_cons ht fun data'' => ih data'' ht (by omega) (by omega)
      · rw [hodd]
        refine (hlist.bdRead hc hreads hs hi hpos (Nat.zero_le _) hk (by decide) (by decide)
          (Nat.le_refl 4)).bind ?_
        rintro _ t ⟨rfl, ht⟩
        have hlen : (L.part (bl (k + 1)) 0 ((2 - 1) * 4)).length ≤ 4 := by
          rw [length_part]
          exact Nat.min_le_left _ _
        rw [List.take_of_length_le hlen]
        have hfirst' : LittleEndian.decode (L.part (bl (k + 1)) 0 ((2 - 1) * 4)) = bl k := hfirst
        rw [hfirst']
        exact ih data' ht (by omega) (by omega)

end BlockLogs

end Traversal

/-! ### The list as a whole -/

section Whole

open BlockLogs

variable {δ : Type} {c : LfsSetup δ} {R : δ → BlockDevice → Prop} {L : BlockLogs} {s : LfsBd δ}
  {bl : ℕ → ℕ} {n : ℕ} {cached : Bool}

/-- **A block is found in logarithmically many hops.** From the last block of a list, the loop of
`lfs_ctz_find` comes to any block of it within twice as many reads as the distance has bits. -/
theorem lfsCtzFindLoop_hops (hc : c.Drives R) (hreads : c.ReadsSucceed R) (hs : L.Shown c R s)
    (hlist : L.Linked c.toLfsGeometry bl n) (hn : n < 2 ^ 32)
    (hsees : ∀ i ≤ n, L.Sees cached (bl i)) {i fuel : ℕ} (hi : i ≤ n)
    (hfuel : 2 * (n - i).log2 + 2 < fuel) :
    ∃ t, lfsCtzFindLoop c cached fuel (bl n) n i s = .ok (bl i) t ∧ L.Shown c R t := by
  have hhops := Nat.lt_of_le_of_lt (ctzHops_le n i) hfuel
  obtain ⟨_, t, hrun, rfl, ht⟩ :=
    (hlist.findLoop hc hreads hn hsees fuel hs hi (Nat.le_refl n) hhops).returns
  exact ⟨t, hrun, ht⟩

/-- **A traversal visits each block of a file once**, from the last to the first, and ends as its
callback does on these blocks. -/
theorem lfsCtzTraverse_spec (hc : c.Drives R) (hreads : c.ReadsSucceed R) (hs : L.Shown c R s)
    (hlist : L.Linked c.toLfsGeometry bl n) (hsees : ∀ i ≤ n, L.Sees cached (bl i)) {size last : ℕ}
    (hpos : 0 < size) (hsize : size < 2 ^ 32) (hn : CtzAt c.toLfsGeometry (size - 1) n last)
    {β : Type} (cb : β → ℕ → Except ℤ β) (data : β) :
    ∃ t, L.Shown c R t ∧ lfsCtzTraverse c cached (bl n) size cb data s
      = match ((List.range (n + 1)).reverse.map bl).foldlM cb data with
        | .ok data' => .ok data' t
        | .error code => .error (.err code) t := by
  have hn32 : n < 2 ^ 32 := Nat.lt_trans (hn.lt (by omega)) (by decide)
  have hloop : Visited L c R cb data (ctzBlocks bl n)
      (lfsCtzTraverseLoop c cached cb (n + 1) (bl n) n data s) :=
    hlist.traverseLoop hc hreads hn32 hsees (n + 1) data hs (Nat.le_refl n) (Nat.lt_succ_self n)
  rw [lfsCtzTraverse, if_neg (by omega), hn.index_eq (by omega)]
  dsimp only
  rw [Visited, ctzBlocks_eq] at hloop
  cases hrun : lfsCtzTraverseLoop c cached cb (n + 1) (bl n) n data s with
  | ok data' t =>
      rw [hrun] at hloop
      obtain ⟨hfold, ht⟩ := hloop
      exact ⟨t, ht, by rw [hfold]⟩
  | error e t =>
      rw [hrun] at hloop
      obtain ⟨⟨code, hfold, rfl⟩, ht⟩ := hloop
      exact ⟨t, ht, by rw [hfold]⟩

/-- A device with a file of 130 nines in blocks 2 and 3. -/
def ninesDevice : BlockDevice :=
  .ofMem fun a => if a = 12288 then 2 else if a < 12288 ∨ 12292 ≤ a then 9 else 0

/-- A file of two blocks, the second of which points to the first. -/
theorem linked_nines :
    (ofDevice forgetful.toLfsGeometry ninesDevice).Linked forgetful.toLfsGeometry (· + 2) 1 where
  count i hi := by
    have hcount : forgetful.blockCount = 4 := rfl
    omega
  pointer i hi hpos j hj := by
    obtain rfl : i = 1 := by omega
    obtain rfl : j = 0 := Nat.le_zero.mp hj
    rfl

/-- The state a file system is mounted in. -/
def ninesMounted : LfsBd BlockDevice :=
  ⟨ninesDevice, ⟨lfsBlockNull, 0, 0, fun _ => 0⟩, ⟨lfsBlockNull, 0, 0, fun _ => 0⟩⟩

/-- The device that holds it. -/
theorem shown_nines : (ofDevice forgetful.toLfsGeometry ninesDevice).Shown forgetful Eq
    ninesMounted := shown_ofDevice rfl rfl rfl

/-- From the second block one hop leads to the first. -/
theorem lfsCtzFindLoop_hops_nines :
    ∃ t, lfsCtzFindLoop forgetful false 3 3 1 0 ninesMounted = .ok 2 t := by
  obtain ⟨t, hrun, -⟩ := lfsCtzFindLoop_hops drives_forgetful readsSucceed_forgetful
    shown_nines linked_nines (by decide) (fun i _ => sees_ofDevice false) (Nat.zero_le 1)
    (Nat.lt_succ_self 2)
  exact ⟨t, hrun⟩

/-- A traversal that lists the blocks it visits. -/
theorem lfsCtzTraverse_spec_nines :
    ∃ t, lfsCtzTraverse forgetful false 3 130 (fun bs b => .ok (bs ++ [b])) [] ninesMounted
      = .ok [3, 2] t := by
  obtain ⟨t, -, hrun⟩ := lfsCtzTraverse_spec drives_forgetful readsSucceed_forgetful
    shown_nines linked_nines (fun i _ => sees_ofDevice false) (show 0 < 130 by decide) (by decide)
    (show CtzAt forgetful.toLfsGeometry 129 1 5 from ⟨by decide, by decide, by decide⟩)
    (fun bs b => .ok (bs ++ [b])) []
  exact ⟨t, hrun⟩

end Whole

end Num487Boot
