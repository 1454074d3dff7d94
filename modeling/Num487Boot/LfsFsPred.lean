import Num487Boot.LfsDirCached
import Num487Boot.Lib.Brent

/-!
# The List of Directories

Each directory names its successor, so that the directories of the file system are a list that
starts in blocks 0 and 1. `lfs_fs_pred` goes along the list up to the directory before a given
pair. On a corrupt disk the list may run in a circle; the search is stopped by Brent's algorithm.

## Main results

* `pred_ends`: what the search comes to on the content of the blocks.
* `lfsFsPred_ends`: through the caching layer.
-/

namespace Num487Boot

open Exec Memory Relation

/-! ### The search -/

/-- `lfs_pair_isnull` -/
def lfsPairIsnull (pair : ℕ × ℕ) : Bool := pair.1 == lfsBlockNull || pair.2 == lfsBlockNull

/-- `lfs_pair_issync` -/
def lfsPairIssync (a b : ℕ × ℕ) : Bool :=
  (a.1 == b.1 && a.2 == b.2) || (a.1 == b.2 && a.2 == b.1)

/-- `tortoise`, `tortoise_i` and `tortoise_period` -/
structure LfsTortoise where
  pair : ℕ × ℕ
  i : ℕ
  period : ℕ

/-- The detector before the first step. -/
def LfsTortoise.start : LfsTortoise := ⟨(lfsBlockNull, lfsBlockNull), 1, 1⟩

/-- The detector after one step without a cycle. -/
def LfsTortoise.follow (t : LfsTortoise) (tail : ℕ × ℕ) : LfsTortoise :=
  let t := if t.i = t.period then ⟨tail, 0, u32 (t.period * 2)⟩ else t
  { t with i := u32 (t.i + 1) }

/-- What `lfs_fs_pred` leaves: the directory, `lfs->seed` and its result. -/
structure LfsPred where
  dir : LfsMdir
  seed : UInt32
  res : Except LfsHalt ℤ

section Programs

variable (g : LfsGeometry) {m : Type → Type} [Monad m] (read : Reads m)

/-- The loop of `lfs_fs_pred`. -/
def lfsFsPredLoop (gdisk : LfsGstate) (pair : ℕ × ℕ) :
    ℕ → LfsMdir → LfsTortoise → UInt32 → m LfsPred
  | 0, pdir, _, seed => pure ⟨pdir, seed, .error .endless⟩
  | fuel + 1, pdir, tortoise, seed =>
      if lfsPairIsnull pdir.tail then pure ⟨pdir, seed, .error (.err lfsErrNoent)⟩
      else if lfsPairIssync pdir.tail tortoise.pair then
        pure ⟨pdir, seed, .error (.err lfsErrCorrupt)⟩
      else
        let tortoise := tortoise.follow pdir.tail
        if !lfsPairCmp pdir.tail pair then pure ⟨pdir, seed, .ok 0⟩
        else do
          let b ← lfsDirFetch g read gdisk pdir pdir.tail seed
          if b.res = .ok 0 then lfsFsPredLoop gdisk pair fuel b.dir tortoise b.seed
          else pure ⟨b.dir, b.seed, b.res⟩

/-- A list without a cycle has no more directories than the device has blocks; a cycle is found
within three times as many rounds. -/
def predFuel : ℕ := 3 * g.blockCount + 9

/-- `lfs_fs_pred` -/
def lfsFsPred (gdisk : LfsGstate) (pair : ℕ × ℕ) (pdir : LfsMdir) (seed : UInt32) : m LfsPred :=
  lfsFsPredLoop g read gdisk pair (predFuel g) { pdir with tail := (0, 1) } .start seed

end Programs

/-! ### The list of tails -/

variable {g : LfsGeometry} {data : ℕ → ℕ → UInt8} {mem : ℕ → UInt8} {dir : LfsMdir}
  {pair : ℕ × ℕ}

/-- The successor of a directory, by the block its last commit is in. -/
noncomputable def lastTail (g : LfsGeometry) (mem : ℕ → UInt8) : ℕ × ℕ :=
  open Classical in
  if h : ∃ dir, LastCommit g mem dir then h.choose.tail else (lfsBlockNull, lfsBlockNull)

/-- The tail of the last commit is a function of the block. -/
theorem LastCommit.tail_eq (h : LastCommit g mem dir) : dir.tail = lastTail g mem := by
  have hex : ∃ dir, LastCommit g mem dir := ⟨dir, h⟩
  rw [lastTail, dif_pos hex]
  exact (h.unique hex.choose_spec).2

/-- The block of a pair that a fetch finds the directory in. -/
noncomputable def foundBlock (g : LfsGeometry) (data : ℕ → ℕ → UInt8) (pair : ℕ × ℕ) : ℕ :=
  open Classical in
  if NoCommit g (data (newerFirst data pair).1) then (newerFirst data pair).2
  else (newerFirst data pair).1

/-- The list is followed from a directory that was fetched and is not the one looked for. -/
structure Follows (g : LfsGeometry) (data : ℕ → ℕ → UInt8) (pair x y : ℕ × ℕ) : Prop where
  notNull : lfsPairIsnull x = false
  other : lfsPairCmp x pair = true
  fits : x.1 < g.blockCount ∧ x.2 < g.blockCount
  tail : ∃ dir, LastCommit g (data (foundBlock g data x)) dir ∧ dir.tail = y

/-- How a search for the predecessor of a pair ends: the pair is at the start, or it stands before
the pair, or at the end of the list, or the list runs in a circle, or a directory of it cannot be
fetched. -/
inductive PredEnds (g : LfsGeometry) (data : ℕ → ℕ → UInt8) (pair : ℕ × ℕ) (r : LfsPred) : Prop
  | first (hpair : lfsPairCmp (0, 1) pair = false) (htail : r.dir.tail = (0, 1))
      (hres : r.res = .ok 0)
  | found (x : ℕ × ℕ) (hlist : ReflTransGen (Follows g data pair) (0, 1) x)
      (hnext : Follows g data pair x r.dir.tail) (hblock : r.dir.pair.1 = foundBlock g data x)
      (hdir : LastCommit g (data r.dir.pair.1) r.dir) (hnull : lfsPairIsnull r.dir.tail = false)
      (hpair : lfsPairCmp r.dir.tail pair = false) (hres : r.res = .ok 0)
  | absent (x : ℕ × ℕ) (hlist : ReflTransGen (Follows g data pair) (0, 1) x)
      (hnull : lfsPairIsnull x = true) (hres : r.res = .error (.err lfsErrNoent))
  | cycle (x y : ℕ × ℕ) (hlist : ReflTransGen (Follows g data pair) (0, 1) x)
      (hcycle : TransGen (Follows g data pair) x y) (hsync : lfsPairIssync y x = true)
      (hres : r.res = .error (.err lfsErrCorrupt))
  | unreadable (x : ℕ × ℕ) (hlist : ReflTransGen (Follows g data pair) (0, 1) x)
      (hnull : lfsPairIsnull x = false) (hother : lfsPairCmp x pair = true)
      (hbad : g.blockCount ≤ x.1 ∨ g.blockCount ≤ x.2 ∨
        NoCommit g (data x.1) ∧ NoCommit g (data x.2))
      (hres : r.res = .error (.err lfsErrCorrupt))
  | crowded (x : ℕ × ℕ) (hlist : ReflTransGen (Follows g data pair) (0, 1) x)
      (hnull : lfsPairIsnull x = false) (hother : lfsPairCmp x pair = true)
      (hfits : x.1 < g.blockCount ∧ x.2 < g.blockCount) (dir : LfsMdir)
      (hdir : LastCommit g (data (foundBlock g data x)) dir) (hcount : 0x3ff < dir.count.toNat)
      (hres : r.res = .error (.err lfsErrNoent))

/-! ### The walk -/

/-- The list of tails, as a walk led by the blocks of the device. -/
noncomputable def tails (g : LfsGeometry) (data : ℕ → ℕ → UInt8) : ℕ → ℕ × ℕ
  | 0 => (0, 1)
  | n + 1 => lastTail g (data (min (foundBlock g data (tails g data n)) g.blockCount))

/-- The newer block is one of the pair. -/
theorem newerFirst_cases (data : ℕ → ℕ → UInt8) (x : ℕ × ℕ) :
    newerFirst data x = x ∨ newerFirst data x = x.swap := by
  rw [newerFirst]
  split
  · exact .inr rfl
  · exact .inl rfl

/-- The block the fetch settles on is one of the pair. -/
theorem foundBlock_cases (g : LfsGeometry) (data : ℕ → ℕ → UInt8) (x : ℕ × ℕ) :
    foundBlock g data x = x.1 ∨ foundBlock g data x = x.2 := by
  rw [foundBlock]
  rcases newerFirst_cases data x with horder | horder
  · rw [horder]
    split
    · exact .inr rfl
    · exact .inl rfl
  · rw [horder]
    split
    · exact .inl rfl
    · exact .inr rfl

/-- The block the fetch settles on is a block of the device. -/
theorem foundBlock_lt (data : ℕ → ℕ → UInt8) {x : ℕ × ℕ}
    (h : x.1 < g.blockCount ∧ x.2 < g.blockCount) : foundBlock g data x < g.blockCount := by
  rcases foundBlock_cases g data x with hblock | hblock
  · exact hblock ▸ h.1
  · exact hblock ▸ h.2

/-- What a fetch on the way comes to. -/
theorem fetch_cases (data : ℕ → ℕ → UInt8) {x : ℕ × ℕ}
    (h : x.1 < g.blockCount ∧ x.2 < g.blockCount) (gdisk : LfsGstate) (dir : LfsMdir)
    (seed : UInt32) :
    let b := lfsDirFetch g (contentReads g data) gdisk dir x seed
    b.dir.pair.1 = foundBlock g data x ∧ LastCommit g (data (foundBlock g data x)) b.dir ∧
        b.res = fetchResult b.dir.count ∨
      (NoCommit g (data x.1) ∧ NoCommit g (data x.2)) ∧ b.res = .error (.err lfsErrCorrupt) := by
  have hfetch : Fetched g data (newerFirst data x)
      (lfsDirFetch g (contentReads g data) gdisk dir x seed) := fetch_finds h.1 h.2 gdisk dir seed
  dsimp only
  cases hfetch with
  | newer hpair hdir hrev hres =>
      have hblock : foundBlock g data x = (newerFirst data x).1 := if_neg hdir.not_noCommit
      rw [hblock]
      exact .inl ⟨congrArg Prod.fst hpair, hdir, hres⟩
  | older hnone hpair hdir hrev hres =>
      have hblock : foundBlock g data x = (newerFirst data x).2 := if_pos hnone
      rw [hblock]
      exact .inl ⟨congrArg Prod.fst hpair, hdir, hres⟩
  | corrupt hnewer holder hres =>
      refine .inr ⟨?_, hres⟩
      rcases newerFirst_cases data x with horder | horder
      · rw [horder] at hnewer holder
        exact ⟨hnewer, holder⟩
      · rw [horder] at hnewer holder
        exact ⟨holder, hnewer⟩

/-- A walk along tails becomes periodic. -/
theorem tails_period (g : LfsGeometry) (data : ℕ → ℕ → UInt8) :
    ∃ start period, 0 < period ∧ start + period ≤ g.blockCount + 2 ∧
      ∀ j, tails g data (start + period + j) = tails g data (start + j) := by
  have h := Brent.exists_period (x := tails g data) (β := Fin (g.blockCount + 1))
    (fun x => ⟨min (foundBlock g data x) g.blockCount, by omega⟩)
    (fun i => lastTail g (data i)) (fun n => rfl)
  rwa [Fintype.card_fin] at h

/-- Two pairs of the same blocks. -/
def Sync (x y : ℕ × ℕ) : Prop := lfsPairIssync x y = true

/-- A pair is in sync with itself. -/
theorem Sync.refl (x : ℕ × ℕ) : Sync x x := by
  rw [Sync, lfsPairIssync, beq_self_eq_true, beq_self_eq_true]
  rfl

/-- The variables of the source hold the tortoise. -/
def LfsTortoise.Holds (t : LfsTortoise) (b : Brent.Tortoise (ℕ × ℕ)) : Prop :=
  t.pair = b.pos ∧ t.i = b.steps ∧ t.period = b.period

/-- A step of the detector is a step of Brent's. -/
theorem LfsTortoise.Holds.follow {t : LfsTortoise} {b : Brent.Tortoise (ℕ × ℕ)} (h : t.Holds b)
    (tail : ℕ × ℕ) (hsteps : (b.next tail).steps < 2 ^ 32)
    (hperiod : (b.next tail).period < 2 ^ 32) : (t.follow tail).Holds (b.next tail) := by
  obtain ⟨hpair, hi, hp⟩ := h
  rw [Brent.Tortoise.next] at hsteps hperiod ⊢
  by_cases hturn : b.steps = b.period
  · rw [if_pos hturn] at hsteps hperiod ⊢
    have hturn' : t.i = t.period := by rw [hi, hp, hturn]
    have hdouble : 2 * b.period < 2 ^ 32 := hperiod
    rw [LfsTortoise.follow, if_pos hturn']
    refine ⟨rfl, rfl, ?_⟩
    show u32 ((t.period : ℤ) * 2) = 2 * b.period
    rw [hp, u32]
    omega
  · rw [if_neg hturn] at hsteps hperiod ⊢
    have hturn' : t.i ≠ t.period := by rw [hi, hp]; exact hturn
    have hnext : b.steps + 1 < 2 ^ 32 := hsteps
    rw [LfsTortoise.follow, if_neg hturn']
    refine ⟨hpair, ?_, hp⟩
    show u32 ((t.i : ℤ) + 1) = b.steps + 1
    rw [hi, u32]
    omega

section Walk

variable {pdir : LfsMdir} {tortoise : LfsTortoise} {n : ℕ}

/-- The search has come to a step of the walk without an alarm. -/
structure Walking (g : LfsGeometry) (data : ℕ → ℕ → UInt8) (pair : ℕ × ℕ) (n : ℕ)
    (pdir : LfsMdir) (tortoise : LfsTortoise) : Prop where
  tail_eq : pdir.tail = tails g data n
  block_eq : ∀ k, n = k + 1 → pdir.pair.1 = foundBlock g data (tails g data k)
  dir : n ≠ 0 → LastCommit g (data pdir.pair.1) pdir
  follows : ∀ k < n, Follows g data pair (tails g data k) (tails g data (k + 1))
  holds : tortoise.Holds (Brent.tortoise (lfsBlockNull, lfsBlockNull) (tails g data) n)
  unalarmed : Brent.Unalarmed Sync (lfsBlockNull, lfsBlockNull) (tails g data) n

/-- The pairs of a walk are on the list. -/
theorem list_of_follows
    (h : ∀ k < n, Follows g data pair (tails g data k) (tails g data (k + 1))) {m : ℕ}
    (hm : m ≤ n) : ReflTransGen (Follows g data pair) (tails g data m) (tails g data n) := by
  induction n with
  | zero =>
      obtain rfl := Nat.le_zero.mp hm
      exact .refl
  | succ n ih =>
      rcases Nat.lt_or_eq_of_le hm with hlt | rfl
      · exact (ih (fun k hk => h k (by omega)) (Nat.le_of_lt_succ hlt)).tail
          (h n (Nat.lt_succ_self n))
      · exact .refl

/-- The walk meets the tortoise on a circle only. -/
theorem Walking.cycle (h : Walking g data pair n pdir tortoise)
    (hsync : lfsPairIssync pdir.tail tortoise.pair = true) :
    ∃ m, TransGen (Follows g data pair) (tails g data m) (tails g data n) ∧ m ≤ n ∧
      lfsPairIssync (tails g data n) (tails g data m) = true := by
  rw [h.tail_eq, h.holds.1] at hsync
  rcases n with - | n
  · -- at the start the tortoise is nowhere
    have hnowhere : lfsPairIssync (0, 1) (lfsBlockNull, lfsBlockNull) = false := by decide
    exact absurd (hnowhere.symm.trans hsync) Bool.false_ne_true
  · obtain ⟨start, period, hpos, -, hper⟩ := tails_period g data
    obtain ⟨m, hm, -⟩ := Brent.exists_stands h.unalarmed Sync.refl hpos hper
    have hlt := hm.lt
    rw [hm.pos_eq] at hsync
    refine ⟨m, ?_, by omega, hsync⟩
    exact .head' (h.follows m hlt) (list_of_follows h.follows hlt)

/-- The walk goes on. -/
theorem Walking.next (h : Walking g data pair n pdir tortoise)
    (hcount : g.blockCount < 2 ^ 31 - 2) (hnull : lfsPairIsnull pdir.tail = false)
    (hsync : lfsPairIssync pdir.tail tortoise.pair = false)
    (hother : lfsPairCmp pdir.tail pair = true)
    (hfits : pdir.tail.1 < g.blockCount ∧ pdir.tail.2 < g.blockCount) {dir : LfsMdir}
    (hblock : dir.pair.1 = foundBlock g data pdir.tail)
    (hdir : LastCommit g (data (foundBlock g data pdir.tail)) dir) :
    Walking g data pair (n + 1) dir (tortoise.follow pdir.tail) := by
  have hlt := foundBlock_lt data hfits
  have htail : dir.tail = tails g data (n + 1) := by
    rw [hdir.tail_eq, tails, ← h.tail_eq, Nat.min_eq_left (Nat.le_of_lt hlt)]
  have hunalarmed : Brent.Unalarmed Sync (lfsBlockNull, lfsBlockNull) (tails g data) (n + 1) := by
    intro k hk hmet
    rcases Nat.lt_or_eq_of_le (Nat.le_of_lt_succ hk) with hlt | rfl
    · exact h.unalarmed k hlt hmet
    · rw [Sync, ← h.tail_eq, ← h.holds.1, hsync] at hmet
      exact Bool.false_ne_true hmet
  obtain ⟨start, period, hpos, hsum, hper⟩ := tails_period g data
  obtain ⟨m, hm, hlimit⟩ := Brent.exists_stands hunalarmed Sync.refl hpos hper
  have hle := hm.le
  have hmax : max (start + 2) period ≤ g.blockCount + 3 := by omega
  rw [Brent.limit] at hlimit
  have hsteps : (Brent.tortoise (lfsBlockNull, lfsBlockNull) (tails g data) (n + 1)).steps
      < 2 ^ 32 := by
    rw [hm.steps_eq]
    omega
  have hperiod : (Brent.tortoise (lfsBlockNull, lfsBlockNull) (tails g data) (n + 1)).period
      < 2 ^ 32 := by
    rw [hm.period_eq]
    omega
  exact {
    tail_eq := htail
    block_eq := by
      intro k hk
      rw [hblock, h.tail_eq, Nat.succ_injective hk]
    dir := fun _ => hblock ▸ hdir
    follows := by
      intro k hk
      rcases Nat.lt_or_eq_of_le (Nat.le_of_lt_succ hk) with hlt | rfl
      · exact h.follows k hlt
      · rw [← htail, ← h.tail_eq]
        exact ⟨hnull, hother, hfits, dir, hdir, rfl⟩
    holds := by
      rw [Brent.tortoise, ← h.tail_eq] at hsteps hperiod ⊢
      exact h.holds.follow _ hsteps hperiod
    unalarmed := hunalarmed }

/-- A walk that goes on has not used up its fuel. -/
theorem Walking.le (h : Walking g data pair n pdir tortoise) : n < predFuel g := by
  obtain ⟨start, period, hpos, hsum, hper⟩ := tails_period g data
  have hbound := h.unalarmed.bound Sync.refl hpos hper
  rw [Brent.limit] at hbound
  rw [predFuel]
  omega

/-- A round of the search that fetches the next directory. -/
theorem Walking.fetch (h : Walking g data pair n pdir tortoise)
    (hcount : g.blockCount < 2 ^ 31 - 2) (hnull : lfsPairIsnull pdir.tail = false)
    (hsync : lfsPairIssync pdir.tail tortoise.pair = false)
    (hother : lfsPairCmp pdir.tail pair = true) (gdisk : LfsGstate) (seed : UInt32)
    {rest : LfsMdir → UInt32 → LfsPred}
    (hrest : ∀ {dir}, Walking g data pair (n + 1) dir (tortoise.follow pdir.tail) →
      ∀ seed, PredEnds g data pair (rest dir seed)) :
    PredEnds g data pair
      (let b : LfsFetched := lfsDirFetch g (contentReads g data) gdisk pdir pdir.tail seed
        if b.res = .ok 0 then rest b.dir b.seed else ⟨b.dir, b.seed, b.res⟩) := by
  have hlist : ReflTransGen (Follows g data pair) (0, 1) pdir.tail := by
    rw [h.tail_eq]
    exact list_of_follows h.follows (Nat.zero_le n)
  by_cases hout : pdir.tail.1 ≥ g.blockCount ∨ pdir.tail.2 ≥ g.blockCount
  · have hfetch : lfsDirFetch g (contentReads g data) gdisk pdir pdir.tail seed
        = (⟨pdir, seed, 0, .error (.err lfsErrCorrupt)⟩ : LfsFetched) := by
      rw [lfsDirFetch, lfsDirFetchmatch, if_pos hout]
      rfl
    rw [hfetch]
    exact .unreadable _ hlist hnull hother (hout.imp_right .inl) rfl
  have hfits : pdir.tail.1 < g.blockCount ∧ pdir.tail.2 < g.blockCount := by omega
  have hcases := fetch_cases data hfits gdisk pdir seed
  generalize (lfsDirFetch g (contentReads g data) gdisk pdir pdir.tail seed : LfsFetched) = b
    at hcases ⊢
  dsimp only at hcases ⊢
  rcases hcases with ⟨hblock, hdir, hres⟩ | ⟨hnone, hres⟩
  · rw [fetchResult] at hres
    by_cases hcrowd : 0x3ff < b.dir.count.toNat
    · rw [if_pos hcrowd] at hres
      rw [hres, if_neg (by decide)]
      exact .crowded _ hlist hnull hother hfits b.dir hdir hcrowd rfl
    · rw [if_neg hcrowd] at hres
      rw [if_pos hres]
      exact hrest (h.next hcount hnull hsync hother hfits hblock hdir) b.seed
  · rw [hres, if_neg (by decide)]
    exact .unreadable _ hlist hnull hother (.inr (.inr hnone)) rfl

/-- From any point of the walk, the loop ends as it should. -/
theorem Walking.ends (h : Walking g data pair n pdir tortoise) (hcount : g.blockCount < 2 ^ 31 - 2)
    (gdisk : LfsGstate) (seed : UInt32) {fuel : ℕ} (hfuel : predFuel g ≤ fuel + n) :
    PredEnds g data pair
      (lfsFsPredLoop g (contentReads g data) gdisk pair fuel pdir tortoise seed : Id LfsPred) := by
  induction fuel generalizing n pdir tortoise seed with
  | zero =>
      have hle := h.le
      omega
  | succ fuel ih =>
      have hlist := list_of_follows h.follows (Nat.zero_le n)
      rw [← h.tail_eq] at hlist
      rw [lfsFsPredLoop]
      by_cases hnull : lfsPairIsnull pdir.tail = true
      · rw [if_pos hnull]
        exact .absent _ hlist hnull rfl
      rw [if_neg hnull]
      by_cases hsync : lfsPairIssync pdir.tail tortoise.pair = true
      · obtain ⟨m, hcycle, hm, hmet⟩ := h.cycle hsync
        have hreach : ReflTransGen (Follows g data pair) (0, 1) (tails g data m) :=
          list_of_follows (fun k hk => h.follows k (Nat.lt_of_lt_of_le hk hm)) (Nat.zero_le m)
        rw [if_pos hsync]
        exact .cycle _ _ hreach hcycle hmet rfl
      rw [if_neg hsync]
      dsimp only
      by_cases hother : lfsPairCmp pdir.tail pair = true
      · rw [if_neg (by rw [hother]; exact Bool.false_ne_true)]
        have hnull' := Bool.eq_false_of_not_eq_true hnull
        have hsync' := Bool.eq_false_of_not_eq_true hsync
        exact h.fetch hcount hnull' hsync' hother gdisk seed
          fun hnext seed => ih hnext seed (by omega)
      · have hfound := Bool.eq_false_of_not_eq_true hother
        rw [if_pos (by rw [hfound]; rfl)]
        rcases n with - | n
        · have hfirst := h.tail_eq
          rw [tails] at hfirst
          exact .first (hfirst ▸ hfound) hfirst rfl
        · have hnext := h.follows n (Nat.lt_succ_self n)
          rw [← h.tail_eq] at hnext
          have hbefore := list_of_follows (fun k hk => h.follows k (Nat.lt_succ_of_lt hk))
            (Nat.zero_le n)
          exact .found _ hbefore hnext (h.block_eq n rfl) (h.dir (Nat.succ_ne_zero n))
            (Bool.eq_false_of_not_eq_true hnull) hfound rfl

/-- The whole walk, on the content. -/
theorem pred_ends (hcount : g.blockCount < 2 ^ 31 - 2) (gdisk : LfsGstate) (pdir : LfsMdir)
    (seed : UInt32) :
    PredEnds g data pair (lfsFsPred g (contentReads g data) gdisk pair pdir seed : Id LfsPred) := by
  have hstart : Walking g data pair 0 { pdir with tail := (0, 1) } .start := {
    tail_eq := rfl
    block_eq := fun k hk => absurd hk (Nat.succ_ne_zero k).symm
    dir := fun hn => absurd rfl hn
    follows := fun k hk => absurd hk (Nat.not_lt_zero k)
    holds := ⟨rfl, rfl, rfl⟩
    unalarmed := fun k hk => absurd hk (Nat.not_lt_zero k) }
  exact hstart.ends hcount gdisk seed (Nat.le_refl _)

end Walk

section Cached

variable {δ : Type} {c : LfsSetup δ} {R : δ → BlockDevice → Prop} {d : BlockDevice}
  {pcache : LfsCache}

/-- The loop, through the caches. -/
theorem lfsFsPredLoop_yields (hc : c.Drives R) (hreads : c.ReadsSucceed R) (gdisk : LfsGstate)
    {fuel : ℕ} (pdir : LfsMdir) (tortoise : LfsTortoise) (seed : UInt32) :
    Yields (LfsBd.Serving c R d pcache)
      (lfsFsPredLoop c.toLfsGeometry (bdReads c) gdisk pair fuel pdir tortoise seed)
      (lfsFsPredLoop c.toLfsGeometry (contentReads c.toLfsGeometry d.data) gdisk pair fuel pdir
        tortoise seed) := by
  induction fuel generalizing pdir tortoise seed with
  | zero => exact .pure _
  | succ fuel ih =>
      rw [lfsFsPredLoop, lfsFsPredLoop]
      refine .ite (fun _ => .pure _) fun _ => .ite (fun _ => .pure _) fun _ => ?_
      refine .ite (fun _ => .pure _) fun _ => ?_
      refine (lfsDirFetch_yields hc hreads gdisk pdir seed).bind_id ?_
      exact .ite (fun _ => ih _ _ _) (fun _ => .pure _)

/-- **The search for a predecessor ends**, on any disk. -/
theorem lfsFsPred_ends (hc : c.Drives R) (hreads : c.ReadsSucceed R)
    (hcount : c.blockCount < 2 ^ 31 - 2) {s : LfsBd δ} (hs : s.Backed c R (fun _ => True) d)
    (gdisk : LfsGstate) (pair : ℕ × ℕ) (pdir : LfsMdir) (seed : UInt32) :
    ∃ r t, lfsFsPred c.toLfsGeometry (bdReads c) gdisk pair pdir seed s = .ok r t ∧
      t.Backed c R (fun _ => True) d ∧ t.pcache = s.pcache ∧
      PredEnds c.toLfsGeometry d.data pair r := by
  obtain ⟨t, hrun, ht, hpcache⟩ := lfsFsPredLoop_yields hc hreads gdisk { pdir with tail := (0, 1) }
    .start seed s ⟨hs, rfl⟩
  exact ⟨_, t, hrun, ht, hpcache, pred_ends hcount gdisk pdir seed⟩

end Cached

/-- A directory whose successor is in the blocks 2 and 3. -/
def successor : List UInt8 :=
  [1, 0, 0, 0, 0x9F, 0xF0, 3, 0xF7, 2, 0, 0, 0, 3, 0, 0, 0, 0x30, 0, 0, 0x0C, 0x95, 0x96, 3, 0x69]

/-- A device with the blocks `successor` and erased cells after them. -/
def successorDevice : BlockDevice := .ofMem fun a => successor.getD a 0xFF

/-- What a fetch of the first directory leaves. -/
def successorFetched : LfsFetched :=
  Id.run (lfsDirFetch forgetful.toLfsGeometry
    (contentReads forgetful.toLfsGeometry successorDevice.data) ⟨0, (0, 0)⟩
    ⟨(0, 0), 0, 0, 0, 0, false, false, (0, 1)⟩ (0, 1) 0)

/-- What fetching its first pair yields. -/
theorem successorFetched_eq : successorFetched.res = .ok 0 ∧ successorFetched.dir.tail = (2, 3) ∧
    successorFetched.dir.count = 0 := by
  decide +kernel

/-- The last commit of that pair: no entries, and the tail. -/
theorem lastCommit_successor : ∃ dir, LastCommit forgetful.toLfsGeometry
    (successorDevice.data (foundBlock forgetful.toLfsGeometry successorDevice.data (0, 1))) dir ∧
      dir.count = 0 ∧ dir.tail = (2, 3) := by
  obtain ⟨hres, htail, hcount⟩ := successorFetched_eq
  rcases fetch_cases successorDevice.data (g := forgetful.toLfsGeometry) (x := (0, 1)) (by decide)
    ⟨0, (0, 0)⟩ ⟨(0, 0), 0, 0, 0, 0, false, false, (0, 1)⟩ 0 with ⟨-, hdir, -⟩ | ⟨-, hbad⟩
  · exact ⟨successorFetched.dir, hdir, hcount, htail⟩
  · exact absurd (hres.symm.trans hbad) (by decide)

/-- The list of the device has these two pairs. -/
theorem list_successor {x : ℕ × ℕ} (h : ReflTransGen
    (Follows forgetful.toLfsGeometry successorDevice.data (2, 3)) (0, 1) x) :
    x = (0, 1) ∨ x = (2, 3) := by
  induction h with
  | refl => exact .inl rfl
  | tail _ hstep ih =>
      rcases ih with rfl | rfl
      · obtain ⟨dir, hdir, rfl⟩ := hstep.tail
        obtain ⟨dir', hdir', -, htail⟩ := lastCommit_successor
        exact .inr ((hdir.unique hdir').2.trans htail)
      · exact absurd hstep.other (by decide)

/-- The predecessor of the second pair is the first. -/
theorem lfsFsPred_ends_successor : ∃ r t,
    lfsFsPred forgetful.toLfsGeometry (bdReads forgetful) ⟨0, (0, 0)⟩ (2, 3)
        ⟨(0, 0), 0, 0, 0, 0, false, false, (0, 0)⟩ 0
        ⟨successorDevice, ⟨lfsBlockNull, 0, 0, fun _ => 0⟩, ⟨lfsBlockNull, 0, 0, fun _ => 0⟩⟩
      = .ok r t ∧ r.res = .ok 0 ∧ r.dir.tail = (2, 3) := by
  obtain ⟨r, t, hrun, -, -, hr⟩ := lfsFsPred_ends drives_forgetful readsSucceed_forgetful
    (by decide)
    (s := ⟨successorDevice, ⟨lfsBlockNull, 0, 0, fun _ => 0⟩, ⟨lfsBlockNull, 0, 0, fun _ => 0⟩⟩)
    ⟨rfl, fun h => absurd h (by decide)⟩ ⟨0, (0, 0)⟩ (2, 3)
    ⟨(0, 0), 0, 0, 0, 0, false, false, (0, 0)⟩ 0
  obtain ⟨dir', hdir', hzero, hnext⟩ := lastCommit_successor
  refine ⟨r, t, hrun, ?_⟩
  cases hr with
  | first hpair htail hres => exact absurd hpair (by decide)
  | found x hlist hnext hblock hdir hnull hpair hres =>
      rcases list_successor (hlist.tail hnext) with htail | htail
      · rw [htail] at hpair
        exact absurd hpair (by decide)
      · exact ⟨hres, htail⟩
  | absent x hlist hnull hres =>
      rcases list_successor hlist with rfl | rfl <;> exact absurd hnull (by decide)
  | cycle x y hlist hcycle hsync hres =>
      rcases list_successor hlist with rfl | rfl
      · obtain ⟨z, hreach, hstep⟩ := TransGen.tail'_iff.mp hcycle
        rcases list_successor hreach with rfl | rfl
        · obtain ⟨dir, hdir, rfl⟩ := hstep.tail
          rw [(hdir.unique hdir').2, hnext] at hsync
          exact absurd hsync (by decide)
        · exact absurd hstep.other (by decide)
      · obtain ⟨z, hstep, -⟩ := TransGen.head'_iff.mp hcycle
        exact absurd hstep.other (by decide)
  | unreadable x hlist hnull hother hbad hres =>
      rcases list_successor hlist with rfl | rfl
      · have hnone := (hbad.resolve_left (by decide)).resolve_left (by decide)
        rcases foundBlock_cases forgetful.toLfsGeometry successorDevice.data (0, 1) with h | h
        · exact absurd hnone.1 (h ▸ hdir'.not_noCommit)
        · exact absurd hnone.2 (h ▸ hdir'.not_noCommit)
      · exact absurd hother (by decide)
  | crowded x hlist hnull hother hfits dir hdir hcount hres =>
      rcases list_successor hlist with rfl | rfl
      · rw [(hdir.unique hdir').1, hzero] at hcount
        exact absurd hcount (by decide)
      · exact absurd hother (by decide)

end Num487Boot
