import Mathlib.Logic.Function.Basic
import Num487Boot.LfsFilling
import Num487Boot.Lib.Simulation

/-!
# Blocks as Append-Only BlockLogs

What the caching layer is for. To the rest of LittleFS a block is a log: an erase empties it,
programs append to it, and its bytes can be read back at any time, whether they are still in
the program cache or on the device already. One block is written at a time; a flush ends its
writing, and after an error its content is given up (`Writer`).

## Main results

* `BlockLogs.Shown.call`: from a state that shows the logs, a call answers as they do, or the
  device went wrong, the error is reported, and no other block is lost.
* `lfsBd_logs`: so does any run of calls, however the device goes wrong on the way.
-/

namespace Num487Boot

open Exec Memory Runs

/-! ### BlockLogs -/

/-- Whether a block is being written. After an error the program cache is to be dropped. -/
inductive Writer
  | idle
  | filling (block : ℕ)
  | failed
  deriving DecidableEq

/-- What is known of the blocks, from the start of each. -/
structure BlockLogs where
  bytes : ℕ → List UInt8
  writer : Writer

/-- A call of the caching layer. A read is `cached` if it is given the program cache. -/
inductive BdOp
  | erase (block : ℕ)
  | prog (block off : ℕ) (data : List UInt8)
  | flush
  | sync
  | drop
  | read (cached : Bool) (hint block off size : ℕ)
  | cmp (cached : Bool) (hint block off : ℕ) (buffer : List UInt8)
  | crc (cached : Bool) (hint block off size : ℕ) (start : UInt32)

/-- What an operation returns. -/
inductive BdAnswer
  | done
  | bytes (data : List UInt8)
  | order (res : Ordering)
  | crc (crc : UInt32)
  deriving DecidableEq

namespace BlockLogs

variable (L : BlockLogs)

/-- The block that was being written is given up. -/
def giveUp (writer : Writer) : BlockLogs :=
  match L.writer with
  | .filling block => ⟨Function.update L.bytes block [], writer⟩
  | _ => { L with writer := writer }

/-- The logs after a call that was answered. -/
def done : BdOp → BlockLogs
  | .erase block => ⟨Function.update L.bytes block [], .filling block⟩
  | .prog block _ data => { L with bytes := Function.update L.bytes block (L.bytes block ++ data) }
  | .flush | .sync => { L with writer := .idle }
  | .drop => L.giveUp .idle
  | _ => L

/-- The logs after a call that reported an error. -/
def failed : BdOp → BlockLogs
  | .erase block => ⟨Function.update L.bytes block [], .idle⟩
  | .prog _ _ _ | .flush | .sync =>
      match L.writer with
      | .filling _ => L.giveUp .failed
      | _ => L
  | _ => L

/-- What an operation makes of the logs, by how it ended. -/
def next : BdOp × Except ℤ BdAnswer → BlockLogs
  | (op, .ok _) => L.done op
  | (op, .error _) => L.failed op

/-- The bytes of a log from `off` on, `size` of them at most. -/
def part (block off size : ℕ) : List UInt8 := ((L.bytes block).drop off).take size

/-- What an operation answers when it succeeds. -/
def answer : BdOp → BdAnswer
  | .read _ _ block off size => .bytes (L.part block off size)
  | .cmp _ _ block off buffer => .order (memcmp (L.part block off buffer.length) buffer)
  | .crc _ _ block off size start => .crc (lfsCrc start (L.part block off size))
  | _ => .done

/-- A block may be read past the program cache unless it is being written, and through it
unless an error left it behind. -/
def Sees (cached : Bool) (block : ℕ) : Prop :=
  if cached then L.writer ≠ .failed else L.writer ≠ .filling block

instance (cached : Bool) (block : ℕ) : Decidable (L.Sees cached block) :=
  inferInstanceAs (Decidable (ite _ _ _))

/-- Known bytes of a block may be read. -/
def Readable (g : LfsGeometry) (cached : Bool) (hint block off size : ℕ) : Prop :=
  block < g.blockCount ∧ hint ≤ g.blockSize ∧ off + size ≤ (L.bytes block).length ∧
    L.Sees cached block

instance (g : LfsGeometry) (cached : Bool) (hint block off size : ℕ) :
    Decidable (L.Readable g cached hint block off size) :=
  inferInstanceAs (Decidable (_ ∧ _ ∧ _ ∧ _))

/-- How the rest of LittleFS calls the caching layer. -/
def Legal (g : LfsGeometry) : BdOp → Prop
  | .erase block => block < g.blockCount ∧ L.writer = .idle
  | .prog block off data =>
      L.writer = .filling block ∧ off = (L.bytes block).length ∧ off + data.length ≤ g.blockSize
  | .flush | .sync => L.writer ≠ .failed
  | .drop => True
  | .read cached hint block off size => 0 < hint ∧ L.Readable g cached hint block off size
  | .cmp cached hint block off buffer =>
      buffer.length ≤ hint ∧ L.Readable g cached hint block off buffer.length
  | .crc cached hint block off size _ => size ≤ hint ∧ L.Readable g cached hint block off size

instance (g : LfsGeometry) : ∀ op, Decidable (L.Legal g op)
  | .erase _ => inferInstanceAs (Decidable (_ ∧ _))
  | .prog _ _ _ => inferInstanceAs (Decidable (_ ∧ _))
  | .flush => inferInstanceAs (Decidable (_ ≠ _))
  | .sync => inferInstanceAs (Decidable (_ ≠ _))
  | .drop => isTrue trivial
  | .read _ _ _ _ _ => inferInstanceAs (Decidable (_ ∧ _))
  | .cmp _ _ _ _ _ => inferInstanceAs (Decidable (_ ∧ _))
  | .crc _ _ _ _ _ _ => inferInstanceAs (Decidable (_ ∧ _))

end BlockLogs

/-! ### The calls -/

variable {δ : Type}

/-- The program cache a read is given. -/
def LfsBd.given (s : LfsBd δ) (cached : Bool) : Option LfsCache :=
  if cached then some s.pcache else none

/-- `lfs_bd_read` with or without the program cache. -/
def bdRead (c : LfsSetup δ) (cached : Bool) (hint block off size : ℕ) :
    LfsProg (LfsBd δ) (List UInt8) := do
  let s ← get
  lfsBdRead c (s.given cached) hint block off size

/-- The function of an operation. -/
def BdOp.call (c : LfsSetup δ) : BdOp → LfsProg (LfsBd δ) BdAnswer
  | .erase block => do
      lfsBdErase c block
      pure .done
  | .prog block off data => do
      lfsBdProg c true block off data
      pure .done
  | .flush => do
      lfsBdFlush c true
      pure .done
  | .sync => do
      lfsBdSync c true
      pure .done
  | .drop => do
      modify fun s => { s with pcache := lfsCacheDrop s.pcache }
      pure .done
  | .read cached hint block off size => do
      let data ← bdRead c cached hint block off size
      pure (.bytes data)
  | .cmp cached hint block off buffer => do
      let s ← get
      let res ← lfsBdCmp c (s.given cached) hint block off buffer
      pure (.order res)
  | .crc cached hint block off size start => do
      let s ← get
      let res ← lfsBdCrc c (s.given cached) hint block off size start
      pure (.crc res)

/-- `if (err) { ... }` in the caller: a reported error is an answer like any other. -/
def reported {σ α : Type} (x : LfsProg σ α) : LfsProg σ (Except ℤ α) := fun s =>
  match x s with
  | .ok a t => .ok (.ok a) t
  | .error (.err code) t => .ok (.error code) t
  | .error halt t => .error halt t

/-- A result is reported as it is. -/
theorem reported_ok {σ α : Type} {x : LfsProg σ α} {s t : σ} {a : α} (h : x s = .ok a t) :
    reported x s = .ok (.ok a) t := by
  rw [reported, h]

/-- An error code is reported as a result. -/
theorem reported_error {σ α : Type} {x : LfsProg σ α} {s t : σ} {code : ℤ}
    (h : x s = .error (.err code) t) : reported x s = .ok (.error code) t := by
  rw [reported, h]

/-- A program whose early ends all report errors always comes back. -/
theorem ends_reported {σ α : Type} {x : LfsProg σ α} {s : σ} {Q : α → σ → Prop} {F : σ → Prop}
    (h : Ends Q (fun e t => e.Reports ∧ F t) (x s)) :
    ∃ r t, reported x s = .ok r t ∧
      match r with
      | .ok a => Q a t
      | .error code => code < 0 ∧ F t := by
  rw [reported]
  cases hx : x s with
  | ok a t =>
      rw [hx] at h
      exact ⟨_, t, rfl, h⟩
  | error e t =>
      rw [hx] at h
      cases e with
      | err code => exact ⟨_, t, rfl, h⟩
      | assert => exact h.1.elim
      | endless => exact h.1.elim

/-! ### Showing the logs -/

variable {c : LfsSetup δ} {R : δ → BlockDevice → Prop}

namespace BlockLogs

/-- The device has the known bytes of a block. -/
def On (L : BlockLogs) (d : BlockDevice) (b : ℕ) : Prop :=
  slice (d.data b) 0 (L.bytes b).length = L.bytes b

/-- The device has every block, and the read cache is right about those something is known
of. -/
def Settled (L : BlockLogs) (c : LfsSetup δ) (R : δ → BlockDevice → Prop) (s : LfsBd δ) : Prop :=
  ∃ d, R s.dev d ∧ s.rcache.Mirrors c (fun b => L.bytes b ≠ []) d ∧ ∀ b, L.On d b

/-- The block is being filled, and the device has every other one. -/
def Writing (L : BlockLogs) (c : LfsSetup δ) (R : δ → BlockDevice → Prop) (block : ℕ)
    (s : LfsBd δ) : Prop :=
  block < c.blockCount ∧ ∃ d, (∀ b, b ≠ block → L.On d b) ∧
    s.Filling c R (fun b => b ≠ block → L.bytes b ≠ []) d block (L.bytes block)

/-- The caches and the device show the logs: settled between two blocks, writing inside one. -/
structure Shown (L : BlockLogs) (c : LfsSetup δ) (R : δ → BlockDevice → Prop) (s : LfsBd δ) :
    Prop where
  fits : ∀ b, (L.bytes b).length ≤ c.blockSize
  idle : L.writer = .idle → s.pcache.block = lfsBlockNull ∧ L.Settled c R s
  filling : ∀ block, L.writer = .filling block → L.Writing c R block s
  failed : L.writer = .failed → L.Settled c R s

variable {L : BlockLogs} {s : LfsBd δ} {d d' : BlockDevice} {block : ℕ}

/-- A log is where it was, when another block changes. -/
theorem On.sameBut {b : ℕ} (h : L.On d b) (hd : d.SameBut block d') (hb : b ≠ block) :
    L.On d' b := by
  rw [On, (hd b hb).1]
  exact h

/-- With nothing being written. -/
theorem Shown.ofIdle (hfits : ∀ b, (L.bytes b).length ≤ c.blockSize) (hw : L.writer = .idle)
    (hnull : s.pcache.block = lfsBlockNull) (h : L.Settled c R s) : L.Shown c R s where
  fits := hfits
  idle _ := ⟨hnull, h⟩
  filling block hblock := by cases hw.symm.trans hblock
  failed hfailed := by cases hw.symm.trans hfailed

/-- With a block being written. -/
theorem Shown.ofFilling (hfits : ∀ b, (L.bytes b).length ≤ c.blockSize)
    (hw : L.writer = .filling block) (h : L.Writing c R block s) : L.Shown c R s where
  fits := hfits
  idle hidle := by cases hw.symm.trans hidle
  filling b hb := by
    cases hw.symm.trans hb
    exact h
  failed hfailed := by cases hw.symm.trans hfailed

/-- After a failed write. -/
theorem Shown.ofFailed (hfits : ∀ b, (L.bytes b).length ≤ c.blockSize) (hw : L.writer = .failed)
    (h : L.Settled c R s) : L.Shown c R s where
  fits := hfits
  idle hidle := by cases hw.symm.trans hidle
  filling b hb := by cases hw.symm.trans hb
  failed _ := h

/-! ### Reads -/

/-- Known bytes are known of, or none were asked for. -/
theorem bytes_ne_nil_or_held {off size : ℕ} (h : off + size ≤ (L.bytes block).length)
    (pcache : Option LfsCache) : L.bytes block ≠ [] ∨ Held pcache block off size := by
  by_cases hnil : L.bytes block = []
  · refine .inr fun k hk => ?_
    rw [hnil, List.length_nil] at h
    omega
  · exact .inl hnil

/-- What lies in the log is read from it. -/
theorem On.slice_part {off size : ℕ} {mem : ℕ → UInt8}
    (h : slice mem 0 (L.bytes block).length = L.bytes block)
    (hle : off + size ≤ (L.bytes block).length) : slice mem off size = L.part block off size := by
  have hpart := Memory.slice_part h hle
  rwa [Nat.zero_add] at hpart

/-- **Known bytes can be read**, in any way that only reads. -/
theorem Shown.reads {α : Type} (hreads : c.ReadsSucceed R) (hs : L.Shown c R s) {cached : Bool}
    {hint off size : ℕ} (hlegal : L.Readable c.toLfsGeometry cached hint block off size)
    {x : LfsProg (LfsBd δ) α} {Q : α → Prop} {E : LfsHalt → LfsBd δ → Prop}
    (hx : ∀ d T, s.Backed c R T d → (T block ∨ Held (s.given cached) block off size) →
      (∀ cache ∈ s.given cached, block = cache.block → c.readSize ∣ cache.off) →
      slice (seen (s.given cached) d block) off size = L.part block off size →
      off + size ≤ c.blockSize →
      Ends (fun a t => Q a ∧ t.Backed c R T d ∧ t.pcache = s.pcache) (ReadFails c R d s.pcache)
        (x s)) :
    Ends (fun a t => Q a ∧ L.Shown c R t) E (x s) := by
  obtain ⟨hblock, -, hle, hcached⟩ := hlegal
  have hnull := (c.lt_null hblock).1
  have hin := Nat.le_trans hle (hs.fits block)
  -- a read leaves the program cache and what is behind the read cache
  have hends : ∀ d T, s.Backed c R T d → (T block ∨ Held (s.given cached) block off size) →
      (∀ cache ∈ s.given cached, block = cache.block → c.readSize ∣ cache.off) →
      slice (seen (s.given cached) d block) off size = L.part block off size →
      (∀ t : LfsBd δ, t.Backed c R T d → t.pcache = s.pcache → L.Shown c R t) →
      Ends (fun a t => Q a ∧ L.Shown c R t) E (x s) := by
    intro d T hback hT halign hseen hafter
    exact (hx d T hback hT halign hseen hin).imp (fun a t ht => ⟨ht.1, hafter t ht.2.1 ht.2.2⟩)
      fun _ _ h => absurd hreads h.1
  cases hw : L.writer with
  | idle =>
      obtain ⟨hpnull, d, hdev, hmirrors, hon⟩ := hs.idle hw
      have hout : ∀ cache ∈ s.given cached, block ≠ cache.block := by
        intro cache hcache h
        cases cached with
        | false => cases hcache
        | true =>
            cases hcache
            exact hnull (h.trans hpnull)
      have hseen : seen (s.given cached) d block = d.data block := by
        cases cached with
        | false => rfl
        | true => exact seen_other (hout _ rfl)
      refine hends d _ ⟨hdev, hmirrors⟩ (bytes_ne_nil_or_held hle _)
        (fun cache hcache h => absurd h (hout cache hcache)) ?_
        fun t ht hpc => .ofIdle hs.fits hw (hpc ▸ hpnull) ⟨d, ht.dev, ht.rcache, hon⟩
      rw [hseen]
      exact On.slice_part (hon block) hle
  | filling b =>
      obtain ⟨hb, d₀, hon, hfilling⟩ := hs.filling b hw
      obtain ⟨d, T, hback, hsame, hT, hseen, hheld, hagain⟩ :=
        hfilling.backed hb fun h => absurd rfl h
      have hafter : ∀ t : LfsBd δ, t.Backed c R T d → t.pcache = s.pcache → L.Shown c R t :=
        fun t ht hpc => .ofFilling hs.fits hw ⟨hb, d₀, hon, hagain t ht hpc⟩
      have halign : ∀ cache ∈ s.given cached, block = cache.block → c.readSize ∣ cache.off := by
        intro cache hcache h
        cases cached with
        | false => cases hcache
        | true =>
            cases hcache
            rcases hfilling.pcache_block with hpnull | ⟨-, hdvd⟩
            · exact absurd (h.trans hpnull) hnull
            · exact hdvd
      by_cases hbb : block = b
      · obtain rfl := hbb
        cases cached with
        | false => exact absurd hw hcached
        | true =>
            refine hends d T hback (hheld.imp_right fun h => ?_) halign
              (On.slice_part hseen hle) hafter
            have hpart := h.part (n := off) (m := size) (by omega)
            rwa [Nat.zero_add] at hpart
      · have hseen' : seen (s.given cached) d block = d.data block := by
          cases cached with
          | false => rfl
          | true =>
              rcases hfilling.pcache_block with hpnull | ⟨hpb, -⟩
              · exact seen_other fun h => hnull (h.trans hpnull)
              · exact seen_other fun h => hbb (h.trans hpb)
        have hknown := bytes_ne_nil_or_held hle (s.given cached)
        refine hends d T hback (hknown.imp_left fun h => hT block hbb fun _ => h) halign ?_ hafter
        rw [hseen']
        exact On.slice_part ((hon block hbb).sameBut hsame hbb) hle
  | failed =>
      obtain ⟨d, hdev, hmirrors, hon⟩ := hs.failed hw
      cases cached with
      | true => exact absurd hw hcached
      | false =>
          exact hends d _ ⟨hdev, hmirrors⟩ (bytes_ne_nil_or_held hle _) (fun _ h => by cases h)
            (On.slice_part (hon block) hle)
            fun t ht hpc => .ofFailed hs.fits hw ⟨d, ht.dev, ht.rcache, hon⟩

/-- A read returns the known bytes. -/
theorem Shown.bdRead (hc : c.Drives R) (hreads : c.ReadsSucceed R) (hs : L.Shown c R s)
    {cached : Bool} {hint off size : ℕ} (hpos : 0 < hint)
    (hlegal : L.Readable c.toLfsGeometry cached hint block off size)
    {E : LfsHalt → LfsBd δ → Prop} :
    Ends (fun data t => data = L.part block off size ∧ L.Shown c R t) E
      (bdRead c cached hint block off size s) := by
  rw [Num487Boot.bdRead, bind_of_ok (get_apply _)]
  refine hs.reads hreads hlegal fun d T hback hT halign hseen hin => ?_
  rw [← hseen]
  exact lfsBdRead_spec hc hlegal.1 halign hpos hlegal.2.1 hback hT hin

/-! ### Writes -/

/-- Giving up a block keeps what is known of the others. -/
theorem On.giveUp (hon : ∀ b, b ≠ block → L.On d b) (hsame : d.SameBut block d')
    (writer : Writer) (b : ℕ) :
    BlockLogs.On ⟨Function.update L.bytes block [], writer⟩ d' b := by
  dsimp only [On]
  by_cases hb : b = block
  · rw [hb, Function.update_self]
    rfl
  · rw [Function.update_of_ne hb, (hsame b hb).1]
    exact hon b hb

/-- Giving up a block leaves the other logs. -/
theorem giveUp_ne_nil {b : ℕ} (h : Function.update L.bytes block [] b ≠ []) :
    b ≠ block ∧ L.bytes b ≠ [] := by
  have hb : b ≠ block := by
    rintro rfl
    exact h (Function.update_self b [] L.bytes)
  rw [Function.update_of_ne hb] at h
  exact ⟨hb, h⟩

/-- What is left fits. -/
theorem fits_giveUp (hfits : ∀ b, (L.bytes b).length ≤ c.blockSize) (b : ℕ) :
    (Function.update L.bytes block [] b).length ≤ c.blockSize := by
  by_cases hb : b = block
  · rw [hb, Function.update_self]
    exact Nat.zero_le _
  · rw [Function.update_of_ne hb]
    exact hfits b

/-- What a write that went wrong leaves of the logs. -/
theorem settled_of_writeFails {e : LfsHalt} {T : ℕ → Prop} (hon : ∀ b, b ≠ block → L.On d b)
    (hT : ∀ b, b ≠ block → L.bytes b ≠ [] → T b) (h : WriteFails c R T d block e s)
    (writer : Writer) :
    BlockLogs.Settled ⟨Function.update L.bytes block [], writer⟩ c R s := by
  obtain ⟨-, -, d', hdev, hsame, hmirrors⟩ := h
  refine ⟨d', hdev, hmirrors.mono fun b hb => ?_, On.giveUp hon hsame writer⟩
  obtain ⟨hne, hnil⟩ := giveUp_ne_nil hb
  exact ⟨hT b hne hnil, hne⟩

/-- How a write of the block that is being filled ends early. -/
theorem Shown.writeFails {e : LfsHalt} {T : ℕ → Prop}
    (hfits : ∀ b, (L.bytes b).length ≤ c.blockSize)
    (hw : L.writer = .filling block) (hon : ∀ b, b ≠ block → L.On d b)
    (hT : ∀ b, b ≠ block → L.bytes b ≠ [] → T b) (h : WriteFails c R T d block e s) :
    e.Reports ∧ ¬ c.Reliable R ∧ (L.giveUp .failed).Shown c R s := by
  have hgiveUp : L.giveUp .failed = ⟨Function.update L.bytes block [], .failed⟩ := by
    rw [giveUp, hw]
  refine ⟨h.2.1, h.1, ?_⟩
  rw [hgiveUp]
  exact .ofFailed (fits_giveUp hfits) rfl (settled_of_writeFails hon hT h .failed)

/-- An erase starts a log, or fails and loses it. -/
theorem Shown.erase (hc : c.Drives R) (hs : L.Shown c R s) (hblock : block < c.blockCount)
    (hw : L.writer = .idle) :
    Ends (fun _ t => (L.done (.erase block)).Shown c R t)
      (fun e t => e.Reports ∧ ¬ c.Reliable R ∧ (L.failed (.erase block)).Shown c R t)
      (lfsBdErase c block s) := by
  obtain ⟨hnull, d, hdev, hmirrors, hon⟩ := hs.idle hw
  have hon' := On.giveUp (fun b _ => hon b) (.refl block d)
  have hmirrors' : s.rcache.Mirrors c
      (fun b => (b ≠ block → Function.update L.bytes block [] b ≠ []) ∧ b ≠ block) d := by
    refine hmirrors.mono fun b hb => ?_
    exact (giveUp_ne_nil (hb.1 hb.2)).2
  refine (lfsBdErase_spec hc hblock hdev hmirrors' hnull).imp (fun _ t ht => ?_) fun e t ht => ?_
  · refine .ofFilling (fits_giveUp hs.fits) rfl ⟨hblock, d, fun b _ => hon' _ b, ?_⟩
    have hempty : (L.done (.erase block)).bytes block = [] := Function.update_self _ _ _
    rw [hempty]
    exact ht.1
  · obtain ⟨hfails, ht⟩ := ht
    refine ⟨hfails.2.1, hfails.1, .ofIdle (fits_giveUp hs.fits) rfl (by rw [ht]; exact hnull) ?_⟩
    refine settled_of_writeFails (fun b _ => hon b) (fun b hb hnil => ?_) hfails .idle
    intro _
    rwa [Function.update_of_ne hb]

/-- A program appends to the log, or fails and loses it. -/
theorem Shown.prog (hc : c.Drives R) (hreads : c.ReadsSucceed R) (hs : L.Shown c R s)
    {data : List UInt8} (hw : L.writer = .filling block)
    (hin : (L.bytes block).length + data.length ≤ c.blockSize) :
    Ends (fun _ t => (L.done (.prog block (L.bytes block).length data)).Shown c R t)
      (fun e t => e.Reports ∧ ¬ c.Reliable R ∧ (L.giveUp .failed).Shown c R t)
      (lfsBdProg c true block (L.bytes block).length data s) := by
  obtain ⟨hblock, d, hon, hfilling⟩ := hs.filling block hw
  refine (lfsBdProg_spec hc hreads hblock hfilling hin).imp (fun _ t ht => ?_) fun e t ht =>
    Shown.writeFails hs.fits hw hon (fun b _ h _ => h) ht
  -- the other blocks are the same
  have hother : ∀ b, b ≠ block →
      (L.done (.prog block (L.bytes block).length data)).bytes b = L.bytes b :=
    fun b hb => Function.update_of_ne hb _ _
  have hself : (L.done (.prog block (L.bytes block).length data)).bytes block
      = L.bytes block ++ data := Function.update_self _ _ _
  refine .ofFilling (fun b => ?_) hw ⟨hblock, d, fun b hb => ?_, ?_⟩
  · by_cases hb : b = block
    · rw [hb, hself, List.length_append]
      exact hin
    · rw [hother b hb]
      exact hs.fits b
  · rw [On, hother b hb]
    exact hon b hb
  · rw [hself]
    have hT : (fun b => b ≠ block →
        (L.done (.prog block (L.bytes block).length data)).bytes b ≠ [])
        = fun b => b ≠ block → L.bytes b ≠ [] :=
      funext fun b => propext (forall_congr' fun hb => by rw [hother b hb])
    rw [hT]
    exact ht

/-- A flush with nothing to flush. -/
theorem lfsBdFlush_null {validate : Bool} (hnull : s.pcache.block = lfsBlockNull) :
    lfsBdFlush c validate s = .ok () s := by
  have hout : ¬ (s.pcache.block ≠ lfsBlockNull ∧ s.pcache.block ≠ lfsBlockInline) :=
    fun h => h.1 hnull
  rw [lfsBdFlush, bind_of_ok (get_apply _), if_neg hout]
  rfl

/-- A flush leaves the logs, or fails and loses the one being written. -/
theorem Shown.flush (hc : c.Drives R) (hreads : c.ReadsSucceed R) (hs : L.Shown c R s)
    (hw : L.writer ≠ .failed) :
    Ends (fun _ t => (L.done .flush).Shown c R t)
      (fun e t => e.Reports ∧ ¬ c.Reliable R ∧ (L.failed .flush).Shown c R t)
      (lfsBdFlush c true s) := by
  cases hw' : L.writer with
  | idle =>
      obtain ⟨hnull, hsettled⟩ := hs.idle hw'
      rw [lfsBdFlush_null hnull]
      exact .ofIdle hs.fits rfl hnull hsettled
  | filling block =>
      obtain ⟨hblock, d, hon, hfilling⟩ := hs.filling block hw'
      have hfailed : L.failed .flush = L.giveUp .failed := by rw [BlockLogs.failed, hw']
      rw [hfailed]
      refine (hfilling.flush hc hreads hblock (hs.fits block)).imp (fun _ t ht => ?_) fun e t ht =>
        Shown.writeFails hs.fits hw' hon (fun b _ h _ => h) ht
      obtain ⟨d', hdev, hsame, hdata, hmirrors, hnull⟩ := ht
      refine .ofIdle hs.fits rfl hnull ⟨d', hdev, ?_, fun b => ?_⟩
      · refine hmirrors.mono fun b hb => ⟨fun _ => hb, ?_⟩
        rintro rfl
        exact hb
      · by_cases hb : b = block
        · rw [hb]
          exact hdata
        · exact (hon b hb).sameBut hsame hb
  | failed => exact absurd hw' hw

/-- The read cache can be dropped at any time. -/
theorem Shown.dropRcache (hs : L.Shown c R s) :
    L.Shown c R { s with rcache := lfsCacheDrop s.rcache } := by
  have hsettled : L.Settled c R s → L.Settled c R { s with rcache := lfsCacheDrop s.rcache } := by
    rintro ⟨d, hdev, -, hon⟩
    exact ⟨d, hdev, LfsCache.mirrors_drop _ c _ d, hon⟩
  refine ⟨hs.fits, fun hw => ⟨(hs.idle hw).1, hsettled (hs.idle hw).2⟩, fun block hw => ?_,
    fun hw => hsettled (hs.failed hw)⟩
  obtain ⟨hblock, d₀, hon, m, d, hpart, hcase⟩ := hs.filling block hw
  exact ⟨hblock, d₀, hon, m, d, ⟨hpart.dev, hpart.same, hpart.le, hpart.aligned, hpart.flushed,
    hpart.erased, LfsCache.mirrors_drop _ c _ d⟩, hcase⟩

/-- A sync leaves the logs, or fails and loses the one being written. -/
theorem Shown.sync (hc : c.Drives R) (hreads : c.ReadsSucceed R) (hs : L.Shown c R s)
    (hw : L.writer ≠ .failed) :
    Ends (fun _ t => (L.done .sync).Shown c R t)
      (fun e t => e.Reports ∧ ¬ c.Reliable R ∧ (L.failed .sync).Shown c R t)
      (lfsBdSync c true s) := by
  rw [lfsBdSync, bind_of_ok (modify_apply _ _)]
  refine (hs.dropRcache.flush hc hreads hw).bind fun _ t ht => ?_
  obtain ⟨hnull, d, hdev, hmirrors, hon⟩ := ht.idle rfl
  obtain ⟨hneg, hdev'⟩ := hc.sync hdev
  rw [bind_of_ok (get_apply _), bind_of_ok (modify_apply _ _), lfsAssert, if_pos hneg,
    bind_of_ok (pure_apply _ _)]
  refine ends_lfsCheck hneg (fun _ => .ofIdle ht.fits rfl hnull ⟨d, hdev', hmirrors, hon⟩)
    fun hfail => ⟨hfail, ?_, ?_⟩
  · intro hrel
    have hlt : (c.driver.sync t.dev).1 < 0 := hfail
    exact Int.ne_of_lt hlt (hrel.sync hdev)
  · -- what was flushed stays, but is no longer relied on
    cases hw' : L.writer with
    | idle =>
        have hfailed : L.failed .flush = L := by rw [BlockLogs.failed, hw']
        rw [hfailed]
        exact .ofIdle ht.fits hw' hnull ⟨d, hdev', hmirrors, hon⟩
    | filling block =>
        have hfailed : L.failed .flush = ⟨Function.update L.bytes block [], .failed⟩ := by
          rw [BlockLogs.failed, hw', giveUp, hw']
        rw [hfailed]
        refine .ofFailed (fits_giveUp hs.fits) rfl ⟨d, hdev', hmirrors.mono fun b hb => ?_,
          On.giveUp (fun b _ => hon b) (.refl block d) .failed⟩
        exact (giveUp_ne_nil hb).2
    | failed => exact absurd hw' hw

/-- Dropping the program cache gives up what was being written. -/
theorem Shown.drop (hs : L.Shown c R s) :
    (L.done .drop).Shown c R { s with pcache := lfsCacheDrop s.pcache } := by
  rw [done, giveUp]
  cases hw : L.writer with
  | idle =>
      obtain ⟨-, hsettled⟩ := hs.idle hw
      exact .ofIdle hs.fits rfl rfl hsettled
  | filling block =>
      obtain ⟨hblock, d₀, hon, m, d, hpart, -⟩ := hs.filling block hw
      refine .ofIdle (fits_giveUp hs.fits) rfl rfl ⟨d, hpart.dev, hpart.rcache.mono fun b hb => ?_,
        On.giveUp hon hpart.same .idle⟩
      obtain ⟨hne, hnil⟩ := giveUp_ne_nil hb
      exact ⟨fun _ => hnil, fun h => absurd h hne⟩
  | failed => exact .ofIdle hs.fits rfl rfl (hs.failed hw)

/-! ### Calls -/

/-- **A call answers as the logs do**, or it writes, the device went wrong, and it says so. -/
theorem Shown.call (hc : c.Drives R) (hreads : c.ReadsSucceed R) (hs : L.Shown c R s) {op : BdOp}
    (hop : L.Legal c.toLfsGeometry op) :
    Ends (fun a t => a = L.answer op ∧ (L.done op).Shown c R t)
      (fun e t => e.Reports ∧ ¬ c.Reliable R ∧ (L.failed op).Shown c R t) (op.call c s) := by
  cases op with
  | erase block => exact (hs.erase hc hop.1 hop.2).bind fun _ t ht => ⟨rfl, ht⟩
  | prog block off data =>
      obtain ⟨hw, rfl, hin⟩ := hop
      have hfailed : L.failed (.prog block (L.bytes block).length data) = L.giveUp .failed := by
        rw [BlockLogs.failed, hw]
      rw [hfailed]
      exact (hs.prog hc hreads hw hin).bind fun _ t ht => ⟨rfl, ht⟩
  | flush => exact (hs.flush hc hreads hop).bind fun _ t ht => ⟨rfl, ht⟩
  | sync => exact (hs.sync hc hreads hop).bind fun _ t ht => ⟨rfl, ht⟩
  | drop => exact ⟨rfl, hs.drop⟩
  | read cached hint block off size =>
      exact (hs.bdRead hc hreads hop.1 hop.2).bind fun data t ht =>
        ⟨congrArg BdAnswer.bytes ht.1, ht.2⟩
  | cmp cached hint block off buffer =>
      obtain ⟨hlen, hop⟩ := hop
      rw [BdOp.call, bind_of_ok (get_apply _)]
      refine (hs.reads hreads hop fun d T hback hT halign hseen hin => ?_).bind fun a t ht =>
        ⟨congrArg BdAnswer.order ht.1, ht.2⟩
      rw [← hseen]
      exact lfsBdCmp_spec hc hop.1 halign hop.2.1 hback hT hlen hin
  | crc cached hint block off size start =>
      obtain ⟨hlen, hop⟩ := hop
      rw [BdOp.call, bind_of_ok (get_apply _)]
      refine (hs.reads hreads hop fun d T hback hT halign hseen hin => ?_).bind fun a t ht =>
        ⟨congrArg BdAnswer.crc ht.1, ht.2⟩
      rw [← hseen]
      exact lfsBdCrc_spec hc hop.1 halign hop.2.1 hback hT hlen hin start

/-! ### Runs -/

/-- What may come back of a call: the answer of the logs, or an error that is not theirs. -/
def Right (c : LfsSetup δ) (R : δ → BlockDevice → Prop) (L : BlockLogs) :
    BdOp × Except ℤ BdAnswer → Prop
  | (op, .ok a) => a = L.answer op
  | (_, .error code) => code < 0 ∧ ¬ c.Reliable R

/-- A call that is allowed comes back with what is right, and the logs move on. -/
theorem Shown.step (hc : c.Drives R) (hreads : c.ReadsSucceed R) (hs : L.Shown c R s) {op : BdOp}
    (hop : L.Legal c.toLfsGeometry op) :
    ∃ r t, reported (op.call c) s = .ok r t ∧ L.Right c R (op, r) ∧
      (L.next (op, r)).Shown c R t := by
  obtain ⟨r, t, hcall, h⟩ := ends_reported (hs.call hc hreads hop)
  refine ⟨r, t, hcall, ?_⟩
  cases r with
  | ok a => exact h
  | error code => exact ⟨⟨h.1, h.2.1⟩, h.2.2⟩

/-- **The caching layer keeps logs.** In any run of calls, each allowed by what came back of
those before it, every call comes back with the answer of the logs or with an error of a device
that is not reliable; and after the run the next call does, too. -/
theorem Shown.run (hc : c.Drives R) (hreads : c.ReadsSucceed R) (hs : L.Shown c R s)
    {tr : List (BdOp × Except ℤ BdAnswer)} {t : LfsBd δ}
    (hrun : (tr.map Prod.fst).mapM (fun op => reported (op.call c)) s = .ok (tr.map Prod.snd) t)
    (hlegal : Guarded next (fun L i => L.Legal c.toLfsGeometry i.1) L tr) :
    Guarded next (Right c R) L tr ∧ (Runs.run next L tr).Shown c R t := by
  induction tr generalizing L s with
  | nil =>
      cases hrun
      exact ⟨trivial, hs⟩
  | cons i tr ih =>
      obtain ⟨op, r⟩ := i
      obtain ⟨r', s', hcall, hright, hs'⟩ := hs.step hc hreads hlegal.1
      rw [List.map_cons, List.mapM_cons, bind_of_ok hcall, bind_eq_ok] at hrun
      obtain ⟨rs, u, hrest, hlist⟩ := hrun
      rw [pure_apply] at hlist
      obtain ⟨hlist, hu⟩ := EStateM.Result.ok.inj hlist
      obtain ⟨hr, hrs⟩ := List.cons.inj hlist
      subst hr hrs hu
      obtain ⟨hrights, ht⟩ := ih hs' hrest hlegal.2
      exact ⟨⟨hright, hrights⟩, ht⟩

/-- Everything is known of a device, and nothing is being written. -/
def ofDevice (g : LfsGeometry) (d : BlockDevice) : BlockLogs where
  bytes b := slice (d.data b) 0 g.blockSize
  writer := .idle

/-- Nothing is pending in the logs of a device. -/
theorem sees_ofDevice {g : LfsGeometry} {b : ℕ} (cached : Bool) : (ofDevice g d).Sees cached b := by
  cases cached with
  | false => exact fun h => by cases h
  | true => exact fun h => by cases h

/-- A device with both caches dropped shows its own content as logs. -/
theorem shown_ofDevice (hdev : R s.dev d) (hrcache : s.rcache.block = lfsBlockNull)
    (hpcache : s.pcache.block = lfsBlockNull) : (ofDevice c.toLfsGeometry d).Shown c R s := by
  have hlen : ∀ b, ((ofDevice c.toLfsGeometry d).bytes b).length = c.blockSize := fun b =>
    length_slice _ _ _
  refine .ofIdle (fun b => Nat.le_of_eq (hlen b)) rfl hpcache
    ⟨d, hdev, fun hblock => ?_, fun b => ?_⟩
  · exact absurd hrcache (c.lt_null hblock).1
  · rw [On, hlen]
    rfl

/-- What is known of the blocks that are not being written is on the device. -/
theorem Shown.durable (hs : L.Shown c R s) :
    ∃ d, R s.dev d ∧ ∀ b, L.writer ≠ .filling b → L.On d b := by
  cases hw : L.writer with
  | idle =>
      obtain ⟨-, d, hdev, -, hon⟩ := hs.idle hw
      exact ⟨d, hdev, fun b _ => hon b⟩
  | filling block =>
      obtain ⟨-, d₀, hon, m, d, hpart, -⟩ := hs.filling block hw
      refine ⟨d, hpart.dev, fun b hb => ?_⟩
      have hne : b ≠ block := fun h => hb (congrArg Writer.filling h.symm)
      exact (hon b hne).sameBut hpart.same hne
  | failed =>
      obtain ⟨d, hdev, -, hon⟩ := hs.failed hw
      exact ⟨d, hdev, fun b _ => hon b⟩

end BlockLogs

/-- A small device that loses the low bits of what it programs. -/
def forgetful : LfsSetup BlockDevice where
  readSize := 4
  progSize := 4
  blockSize := 128
  blockCount := 4
  cacheSize := 8
  lookaheadSize := 8
  read_pos := by decide
  prog_pos := by decide
  cache_pos := by decide
  read_dvd := by decide
  prog_dvd := by decide
  cache_dvd := by decide
  block_ge := by decide
  block_le := by decide
  count_le := by decide
  lookahead_pos := by decide
  lookahead_dvd := by decide
  lookahead_le := by decide
  driver :=
    { read := fun block off size d => ((0, slice (d.data block) off size), d)
      prog := fun block off data d => (0, d.program block off (data.map (· &&& 0xF0)))
      erase := fun block d => (0, d.erase block)
      sync := fun d => (0, d) }

/-- Losing bits is within what `Drives` allows a program. -/
theorem drives_forgetful : forgetful.Drives Eq where
  read h _ := ⟨Int.le_refl 0, h, fun _ => by subst h; rfl⟩
  prog h _ _ := by
    subst h
    exact ⟨Int.le_refl 0, fun _ => ⟨_, List.length_map _, rfl⟩, _, rfl,
      BlockDevice.sameBut_program _ _ _ _⟩
  erase h _ := by
    subst h
    exact ⟨Int.le_refl 0, fun _ => rfl, _, rfl, BlockDevice.sameBut_erase _ _⟩
  sync h := ⟨Int.le_refl 0, h⟩

/-- The reads of the small device succeed. -/
theorem readsSucceed_forgetful : forgetful.ReadsSucceed Eq := fun _ _ _ _ _ _ _ => rfl

end Num487Boot
