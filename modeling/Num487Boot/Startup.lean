import Num487Boot.Retries

/-!
# Starting the Application

Out of reset, `main` looks at the programming pin. With the pin low it goes into the loop of the
protocol; otherwise `system_jump_to_app` hands the processor over: the first two words of the
application section are the stack pointer and the entry of the application, and the vector table
is moved to its start. Clocks, pins and interrupt controls are left out: nothing modelled depends
on them.

## Main results

* `update_starts`: after an acknowledged update the processor is handed over to what the host
  sent.
-/

namespace Num487Boot

open Exec Memory Runs

/-- `SCB_VTOR_TBLOFF_Msk` -/
def scbVtorTbloffMsk : UInt32 := (0x1FFFFFF : UInt32) <<< 7

/-- What the processor is handed over with. -/
structure AppEntry where
  msp : UInt32
  vtor : UInt32
  resetHandler : UInt32
  deriving DecidableEq

/-- `system_is_prog_mode`, from the level of `PB5`. -/
def systemIsProgMode (pb5 : Bool) : Bool := !pb5

/-- `system_jump_to_app`: the stack pointer and the reset address come from the first two words of
the application section. -/
def systemJumpToApp (flash : Flash) : AppEntry where
  msp := flash (userAppStart.toNat / 4)
  vtor := userAppStart &&& scbVtorTbloffMsk
  resetHandler := flash ((userAppStart + 4).toNat / 4)

/-- `main` up to the head of its loop. -/
def mainStart (pb5 : Bool) (rx : List UartPoll) (disk : Disk) (flash : Flash)
    (prints : ℕ → LfsCall → List MessageChar := fun _ _ => []) : AppEntry ⊕ Machine :=
  if systemIsProgMode pb5 then .inr (.reset rx disk flash prints)
  else .inl (systemJumpToApp flash)

/-- The entry an image names: its first two words, and its place. -/
def Record.entry (p : Record) : AppEntry where
  msp := leWord (fun i => p.bytes.getD (4 + i) 0) 0
  vtor := userAppStart
  resetHandler := leWord (fun i => p.bytes.getD (4 + i) 0) 4

/-- The word of a page on the erased section. -/
theorem Flash.record_erased (flash : Flash) {p : Record} (hinside : p.Aligned) {k : ℕ}
    (hk : k < 128) : (flash.erasedFrom 4).record p (wordAt (recordAddr p.bytes) k)
      = leWord (fun i => p.bytes.getD (4 + i) 0) (4 * k) := by
  have hblank : flash.erasedFrom 4 (wordAt (recordAddr p.bytes) k) = 0xFFFFFFFF :=
    if_pos (p.covers_inside hinside ⟨k, hk, rfl⟩)
  rw [record, burn_wordAt _ hk (by decide), hblank, Nat.zero_add]
  exact UInt32.neg_one_and

/-- **An update starts.** When an update with a page at the start of the application section has
been acknowledged, whatever failed on the way, the next reset with the programming pin high hands
the processor over to the entry in that page. -/
theorem update_starts {pages : List Record} (haligned : ∀ q ∈ pages, q.Aligned)
    (hapart : pages.Pairwise fun q q' => Apart q.write q'.write) (requests : List UpdateRequest)
    {s : Machine} {vs : List Verdicts} {r : List UartPoll} (hphase : s.phase = .command)
    (hrx : s.rx = line (requests.map UpdateRequest.frame) ++ r)
    (hpages : ∀ p, .write p ∈ requests → p ∈ pages) (hlen : vs.length = requests.length)
    {p : Record} (hp : p ∈ pages) (hstart : recordAddr p.bytes = userAppStart) :
    ∃ t acks, acks.length = requests.length ∧ (Config.live s).run vs = .live t ∧
      Sends ((requests.zip acks).flatMap fun qa => encode (qa.1.reply qa.2)) s t ∧
      ((run Progress.next ⟨false, []⟩ (requests.zip acks)).erased = true →
        (∀ p ∈ pages, p ∈ (run Progress.next ⟨false, []⟩ (requests.zip acks)).stored) →
        ∀ rx disk, mainStart true rx disk t.flash = .inl p.entry) := by
  obtain ⟨t, acks, hacks, hrun, hsent, ht⟩ :=
    run_update haligned hapart requests hphase hrx hpages hlen (Progress.right_start s.flash _)
  refine ⟨t, acks, hacks, hrun, hsent, fun herased hall rx disk => ?_⟩
  have hflash := ht.arrived herased hall
  have hword : ∀ k < 128, t.flash (wordAt userAppStart k)
      = leWord (fun i => p.bytes.getD (4 + i) 0) (4 * k) := by
    intro k hk
    rw [← hstart, hflash, Flash.foldl_record_of_covers haligned hapart hp ⟨k, hk, rfl⟩,
      Flash.record_erased s.flash (haligned p hp) hk]
  have hmsp : t.flash (userAppStart.toNat / 4) = p.entry.msp := hword 0 (by decide)
  have hreset : t.flash ((userAppStart + 4).toNat / 4) = p.entry.resetHandler :=
    hword 1 (by decide)
  rw [mainStart, systemIsProgMode, if_neg (by decide), systemJumpToApp, hmsp, hreset]
  rfl

/-- The first and the last page, with a write of the first one that is lost. -/
theorem update_starts_twoPages :
    let pages := [firstPage, lastPage]
    let requests := [.erase, .write firstPage, .write lastPage, .write firstPage]
    let s := Machine.connected (line (requests.map UpdateRequest.frame)) .unformatted .blank
    ∃ t acks, acks.length = 4 ∧
      (Config.live s).run [.allWell, .stalls, .allWell, .allWell] = .live t ∧
      Sends ((requests.zip acks).flatMap fun qa => encode (qa.1.reply qa.2)) s t ∧
      ((run Progress.next ⟨false, []⟩ (requests.zip acks)).erased = true →
        (∀ p ∈ pages, p ∈ (run Progress.next ⟨false, []⟩ (requests.zip acks)).stored) →
        ∀ rx disk, mainStart true rx disk t.flash = .inl firstPage.entry) := by
  intro pages requests s
  exact update_starts aligned_endPages apart_endPages requests rfl (List.append_nil _).symm
    (by simp +contextual [requests, or_imp]) rfl List.mem_cons_self rfl

end Num487Boot
