import Num487Boot.ReadBack

/-!
# Updates with Failures

A host erases the application section, and repeats each page write until it is acknowledged. A
program command that fails may or may not have been carried out, and a page write that fails
stops in the middle of its page. But all that it leaves there are words of the page, and
programming a word twice changes nothing.

## Main results

* `writeWords_between`: what any page write leaves of a word.
* `update_endures`: an update whose pages have all been acknowledged leaves the flash of an update
  without failures.
-/

namespace Num487Boot

open Exec Memory Runs

/-! ### Words -/

/-- Programming one word changes no other word. -/
theorem IspCommand.apply_program_cases (flash : Flash) (buf : ℕ → UInt8) {n : ℕ} (addr : UInt32)
    (i : ℕ) (hn : n < 1073741824) (w : ℕ) :
    (IspCommand.program addr (leWord buf i)).apply flash w = flash w ∨
      (IspCommand.program addr (leWord buf i)).apply flash w
        = flash.burn buf (n + 1) addr i w := by
  by_cases hw : w = addr.toNat / 4
  · right
    have hburn : flash.burn buf (n + 1) addr i (wordAt addr 0)
        = flash (wordAt addr 0) &&& leWord buf (i + 4 * 0) :=
      Flash.burn_wordAt flash (Nat.succ_pos n) hn
    rw [wordAt_zero, Nat.mul_zero, Nat.add_zero] at hburn
    rw [hw, hburn]
    exact Function.update_self _ _ _
  · exact .inl (Function.update_of_ne hw _ _)

/-- **What a page write leaves of a word**, whatever becomes of its commands: what was there, or
that with the word of the page programmed into it. -/
theorem writeWords_between (buf : ℕ → UInt8) (n : ℕ) (hn : n ≤ 1073741824) {addr : UInt32} {i : ℕ}
    {s t : Machine} {r : UInt8} (hrun : writeWords buf n addr i s = .ok r t) (w : ℕ) :
    t.flash w = s.flash w ∨ t.flash w = s.flash.burn buf n addr i w := by
  induction n generalizing addr i s with
  | zero =>
      cases hrun
      exact .inl rfl
  | succ n ih =>
      let c : IspCommand := .program addr (leWord buf i)
      have hone := IspCommand.apply_program_cases s.flash buf addr i hn w
      rw [writeWords_succ] at hrun
      by_cases hv : s.verdicts.isp 0 c = .done
      · have happlies : (s.verdicts.isp 0 c).applies = true := by
          rw [hv]
          rfl
        have hflash : (s.afterFmcWrite addr (leWord buf i)).flash = c.apply s.flash :=
          if_pos happlies
        rw [if_pos hv] at hrun
        rcases ih (by omega) hrun with h | h
        · rw [h, hflash]
          exact hone
        · right
          rw [h, hflash]
          rfl
      · rw [if_neg hv] at hrun
        cases hrun
        by_cases happlies : (s.verdicts.isp 0 c).applies = true
        · have hflash : (s.afterFmcWrite addr (leWord buf i)).flash = c.apply s.flash :=
            if_pos happlies
          rw [hflash]
          exact hone
        · have hflash : (s.afterFmcWrite addr (leWord buf i)).flash = s.flash := if_neg happlies
          rw [hflash]
          exact .inl rfl

/-! ### Pages -/

/-- The word with number `w` is in the page. -/
def Record.Covers (p : Record) (w : ℕ) : Prop := ∃ k < 128, w = wordAt (recordAddr p.bytes) k

/-- A record covers words of the application section only. -/
theorem Record.covers_inside {p : Record} {w : ℕ} (haligned : p.Aligned) (h : p.Covers w) :
    4 ≤ w / 4096 ∧ w / 4096 < 32 := by
  obtain ⟨k, hk, rfl⟩ := h
  have hinside := p.write_inside
  rw [toNat_userAppStart, toNat_userAppEnd] at hinside
  rw [wordAt_eq haligned hk]
  omega

/-- Pages that stay apart share no word. -/
theorem Record.not_covers_of_apart {p q : Record} {w : ℕ} (hp : p.Aligned) (hq : q.Aligned)
    (hapart : Apart p.write q.write) (h : p.Covers w) : ¬ q.Covers w := by
  rintro ⟨k, hk, rfl⟩
  obtain ⟨j, hj, hw⟩ := h
  rw [wordAt_eq hp hj, wordAt_eq hq hk] at hw
  rw [Apart, p.length_write, q.length_write] at hapart
  have hpa : p.write.1 % 4 = 0 := hp
  have hqa : q.write.1 % 4 = 0 := hq
  omega

namespace Flash

variable {flash flash' : Flash} {p : Record} {ps : List Record} {w : ℕ}

/-- A record leaves the other words. -/
theorem record_of_not_covers (h : ¬ p.Covers w) : flash.record p w = flash w :=
  burn_of_ne flash fun k hk hw => h ⟨k, hk, hw⟩

/-- What a record leaves of a word depends on that word only. -/
theorem record_congr (h : flash w = flash' w) : flash.record p w = flash'.record p w := by
  by_cases hcovers : p.Covers w
  · obtain ⟨k, hk, rfl⟩ := hcovers
    rw [record, record, burn_wordAt _ hk (by decide), burn_wordAt _ hk (by decide), h]
  · rw [record_of_not_covers hcovers, record_of_not_covers hcovers, h]

/-- Programming a page twice changes nothing. -/
theorem record_record (flash : Flash) (p : Record) :
    (flash.record p).record p = flash.record p := by
  funext w
  by_cases hcovers : p.Covers w
  · obtain ⟨k, hk, rfl⟩ := hcovers
    rw [record, burn_wordAt _ hk (by decide), record, burn_wordAt _ hk (by decide),
      UInt32.and_assoc, UInt32.and_self]
  · exact record_of_not_covers hcovers

/-- Records leave the words none of them covers. -/
theorem foldl_record_of_not_covers (h : ∀ p ∈ ps, ¬ p.Covers w) :
    ps.foldl record flash w = flash w := by
  induction ps generalizing flash with
  | nil => rfl
  | cons p ps ih =>
      rw [List.forall_mem_cons] at h
      rw [List.foldl_cons, ih h.2, record_of_not_covers h.1]

/-- A page of an update may be programmed last. -/
theorem exists_foldl_record_eq (flash : Flash) (haligned : ∀ q ∈ ps, q.Aligned)
    (hapart : ps.Pairwise fun q q' => Apart q.write q'.write) (hp : p ∈ ps) :
    ∃ qs : List Record, ps.foldl record flash = (qs.foldl record flash).record p ∧
      ∀ q ∈ qs, ∀ w, p.Covers w → ¬ q.Covers w := by
  obtain ⟨as, bs, rfl⟩ := List.append_of_mem hp
  have hperm : (as ++ bs ++ [p]).Perm (as ++ p :: bs) := by
    rw [List.append_assoc]
    exact (List.perm_append_singleton p bs).append_left as
  refine ⟨as ++ bs, ?_, fun q hq w hw => ?_⟩
  · rw [← foldl_record_perm flash haligned hperm, List.foldl_append]
    rfl
  · rw [List.pairwise_append, List.pairwise_cons] at hapart
    obtain ⟨-, ⟨hafter, -⟩, hbefore⟩ := hapart
    have hqa : q.Aligned :=
      haligned q (by simp only [List.mem_append, List.mem_cons] at hq ⊢; tauto)
    rcases List.mem_append.mp hq with hq | hq
    · have hqp := hbefore q hq p List.mem_cons_self
      intro hcovers
      exact Record.not_covers_of_apart hqa (haligned p hp) hqp hcovers hw
    · exact Record.not_covers_of_apart (haligned p hp) hqa (hafter q hq) hw

/-- Programming a page of an update again changes nothing. -/
theorem foldl_record_record (haligned : ∀ q ∈ ps, q.Aligned)
    (hapart : ps.Pairwise fun q q' => Apart q.write q'.write) (hp : p ∈ ps) :
    (ps.foldl record flash).record p = ps.foldl record flash := by
  obtain ⟨qs, hlast, -⟩ := exists_foldl_record_eq flash haligned hapart hp
  rw [hlast, record_record]

/-- The other pages of an update do not reach into a page. -/
theorem foldl_record_of_covers (haligned : ∀ q ∈ ps, q.Aligned)
    (hapart : ps.Pairwise fun q q' => Apart q.write q'.write) (hp : p ∈ ps) (hw : p.Covers w) :
    ps.foldl record flash w = flash.record p w := by
  obtain ⟨qs, hlast, hothers⟩ := exists_foldl_record_eq flash haligned hapart hp
  rw [hlast]
  exact record_congr (foldl_record_of_not_covers fun q hq => hothers q hq w hw)

end Flash

/-! ### Requests -/

/-- The command loop serves a request whose handler works on the flash and reports how that
went. -/
theorem step_reports {s u : Machine} {v : Verdicts} {f : Frame} {r : List UartPoll} {x : Prog Unit}
    {res : UInt8} (hphase : s.phase = .command) (hrx : s.rx = (encode f).map .byte ++ r)
    (hx : dispatch (.ofByte f.cmd) = (do x; pure .again))
    (hrun : x ((s.load v).accepted f r) = (if res ≠ 0 then sendNACK else sendACK : Prog Unit) u)
    (hfmc : FmcStep ((s.load v).accepted f r) u) :
    ∃ t, Config.step (.live s) v = .live t ∧ t.phase = .command ∧ t.rx = r ∧ t.flash = u.flash ∧
      Sends (encode (.reply f.cmd [if res = 0 then ack else nack])) s t := by
  have hcmd : u.pac.cmd = f.cmd := congrArg (·.cmd) hfmc.pac
  have hend : x ((s.load v).accepted f r)
      = .ok () (u.replied (.reply f.cmd [if res = 0 then ack else nack])) := by
    rw [hrun, ← hcmd]
    by_cases hres : res = 0
    · rw [if_neg (not_not.mpr hres), if_pos hres]
      exact sendStatus_apply ack u
    · rw [if_pos hres, if_neg hres]
      exact sendStatus_apply nack u
  have hpass : mainPass (s.load v)
      = .ok () (u.replied (.reply f.cmd [if res = 0 then ack else nack])) := by
    have hpass : commandPass (s.load v)
        = .ok .again (u.replied (.reply f.cmd [if res = 0 then ack else nack])) := by
      rw [commandPass_encode (s := s.load v) hrx, hx, bind_of_ok hend]
      rfl
    rw [mainPass_command (s := s.load v) hphase, bind_of_ok hpass]
    rfl
  refine ⟨u.replied (.reply f.cmd [if res = 0 then ack else nack]), Config.step_of_ok hpass,
    hfmc.phase.trans hphase, hfmc.rx, rfl, ?_⟩
  rw [Sends, u.txBytes_replied, hfmc.quiet.txBytes, txBytes_accepted]
  rfl

/-- A request of the host. -/
inductive UpdateRequest
  | erase
  | write (p : Record)

/-- The request on the line. -/
def UpdateRequest.frame : UpdateRequest → Frame
  | .erase => .request cmdFlashEraseAll
  | .write p => p.frame cmdFlashWrite

/-- What the host is told. -/
def UpdateRequest.reply (q : UpdateRequest) (acked : Bool) : Frame :=
  .reply q.frame.cmd [if acked then ack else nack]

/-- What an update request leaves of the flash. -/
def UpdateRequest.Leaves (flash flash' : Flash) (acked : Bool) : UpdateRequest → Prop
  | .erase =>
      (∀ w, ¬ (4 ≤ w / 4096 ∧ w / 4096 < 32) → flash' w = flash w) ∧
        (acked = true → flash' = flash.erasedFrom 4)
  | .write p =>
      (∀ w, flash' w = flash w ∨ flash' w = flash.record p w) ∧
        (acked = true → flash' = flash.record p)

/-- **One request.** However its commands end, it is answered, and what it leaves of the flash is
as the answer says. -/
theorem step_update {s : Machine} {q : UpdateRequest} {r : List UartPoll} (v : Verdicts)
    (hphase : s.phase = .command) (hrx : s.rx = (encode q.frame).map .byte ++ r) :
    ∃ t acked, Config.step (.live s) v = .live t ∧ t.phase = .command ∧ t.rx = r ∧
      Sends (encode (q.reply acked)) s t ∧ q.Leaves s.flash t.flash acked := by
  let s' := (s.load v).accepted q.frame r
  cases q with
  | erase =>
      obtain ⟨res, u, hrun, hfmc, -, hres, hflash⟩ := eraseBlocks_spec 28 4 0 s' rfl
      obtain ⟨res', u', es, hrun', -, -, -, -, hdone⟩ := flashEraseAppAll_spec s'
      cases hrun.symm.trans hrun'
      have hend :
          handleFlashEraseAll s' = (if res ≠ 0 then sendNACK else sendACK : Prog Unit) u := by
        rw [handleFlashEraseAll, bind_of_ok hrun']
      obtain ⟨t, hstep, htphase, htrx, htflash, hsent⟩ := step_reports hphase hrx rfl hend hfmc
      refine ⟨t, decide (res = 0), hstep, htphase, htrx, ?_, fun w hw => ?_, fun hacked => ?_⟩
      · rw [UpdateRequest.reply]
        simpa using hsent
      · rw [htflash, hflash w, if_neg]
        · rfl
        · rintro ⟨k, hk, hw', -⟩
          omega
      · rw [htflash]
        exact hdone (of_decide_eq_true hacked)
  | write p =>
      have hbuf : ∀ i < bufferSize, s'.blBuffer i = p.bytes.getD i 0 := fun i hi =>
        accepted_record p hi
      obtain ⟨haddr, hburn⟩ := s.flash.burn_record hbuf
      obtain ⟨res, u, es, hrun, hfmc, -, -, -, hdone⟩ :=
        writeWords_spec (fun i => s'.blBuffer (4 + i)) 128 (leWord s'.blBuffer 0) 0 s'
      have hend : handleFlashWrite s' = (if res ≠ 0 then sendNACK else sendACK : Prog Unit) u := by
        have hguard : ¬ leWord s'.blBuffer 0 ≤ bootloaderEnd := by
          rw [haddr]
          exact p.not_guarded
        rw [handleFlashWrite, bind_of_ok (get_apply s'), if_neg hguard]
        exact bind_of_ok hrun
      obtain ⟨t, hstep, htphase, htrx, htflash, hsent⟩ := step_reports hphase hrx rfl hend hfmc
      refine ⟨t, decide (res = 0), hstep, htphase, htrx, ?_, fun w => ?_, fun hacked => ?_⟩
      · rw [UpdateRequest.reply]
        simpa using hsent
      · rw [htflash, ← hburn]
        exact writeWords_between _ 128 (by decide) hrun w
      · rw [htflash, ← hburn]
        exact hdone (of_decide_eq_true hacked)

/-! ### Updates -/

/-- What the host knows: whether the section is erased, and which pages have been acknowledged
since. -/
structure Progress where
  erased : Bool
  stored : List Record

/-- An acknowledged erase starts over, an acknowledged page is stored, and a refused request adds
nothing. A refused erase may have erased anything. -/
def Progress.next (P : Progress) : UpdateRequest × Bool → Progress
  | (.erase, acked) => ⟨acked, []⟩
  | (.write p, true) => { P with stored := p :: P.stored }
  | (.write _, false) => P

/-- The flash is on its way from the erased section to the update, and the acknowledged pages
have arrived. -/
structure Progress.Right (base target flash : Flash) (P : Progress) : Prop where
  outside : ∀ w, ¬ (4 ≤ w / 4096 ∧ w / 4096 < 32) → flash w = base w
  between : P.erased = true → ∀ w, flash w = base w ∨ flash w = target w
  stored : P.erased = true → ∀ p ∈ P.stored, ∀ w, p.Covers w → flash w = target w

section Update

variable {pages : List Record} {flash₀ flash flash' : Flash} {P : Progress} {acked : Bool}

/-- An erase, acknowledged or not. -/
theorem Progress.Right.erase {target : Flash} (h : P.Right (flash₀.erasedFrom 4) target flash)
    (hleaves : UpdateRequest.erase.Leaves flash flash' acked) :
    (P.next (.erase, acked)).Right (flash₀.erasedFrom 4) target flash' := by
  obtain ⟨hout, hdone⟩ := hleaves
  refine ⟨fun w hw => (hout w hw).trans (h.outside w hw), fun herased w => .inl ?_,
    fun _ p hp => absurd hp List.not_mem_nil⟩
  rw [hdone herased, Flash.erasedFrom, Flash.erasedFrom]
  split
  · rfl
  · rename_i hw
    rw [h.outside w hw, Flash.erasedFrom, if_neg hw]

/-- A word of a page stays on its way. -/
theorem Progress.Right.record (haligned : ∀ q ∈ pages, q.Aligned)
    (hapart : pages.Pairwise fun q q' => Apart q.write q'.write)
    (h : P.Right (flash₀.erasedFrom 4) (pages.foldl Flash.record (flash₀.erasedFrom 4)) flash)
    (herased : P.erased = true) {p : Record} (hp : p ∈ pages) {w : ℕ} (hw : p.Covers w) :
    flash.record p w = pages.foldl Flash.record (flash₀.erasedFrom 4) w := by
  rcases h.between herased w with hold | hnew
  · rw [Flash.record_congr hold, ← Flash.foldl_record_of_covers haligned hapart hp hw]
  · rw [Flash.record_congr hnew, Flash.foldl_record_record haligned hapart hp]

/-- A page write, acknowledged or not. -/
theorem Progress.Right.write (haligned : ∀ q ∈ pages, q.Aligned)
    (hapart : pages.Pairwise fun q q' => Apart q.write q'.write)
    (h : P.Right (flash₀.erasedFrom 4) (pages.foldl Flash.record (flash₀.erasedFrom 4)) flash)
    {p : Record} (hp : p ∈ pages) (hleaves : (UpdateRequest.write p).Leaves flash flash' acked) :
    (P.next (.write p, acked)).Right (flash₀.erasedFrom 4)
      (pages.foldl Flash.record (flash₀.erasedFrom 4)) flash' := by
  obtain ⟨hword, hdone⟩ := hleaves
  have hkept : ∀ w, ¬ p.Covers w → flash' w = flash w := by
    intro w hw
    rcases hword w with h | h
    · exact h
    · rw [h, Flash.record_of_not_covers hw]
  have hheld : P.erased = true → ∀ q ∈ P.stored, ∀ w, q.Covers w →
      flash' w = pages.foldl Flash.record (flash₀.erasedFrom 4) w := by
    intro herased q hq w hw
    by_cases hpw : p.Covers w
    · rcases hword w with hold | hnew
      · rw [hold, h.stored herased q hq w hw]
      · rw [hnew, h.record haligned hapart herased hp hpw]
    · rw [hkept w hpw, h.stored herased q hq w hw]
  have herase : (P.next (.write p, acked)).erased = P.erased := by cases acked <;> rfl
  refine ⟨fun w hw => ?_, fun herased w => ?_, fun herased q hq w hw => ?_⟩
  · rw [hkept w fun hpw => hw (p.covers_inside (haligned p hp) hpw), h.outside w hw]
  · rw [herase] at herased
    by_cases hpw : p.Covers w
    · rcases hword w with hold | hnew
      · rw [hold]
        exact h.between herased w
      · rw [hnew]
        exact .inr (h.record haligned hapart herased hp hpw)
    · rw [hkept w hpw]
      exact h.between herased w
  · rw [herase] at herased
    cases acked with
    | false => exact hheld herased q hq w hw
    | true =>
        rcases List.mem_cons.mp hq with rfl | hq
        · rw [hdone rfl, h.record haligned hapart herased hp hw]
        · exact hheld herased q hq w hw

/-- The requests of an update are answered one by one, and the host stays right. -/
theorem run_update (haligned : ∀ q ∈ pages, q.Aligned)
    (hapart : pages.Pairwise fun q q' => Apart q.write q'.write) (requests : List UpdateRequest)
    {s : Machine} {vs : List Verdicts} {r : List UartPoll} (hphase : s.phase = .command)
    (hrx : s.rx = line (requests.map UpdateRequest.frame) ++ r)
    (hpages : ∀ p, .write p ∈ requests → p ∈ pages) (hlen : vs.length = requests.length)
    (h : P.Right (flash₀.erasedFrom 4) (pages.foldl Flash.record (flash₀.erasedFrom 4)) s.flash) :
    ∃ t acks, acks.length = requests.length ∧ (Config.live s).run vs = .live t ∧
      Sends ((requests.zip acks).flatMap fun qa => encode (qa.1.reply qa.2)) s t ∧
      (run Progress.next P (requests.zip acks)).Right (flash₀.erasedFrom 4)
        (pages.foldl Flash.record (flash₀.erasedFrom 4)) t.flash := by
  induction requests generalizing s vs P with
  | nil =>
      obtain rfl := List.eq_nil_of_length_eq_zero hlen
      exact ⟨s, [], rfl, rfl, (List.append_nil _).symm, h⟩
  | cons q requests ih =>
      obtain ⟨v, vs, rfl⟩ := List.exists_cons_of_length_eq_add_one hlen
      rw [List.map_cons, line_cons] at hrx
      obtain ⟨u, acked, hstep, huphase, hurx, hsent, hleaves⟩ := step_update v hphase hrx
      have hu : (P.next (q, acked)).Right (flash₀.erasedFrom 4)
          (pages.foldl Flash.record (flash₀.erasedFrom 4)) u.flash := by
        cases q with
        | erase => exact h.erase hleaves
        | write p => exact h.write haligned hapart (hpages p List.mem_cons_self) hleaves
      obtain ⟨t, acks, hacks, hrun, hsent', ht⟩ := ih huphase hurx
        (fun p hp => hpages p (List.mem_cons_of_mem q hp)) (Nat.succ.inj hlen) hu
      refine ⟨t, acked :: acks, congrArg (· + 1) hacks, ?_, hsent.trans hsent', ht⟩
      rw [Config.run, run_cons, hstep]
      exact hrun

/-- When every page has arrived, the update has. -/
theorem Progress.Right.arrived {base : Flash}
    (h : P.Right base (pages.foldl Flash.record base) flash)
    (herased : P.erased = true) (hall : ∀ p ∈ pages, p ∈ P.stored) :
    flash = pages.foldl Flash.record base := by
  funext w
  by_cases hw : ∃ p ∈ pages, p.Covers w
  · obtain ⟨p, hp, hcovers⟩ := hw
    exact h.stored herased p (hall p hp) w hcovers
  · have hnone : ∀ p ∈ pages, ¬ p.Covers w := fun p hp hcovers => hw ⟨p, hp, hcovers⟩
    rcases h.between herased w with h | h
    · rw [h, Flash.foldl_record_of_not_covers hnone]
    · exact h

/-- Before the first request the host knows nothing. -/
theorem Progress.right_start (flash target : Flash) :
    (⟨false, []⟩ : Progress).Right (flash.erasedFrom 4) target flash :=
  ⟨fun _ hw => (if_neg hw).symm, nofun, nofun⟩

/-- **An update endures failures.** For any list of word-aligned pages that stay apart, and any
sequence of erases and page writes, however often a page is written and however each command
ends: every request is answered, and if the last erase was acknowledged and each page has been
acknowledged since, the flash is that of an update without failures. Outside the application
section nothing changes in any case. -/
theorem update_endures (haligned : ∀ q ∈ pages, q.Aligned)
    (hapart : pages.Pairwise fun q q' => Apart q.write q'.write) (requests : List UpdateRequest)
    {s : Machine} {vs : List Verdicts} {r : List UartPoll} (hphase : s.phase = .command)
    (hrx : s.rx = line (requests.map UpdateRequest.frame) ++ r)
    (hpages : ∀ p, .write p ∈ requests → p ∈ pages) (hlen : vs.length = requests.length) :
    ∃ t acks, acks.length = requests.length ∧ (Config.live s).run vs = .live t ∧
      Sends ((requests.zip acks).flatMap fun qa => encode (qa.1.reply qa.2)) s t ∧
      (∀ w, ¬ (4 ≤ w / 4096 ∧ w / 4096 < 32) → t.flash w = s.flash w) ∧
      ((run Progress.next ⟨false, []⟩ (requests.zip acks)).erased = true →
        (∀ p ∈ pages, p ∈ (run Progress.next ⟨false, []⟩ (requests.zip acks)).stored) →
        t.flash = pages.foldl Flash.record (s.flash.erasedFrom 4)) := by
  obtain ⟨t, acks, hacks, hrun, hsent, ht⟩ :=
    run_update haligned hapart requests hphase hrx hpages hlen (Progress.right_start s.flash _)
  exact ⟨t, acks, hacks, hrun, hsent, fun w hw => (ht.outside w hw).trans (if_neg hw), ht.arrived⟩

/-- The hardware stalls at the fourth command, and carries it out nevertheless. -/
def Verdicts.stalls : Verdicts where
  isp n _ := if n = 3 then .timeout true else .done
  lfs _ _ := .asDocumented

/-- The first page, written again after a write that stopped in the middle and after the last
page. -/
theorem update_endures_twoPages :
    let pages := [firstPage, lastPage]
    let requests := [.erase, .write firstPage, .write lastPage, .write firstPage]
    let s := Machine.connected (line (requests.map UpdateRequest.frame)) .unformatted .blank
    ∃ t acks, acks.length = 4 ∧
      (Config.live s).run [.allWell, .stalls, .allWell, .allWell] = .live t ∧
      Sends ((requests.zip acks).flatMap fun qa => encode (qa.1.reply qa.2)) s t ∧
      (∀ w, ¬ (4 ≤ w / 4096 ∧ w / 4096 < 32) → t.flash w = s.flash w) ∧
      ((run Progress.next ⟨false, []⟩ (requests.zip acks)).erased = true →
        (∀ p ∈ pages, p ∈ (run Progress.next ⟨false, []⟩ (requests.zip acks)).stored) →
        t.flash = pages.foldl Flash.record (s.flash.erasedFrom 4)) := by
  intro pages requests s
  exact update_endures aligned_endPages apart_endPages requests rfl (List.append_nil _).symm
    (by simp +contextual [requests, or_imp]) rfl

end Update

end Num487Boot
