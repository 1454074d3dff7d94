import Num487Boot.Gating

/-!
# The APROM Update Window

`APROM_update_enable` unlocks the protected registers and enables ISP and the APROM update;
`APROM_update_disable` undoes the three. `main` opens the window at the head of its loop, and
the call that closes the iteration is `APROM_update_enable` again, so the window is open at
the end of every iteration, whatever ran in it.

## Main results

* `mainPass_endsIteration`: how an iteration ends, and what it leaves.
* `window_closed_iff`: the window is closed after every iteration of a run exactly when the
  run ends no iteration.
-/

namespace Num487Boot

open Exec

/-- The registers locked, ISP and the APROM update disabled. -/
def UpdateWindow.closed : UpdateWindow := ⟨false, false, false⟩

/-- `APROM_update_disable`, which nothing calls. -/
def apromUpdateDisable : Prog Unit :=
  modify fun s => { s with window := .closed }

/-- A closed window is one that `APROM_update_disable` leaves as it is. -/
theorem apromUpdateDisable_eq_self_iff (s : Machine) :
    apromUpdateDisable s = .ok () s ↔ s.window = .closed := by
  constructor
  · intro h
    exact (congrArg (fun r => (after r).window) h).symm
  · intro h
    rw [apromUpdateDisable, modify_apply, ← h]

/-- A pass of the command loop that receives `CMD_PROG_END` ends the iteration. -/
theorem mainPass_progEnd {s : Machine} {f : Frame} (hphase : s.phase = .command)
    (hf : s.Incoming f)
    (hcmd : Command.ofByte f.cmd = .progEnd) :
    ∃ t, mainPass s = .ok () t ∧ t.phase = .loopHead := by
  obtain ⟨ps, r, hrx, hps⟩ := hf
  have hget := getPacket_image hrx hps
  have hpass : commandPass s = dispatch .progEnd ((s.withRx r).holding f).accepting := by
    rw [commandPass_serves hget, ← hcmd]
    rfl
  rw [dispatch, sendACK, bind_of_ok (sendStatus_apply ack _)] at hpass
  rw [mainPass_command hphase, bind_of_ok hpass]
  exact ⟨_, rfl, rfl⟩

/-- **The end of an iteration.** It was `CMD_PROG_END` that ended it, and the window is
open. -/
theorem mainPass_endsIteration {s t : Machine} (hphase : s.phase = .command)
    (hrun : mainPass s = .ok () t) (ht : t.phase = .loopHead) :
    (∃ f, s.Incoming f ∧ Command.ofByte f.cmd = .progEnd) ∧ t.window = ⟨true, true, true⟩ := by
  rw [mainPass_command hphase] at hrun
  obtain ⟨control, u, hpass, hrest⟩ := bind_eq_ok.mp hrun
  rcases attempt_cases _ s with ⟨v, hget, hrec⟩ | ⟨v, hrec, hattempt⟩
  · rw [commandPass_serves hget] at hpass
    cases control with
    | again =>
        cases hrest
        have hserves := (dispatch_serves _).of_ok hpass
        have hstays : t.phase = s.phase := hserves.phase.trans hrec.phase
        rw [hstays, hphase] at ht
        cases ht
    | leave =>
        cases hrest
        refine ⟨?_, rfl⟩
        obtain ⟨f, ps, r, hrx, hps, rfl⟩ := getPacket_successed hget
        exact ⟨f, ⟨ps, r, hrx, hps⟩, (dispatch_control hpass).mp rfl⟩
  · rw [commandPass, ← attempt] at hpass
    rcases hattempt with hok | ⟨e, herror⟩
    · rw [hok] at hpass
      cases hpass
      cases hrest
      rw [hrec.phase, hphase] at ht
      cases ht
    · rw [herror] at hpass
      cases hpass

/-! ### Runs -/

/-- In the run, the window is closed at the end of every iteration of `main`'s loop. -/
def ClosesWindow (rx : List UartPoll) (disk : Disk) (flash : Flash) (vs : List Verdicts)
    (prints : ℕ → LfsCall → List MessageChar := fun _ _ => []) : Prop :=
  ∀ us v ws s t, vs = us ++ v :: ws → Config.reached rx disk flash us prints = .live s →
    s.phase = .command → (Config.live s).step v = .live t → t.phase = .loopHead →
      t.window = .closed

/-- **The window stays open.** In a run from reset the window is closed at the end of every
iteration of `main`'s loop if and only if no iteration ends: no pass of the command loop
finds `CMD_PROG_END` at the front of the receive line. -/
theorem window_closed_iff (rx : List UartPoll) (disk : Disk) (flash : Flash)
    (vs : List Verdicts) (prints : ℕ → LfsCall → List MessageChar) :
    ClosesWindow rx disk flash vs prints ↔
      ∀ us v ws s f, vs = us ++ v :: ws → Config.reached rx disk flash us prints = .live s →
        s.phase = .command → s.Incoming f → Command.ofByte f.cmd ≠ .progEnd := by
  constructor
  · intro h us v ws s f hvs hs hphase hf hcmd
    obtain ⟨t, hpass, ht⟩ := mainPass_progEnd (s := s.load v) hphase hf hcmd
    have hclosed := h us v ws s t hvs hs hphase (Config.step_of_ok hpass) ht
    rw [(mainPass_endsIteration (s := s.load v) hphase hpass ht).2] at hclosed
    cases hclosed
  · intro h us v ws s t hvs hs hphase hstep ht
    have hpass : mainPass (s.load v) = .ok () t := by
      rw [Config.step] at hstep
      cases hrun : mainPass (s.load v) with
      | ok _ u =>
          rw [hrun] at hstep
          cases hstep
          rfl
      | error e u =>
          rw [hrun] at hstep
          cases hstep
    obtain ⟨⟨f, hf, hcmd⟩, -⟩ := mainPass_endsIteration (s := s.load v) hphase hpass ht
    exact absurd hcmd (h us v ws s f hvs hs hphase hf)

/-- A session of a handshake and `CMD_PROG_END`, with nothing in between. -/
def emptySession : List UartPoll := received [cmdChkProtocol, cmdProgEnd]

/-- The window is open after the empty session. -/
theorem emptySession_leavesWindowOpen :
    ¬ ClosesWindow emptySession .unformatted .blank [.allWell, .allWell, .allWell] := by
  intro h
  have hclosed := h [.allWell, .allWell] .allWell [] _ _ rfl (Config.eq_live (by decide +kernel))
    (by decide +kernel) (Config.eq_live (by decide +kernel)) (by decide +kernel)
  revert hclosed
  decide +kernel

end Num487Boot
