import Num487Boot.Codec
import Num487Boot.Lib.Runs
import Num487Boot.Protocol

/-!
# The Bootloader as a Transition System

A run of the bootloader is a sequence of passes of `mainPass`, each under surroundings of
its own. `Config.run c vs` is the configuration after one pass for each entry of `vs`; the
reachable configurations are the ends of the runs from `Machine.reset`.

The conditions of later results are about the state a pass starts in: what stands at the
front of the receive line (`Machine.announced`, `Machine.Incoming`) and how LittleFS will
answer.
-/

namespace Num487Boot

open Exec

/-- A running bootloader, or one that has halted for a reason. -/
inductive Config
  | live (s : Machine)
  | dead (h : Halt) (s : Machine)

namespace Config

/-- The machine, running or halted. -/
def machine : Config → Machine
  | .live s => s
  | .dead _ s => s

/-- Why the bootloader has halted, if it has. -/
def halted : Config → Option Halt
  | .live _ => none
  | .dead h _ => some h

/-- A configuration that is not halted is a running machine. -/
theorem eq_live {c : Config} (h : c.halted = none) : c = .live c.machine := by
  cases c with
  | live s => rfl
  | dead e s => cases h

/-- One pass under fresh surroundings. -/
def step : Config → Verdicts → Config
  | .live s, v =>
      match mainPass (s.load v) with
      | .ok _ t => .live t
      | .error h t => .dead h t
  | .dead h s, _ => .dead h s

/-- One pass for each of the surroundings. -/
def run (c : Config) (vs : List Verdicts) : Config := Runs.run step c vs

/-- Where a run out of reset ends. -/
def reached (rx : List UartPoll) (disk : Disk) (flash : Flash) (vs : List Verdicts)
    (prints : ℕ → LfsCall → List MessageChar := fun _ _ => []) : Config :=
  (Config.live (.reset rx disk flash prints)).run vs

/-- A pass that returns leads to the next one. -/
theorem step_of_ok {s t : Machine} {v : Verdicts} (h : mainPass (s.load v) = .ok () t) :
    step (.live s) v = .live t := by
  rw [step, h]

/-- A pass that halts ends the run. -/
theorem step_of_error {s t : Machine} {v : Verdicts} {e : Halt}
    (h : mainPass (s.load v) = .error e t) : step (.live s) v = .dead e t := by
  rw [step, h]

/-- A dead bootloader stays dead. -/
theorem run_dead (e : Halt) (s : Machine) (vs : List Verdicts) :
    (Config.dead e s).run vs = .dead e s := by
  induction vs with
  | nil => rfl
  | cons v vs ih => exact ih

/-- A run that is still going has survived its first pass. -/
theorem run_cons_eq_live {s t : Machine} {v : Verdicts} {vs : List Verdicts}
    (h : (Config.live s).run (v :: vs) = .live t) :
    ∃ u, mainPass (s.load v) = .ok () u ∧ (Config.live u).run vs = .live t := by
  have hcons : (Config.live s).run (v :: vs) = ((Config.live s).step v).run vs := rfl
  rw [hcons] at h
  cases hpass : mainPass (s.load v) with
  | ok _ u =>
      rw [step_of_ok hpass] at h
      exact ⟨u, rfl, h⟩
  | error e u =>
      rw [step_of_error hpass, run_dead] at h
      cases h

end Config

/-! ### The front of the receive line -/

namespace Machine

/-- The LENGTH field announced at the front of the receive line, when three headers, a
command byte and the two length bytes stand there. -/
def announced (s : Machine) : Option ℕ :=
  match values s.rx with
  | h₀ :: h₁ :: h₂ :: _ :: lenH :: lenL :: _ =>
      if h₀ = header ∧ h₁ = header ∧ h₂ = header then some (joinLength lenH lenL).toNat else none
  | _ => none

/-- The receive line starts with the image of the frame `f`. -/
def Incoming (s : Machine) (f : Frame) : Prop :=
  ∃ ps r, s.rx = ps ++ r ∧ values ps = encode f

end Machine

/-! ### Passes, phase by phase -/

/-- A pass at the head of the loop of `main`. -/
theorem mainPass_loopHead {s : Machine} (h : s.phase = .loopHead) :
    mainPass s = (do apromUpdateEnable; enter .handshake : Prog Unit) s := by
  rw [mainPass, bind_of_ok (get_apply s), h]

/-- A pass of the loop that waits for the handshake. -/
theorem mainPass_handshake {s : Machine} (h : s.phase = .handshake) :
    mainPass s = (do
      match ← establishPass with
      | .again => pure ()
      | .leave => enter .command : Prog Unit) s := by
  cases s
  cases h
  rfl

/-- A pass of the command loop. -/
theorem mainPass_command {s : Machine} (h : s.phase = .command) :
    mainPass s = (do
      match ← commandPass with
      | .again => pure ()
      | .leave => do
          apromUpdateEnable
          enter .loopHead : Prog Unit) s := by
  cases s
  cases h
  rfl

/-- The machine that has accepted the frame `f`, with `r` left to receive. -/
def Machine.accepted (s : Machine) (f : Frame) (r : List UartPoll) : Machine :=
  ((s.withRx r).holding f).log (.accept s.phase f.cmd)

/-- Accepting a frame sends nothing. -/
theorem txBytes_accepted (s : Machine) (f : Frame) (r : List UartPoll) :
    txBytes (s.accepted f r).trace = txBytes s.trace := by
  simp [Machine.accepted, Machine.log, txBytes, Machine.holding, Machine.withRx]

/-- A command pass that finds a frame at the front of the receive line handles its command
with the frame in the packet. -/
theorem commandPass_encode {s : Machine} {f : Frame} {r : List UartPoll}
    (hrx : s.rx = (encode f).map .byte ++ r) :
    commandPass s = dispatch (.ofByte f.cmd) (s.accepted f r) := by
  rw [commandPass, bind_of_ok (getPacket_encode hrx), if_neg not_successed_ne_zero, accept,
    bind_assoc, bind_of_ok (get_apply _), bind_assoc, bind_of_ok (modify_apply _ _)]
  rfl

end Num487Boot
