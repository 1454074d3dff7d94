import Num487Boot.Guard
import Num487Boot.Lib.EventLog
import Num487Boot.RequestResponse

/-!
# The Handshake as a Gate

`main` runs two loops in turn. `establish_connection` waits for `CMD_CHK_PROTOCOL` and refuses
every other command; `bl_command_process` serves commands until `CMD_PROG_END`. Nothing in
the code records that a session is open: it is where control is. Over the log of a run the
accepted handshake opens a gate and the accepted `CMD_PROG_END` closes it, and every call
into the hardware or LittleFS happens while the gate is open.

## Main results

* `dispatch_serves`: a command neither accepts another frame nor moves control.
* `establishPass_refuses`: while waiting for the handshake another frame gets one NACK.
* `handshake_gating`: the gate, over every run in which no header announces more data than the
  packet buffer holds; `overlongFrame_unanswered` is a frame that does.
-/

namespace Num487Boot

open Exec EventLog

/-! ### What one command logs -/

/-- From `s` to `t` control stayed in its loop, and no frame was accepted. -/
structure Serves (s t : Machine) : Prop where
  phase : t.phase = s.phase
  trace : ∃ es, t.trace = s.trace ++ es ∧ ∀ e ∈ es, ∀ phase cmd, e ≠ .accept phase cmd

instance : Std.Refl Serves where
  refl _ := ⟨rfl, [], by simp, by simp⟩

instance : IsTrans Machine Serves where
  trans := by
    rintro s t u ⟨hphase₁, hlog₁⟩ ⟨hphase₂, hlog₂⟩
    exact ⟨hphase₂.trans hphase₁, grown_trans hlog₁ hlog₂⟩

/-- What sends nothing only serves. -/
theorem Quiet.serves {s t : Machine} (h : Quiet s t) : Serves s t := by
  obtain ⟨es, htrace, hes⟩ := h.trace
  refine ⟨h.phase, es, htrace, ?_⟩
  rintro e he phase cmd rfl
  exact absurd (hes _ he) (by simp [Event.isCall])

/-- A reply accepts no frame. -/
theorem serves_replied (s : Machine) (f : Frame) : Serves s (s.replied f) :=
  ⟨rfl, (encode f).map .tx, rfl, by simp⟩

/-- Quiet programs serve. -/
theorem Serves.of_quiet {α : Type} {x : Prog α} (h : Moves Quiet x) : Moves Serves x :=
  h.mono fun _ _ => Quiet.serves

/-- A status reply serves. -/
theorem sendStatus_serves (status : UInt8) : Moves Serves (sendStatus status) :=
  sendStatus_moves serves_replied status

/-- A reply with a number accepts no frame. -/
theorem replyNumber_serves (number : UInt8) : Moves Serves (replyNumber number) :=
  replyNumber_moves serves_replied number

/-- The end of most handlers: the result decides between NACK and ACK. -/
theorem status_serves {c : Prop} [Decidable c] : Moves Serves (if c then sendNACK else sendACK) :=
  .ite (fun _ => sendStatus_serves nack) (fun _ => sendStatus_serves ack)

/-- The handler of `CMD_FLASH_READ` accepts no frame. -/
theorem handleFlashRead_serves : Moves Serves handleFlashRead :=
  handleFlashRead_moves (fun s buf => (quiet_store s buf).serves) (fun _ _ h => h.quiet.serves)
    serves_replied

/-- The handler of `CMD_FLASH_GET_PGSZ` accepts no frame. -/
theorem handleFlashGetPgsz_serves : Moves Serves handleFlashGetPgsz := by
  intro s
  rw [handleFlashGetPgsz_apply]
  exact serves_replied s _

/-- **One command.** It neither accepts another frame nor moves control to another loop. -/
theorem dispatch_serves (c : Command) : Moves Serves (dispatch c) := by
  have hstay {x : Prog Unit} (control : Control) (hx : Moves Serves x) :
      Moves Serves (do x; pure control : Prog Control) :=
    .bind hx fun _ => .pure control
  cases c with
  | chkProtocol => exact hstay .again (replyNumber_serves 1)
  | chkDevice => exact hstay .again (replyNumber_serves dNum487kmDevb)
  | progEnd => exact hstay .leave (sendStatus_serves ack)
  | progExtFlashBoot =>
      exact hstay .again (.bind (.of_quiet bootFromFs_quiet) fun _ => sendStatus_serves ack)
  | flashSetPgsz => exact hstay .again (.bind .get fun _ => status_serves)
  | flashGetPgsz => exact hstay .again handleFlashGetPgsz_serves
  | flashWrite =>
      exact hstay .again (.bind .get fun _ => .ite (fun _ => sendStatus_serves nack) fun _ =>
        .bind (.of_quiet (flashWriteAppPage_quiet _ _)) fun _ => status_serves)
  | flashRead => exact hstay .again handleFlashRead_serves
  | flashVerify | flashEraseSector | unsupported => exact hstay .again (sendStatus_serves nack)
  | flashEraseAll =>
      exact hstay .again (.bind (.of_quiet flashEraseAppAll_quiet) fun _ => status_serves)
  | extFlashFopen =>
      exact hstay .again (.bind (.of_quiet mountOrFormat_quiet) fun _ =>
        .bind (.of_quiet (lfsInvoke_quiet _ _ _)) fun _ =>
          .bind (.of_quiet (lfsInvoke_quiet _ _ _)) fun _ => sendStatus_serves ack)
  | extFlashFclose =>
      exact hstay .again (.bind (.of_quiet (lfsInvoke_quiet _ _ _)) fun _ =>
        .bind (.of_quiet (lfsInvoke_quiet _ _ _)) fun _ => sendStatus_serves ack)
  | extFlashWrite =>
      exact hstay .again (.bind (.of_quiet (lfsInvoke_quiet _ _ _)) fun _ => .bind .get fun _ =>
        .bind (.of_quiet (lfsInvoke_quiet _ _ _)) fun _ => sendStatus_serves ack)
  | extFlashRead | extFlashVerify | extFlashEraseSector | extFlashHexDel | eepromSetPgsz
  | eepromGetPgsz | eepromWrite | eepromRead | eepromEraseAll => exact .pure Control.again

/-! ### What one pass does -/

/-- The head of both protocol loops: one attempt to receive, and `body` on an accepted
frame. -/
def attempt (body : Prog Control) : Prog Control := do
  let r ← getPacket
  if r ≠ 0 then pure .again else body

/-- An attempt that receives a frame goes on with it. -/
theorem attempt_of_frame (body : Prog Control) {s t : Machine}
    (hget : getPacket s = .ok successed t) : attempt body s = body t := by
  rw [attempt, bind_of_ok hget, if_neg not_successed_ne_zero]

/-- A pass either hands an accepted frame to its body, or has only received. -/
theorem attempt_cases (body : Prog Control) (s : Machine) :
    (∃ t, getPacket s = .ok successed t ∧ Receives s t) ∨
      ∃ t, Receives s t ∧ (attempt body s = .ok .again t ∨ ∃ e, attempt body s = .error e t) := by
  have hmoves := receives_getPacket s
  cases hget : getPacket s with
  | error e t =>
      rw [hget] at hmoves
      exact .inr ⟨t, hmoves, .inr ⟨e, bind_of_error hget⟩⟩
  | ok r t =>
      rw [hget] at hmoves
      by_cases hr : r = successed
      · subst hr
        exact .inl ⟨t, rfl, hmoves⟩
      · refine .inr ⟨t, hmoves, .inl ?_⟩
        have hr₀ : r ≠ 0 := hr
        rw [attempt, bind_of_ok hget, if_pos hr₀]
        rfl

/-- The machine that has accepted the frame `get_packet` has left in the packet. -/
def Machine.accepting (s : Machine) : Machine := s.log (.accept s.phase s.pac.cmd)

/-- What follows an acceptance is given the command byte. -/
theorem accept_bind {β : Type} (f : UInt8 → Prog β) (s : Machine) :
    (accept >>= f) s = f s.pac.cmd s.accepting := rfl

/-- While waiting for the handshake, another accepted frame is answered with a NACK, and
nothing else happens. -/
theorem establishPass_refuses {s t : Machine} (hget : getPacket s = .ok successed t)
    (hcmd : t.pac.cmd ≠ cmdChkProtocol) :
    establishPass s = .ok .again (t.accepting.replied (.reply t.pac.cmd [nack])) := by
  rw [establishPass, ← attempt, attempt_of_frame _ hget, accept_bind, if_neg hcmd, sendNACK,
    bind_of_ok (sendStatus_apply nack _)]
  rfl

/-- `CMD_CHK_PROTOCOL` ends the handshake loop with its reply. -/
theorem establishPass_connects {s t : Machine} (hget : getPacket s = .ok successed t)
    (hcmd : t.pac.cmd = cmdChkProtocol) :
    establishPass s = .ok .leave (t.accepting.replied (.reply t.pac.cmd [successed, 1])) := by
  rw [establishPass, ← attempt, attempt_of_frame _ hget, accept_bind, if_pos hcmd,
    bind_of_ok (replyNumber_apply 1 _)]
  rfl

/-- A frame in the command loop is dispatched. -/
theorem commandPass_serves {s t : Machine} (hget : getPacket s = .ok successed t) :
    commandPass s = dispatch (.ofByte t.pac.cmd) t.accepting := by
  rw [commandPass, ← attempt, attempt_of_frame _ hget, accept_bind]

/-! ### The gate -/

/-- An accepted handshake, in either loop. -/
def Event.opensSession (e : Event) : Prop := ∃ phase, e = .accept phase cmdChkProtocol

/-- An accepted `CMD_PROG_END`, in either loop. -/
def Event.closesSession (e : Event) : Prop := ∃ phase, e = .accept phase cmdProgEnd

/-- The last handshake in the log has not been followed by a `CMD_PROG_END`. -/
def Connected : List Event → Prop := Open Event.opensSession Event.closesSession

/-- Every call in the log was made in a connected state. -/
def CallsGated : List Event → Prop :=
  Gated Event.opensSession Event.closesSession fun e => e.isCall = true

/-- Calls are gated, and while control is in the command loop the gate is open. -/
structure GateKept (s : Machine) : Prop where
  gated : CallsGated s.trace
  connected : s.phase = .command → Connected s.trace

/-- Receiving logs nothing. -/
theorem Receives.trace {s t : Machine} (h : Receives s t) : t.trace = s.trace := by
  rw [h]

/-- Receiving a packet does not leave the loop. -/
theorem Receives.phase {s t : Machine} (h : Receives s t) : t.phase = s.phase := by
  rw [h]

/-- Accepting a frame and replying to it may be logged at any time. -/
theorem CallsGated.reply {s t : Machine} (h : CallsGated s.trace) (hrec : Receives s t)
    (f : Frame) : CallsGated (t.accepting.replied f).trace := by
  have htrace : (t.accepting.replied f).trace =
      s.trace ++ (.accept t.phase t.pac.cmd :: (encode f).map .tx) := by
    rw [← hrec.trace, Machine.replied, Machine.accepting, Machine.log, List.append_assoc]
    rfl
  rw [htrace]
  exact h.append_of_unguarded (by simp [Event.isCall])

/-- What logs no acceptance does not close the session. -/
theorem not_closes_of_serves {es : List Event} (h : ∀ e ∈ es, ∀ phase cmd, e ≠ .accept phase cmd) :
    ∀ e ∈ es, ¬ e.closesSession := by
  rintro e he ⟨phase, rfl⟩
  exact h _ he phase cmdProgEnd rfl

/-- How a pass ends: like its body on an accepted frame, or it has only received. -/
theorem attempt_ends {body : Prog Control} {s : Machine} {Q : Control → Machine → Prop}
    {E : Halt → Machine → Prop}
    (hserve : ∀ t, getPacket s = .ok successed t → Receives s t → Ends Q E (attempt body s))
    (hagain : ∀ t, Receives s t → Q .again t) (hhalt : ∀ e t, Receives s t → E e t) :
    Ends Q E (attempt body s) := by
  rcases attempt_cases body s with ⟨t, hget, hrec⟩ | ⟨t, hrec, hpass | ⟨e, hpass⟩⟩
  · exact hserve t hget hrec
  · rw [hpass]
    exact hagain t hrec
  · rw [hpass]
    exact hhalt e t hrec

/-- The handshake loop makes no call, and leaves with the gate open. -/
theorem establishPass_gated {s : Machine} (h : CallsGated s.trace) :
    Ends (fun control t => CallsGated t.trace ∧ t.phase = s.phase ∧
      (control = .leave → Connected t.trace)) (fun _ t => CallsGated t.trace)
      (establishPass s) := by
  have hreceived (t : Machine) (hrec : Receives s t) : CallsGated t.trace := by rwa [hrec.trace]
  rw [establishPass, ← attempt]
  refine attempt_ends (fun t hget hrec => ?_)
    (fun t hrec => ⟨hreceived t hrec, hrec.phase, fun hleave => by cases hleave⟩)
    fun _ t hrec => hreceived t hrec
  rw [attempt, ← establishPass]
  by_cases hcmd : t.pac.cmd = cmdChkProtocol
  · rw [establishPass_connects hget hcmd]
    refine ⟨h.reply hrec _, hrec.phase, fun _ => Open.append (.of_event ⟨t.phase, ?_⟩) ?_⟩
    · rw [hcmd]
    · exact not_closes_of_serves (by simp)
  · rw [establishPass_refuses hget hcmd]
    exact ⟨h.reply hrec _, hrec.phase, fun hleave => by cases hleave⟩

/-- The command loop keeps the gate open until it leaves. -/
theorem commandPass_gated {s : Machine} (h : CallsGated s.trace) (hopen : Connected s.trace) :
    Ends (fun control t => CallsGated t.trace ∧ t.phase = s.phase ∧
      (control = .again → Connected t.trace)) (fun _ t => CallsGated t.trace)
      (commandPass s) := by
  have hreceived (t : Machine) (hrec : Receives s t) :
      CallsGated t.trace ∧ Connected t.trace := by
    rw [hrec.trace]
    exact ⟨h, hopen⟩
  rw [commandPass, ← attempt]
  refine attempt_ends (fun t hget hrec => ?_)
    (fun t hrec => ⟨(hreceived t hrec).1, hrec.phase, fun _ => (hreceived t hrec).2⟩)
    fun _ t hrec => (hreceived t hrec).1
  rw [attempt, ← commandPass, commandPass_serves hget]
  by_cases hcmd : t.pac.cmd = cmdProgEnd
  · -- the acknowledgement of `CMD_PROG_END` makes no call
    have hend : dispatch (.ofByte cmdProgEnd) t.accepting =
        .ok .leave (t.accepting.replied (.reply t.pac.cmd [ack])) :=
      bind_of_ok (sendStatus_apply ack _)
    rw [hcmd, hend]
    exact ⟨h.reply hrec _, hrec.phase, fun hagain => by cases hagain⟩
  · have haccept : ∀ e ∈ [Event.accept t.phase t.pac.cmd], ¬ e.closesSession := by
      rintro e he ⟨phase, rfl⟩
      exact hcmd (Event.accept.inj (List.mem_singleton.mp he)).2.symm
    have hserves (u : Machine) (hu : Serves t.accepting u) :
        CallsGated u.trace ∧ u.phase = s.phase ∧ Connected u.trace := by
      obtain ⟨hphase, es, htrace, hes⟩ := hu
      rw [htrace, Machine.accepting, Machine.log, hrec.trace]
      have hmid := hopen.append haccept
      exact ⟨(h.append_of_open hopen haccept).append_of_open hmid (not_closes_of_serves hes),
        hphase.trans hrec.phase, hmid.append (not_closes_of_serves hes)⟩
    refine (dispatch_serves _).ends (fun _ u hu => ?_) fun _ u hu => (hserves u hu).1
    obtain ⟨hgated, hphase, hconnected⟩ := hserves u hu
    exact ⟨hgated, hphase, fun _ => hconnected⟩

/-- **One pass** keeps the gate. -/
theorem mainPass_gateKept {s : Machine} (h : GateKept s) :
    Ends (fun _ => GateKept) (fun _ t => CallsGated t.trace) (mainPass s) := by
  cases hphase : s.phase with
  | loopHead =>
      rw [mainPass_loopHead hphase]
      exact ⟨h.gated, fun hcommand => by cases hcommand⟩
  | handshake =>
      rw [mainPass_handshake hphase]
      refine (establishPass_gated h.gated).bind fun control t ⟨hgated, hphase', hleave⟩ => ?_
      cases control with
      | again =>
          refine ⟨hgated, fun hcommand => ?_⟩
          rw [hphase', hphase] at hcommand
          cases hcommand
      | leave => exact ⟨hgated, fun _ => hleave rfl⟩
  | command =>
      rw [mainPass_command hphase]
      refine (commandPass_gated h.gated (h.connected hphase)).bind
        fun control t ⟨hgated, hphase', hagain⟩ => ?_
      cases control with
      | again => exact ⟨hgated, fun _ => hagain rfl⟩
      | leave => exact ⟨hgated, fun hcommand => by cases hcommand⟩

/-! ### Every run -/

/-- The gate over a configuration, running or halted. -/
def Config.GateKept : Config → Prop
  | .live s => Num487Boot.GateKept s
  | .dead _ s => CallsGated s.trace

/-- One step. -/
theorem Config.gateKept_step (c : Config) (v : Verdicts) (h : c.GateKept) :
    (c.step v).GateKept := by
  cases c with
  | live s =>
      have hpass := mainPass_gateKept (s := s.load v) ⟨h.gated, h.connected⟩
      rw [Config.step]
      cases hrun : mainPass (s.load v) with
      | ok _ t =>
          rw [hrun] at hpass
          exact hpass
      | error e t =>
          rw [hrun] at hpass
          exact hpass
  | dead e s => exact h

/-- Every run from reset. -/
theorem Config.gateKept_reached (rx : List UartPoll) (disk : Disk) (flash : Flash)
    (vs : List Verdicts) (prints : ℕ → LfsCall → List MessageChar) :
    (Config.reached rx disk flash vs prints).GateKept :=
  Runs.run_invariant Config.GateKept Config.gateKept_step vs
    ⟨Gated.nil, fun hcommand => by cases hcommand⟩

/-- The step condition: no frame at the front of the receive line announces more data than the
packet buffer holds. -/
def Config.FrontFits : Config → Verdicts → Prop
  | .live s, _ => ∀ n ∈ s.announced, n ≤ bufferSize
  | .dead _ _, _ => True

/-- The condition, checked on the machine of a configuration. -/
theorem Config.frontFits_of_machine {c : Config} {v : Verdicts}
    (h : ∀ n ∈ c.machine.announced, n ≤ bufferSize) : c.FrontFits v := by
  cases c with
  | live s => exact h
  | dead e s => trivial

/-- Waiting for the handshake with such a front, the bootloader halts only when the receive line
has run dry. -/
theorem mainPass_handshake_halts {s t : Machine} {e : Halt} (hphase : s.phase = .handshake)
    (hfits : ∀ n ∈ s.announced, n ≤ bufferSize) (h : mainPass s = .error e t) : e = .starved := by
  have hends : Ends (fun _ _ => True) (fun e _ => e = .starved) (mainPass s) := by
    rw [mainPass_handshake hphase]
    refine Ends.bind (Q := fun _ _ => True) ?_ fun control _ _ => by cases control <;> trivial
    rw [establishPass]
    refine (getPacket_ends hfits).bind fun r t _ => ?_
    split
    · trivial
    · rw [accept_bind]
      split
      · rw [bind_of_ok (replyNumber_apply 1 _)]
        trivial
      · rw [sendNACK, bind_of_ok (sendStatus_apply nack _)]
        trivial
  rw [h] at hends
  exact hends

/-- **Handshake gating.** For everything that can be received with no header announcing more
data than `bl_buffer` holds, and every outcome of the calls: each ISP command and each LittleFS
call in the log of a run comes after an accepted `CMD_CHK_PROTOCOL` with no accepted
`CMD_PROG_END` in between. And in every pass in which the bootloader waits for the handshake, it
goes on unless the receive line has run dry; if it accepts any other frame it logs it, sends one
NACK, and leaves everything but the receive line and the packet as it was. -/
theorem handshake_gating (rx : List UartPoll) (disk : Disk) (flash : Flash)
    (vs : List Verdicts) (prints : ℕ → LfsCall → List MessageChar)
    (h : Runs.Guarded Config.step Config.FrontFits (.live (.reset rx disk flash prints)) vs) :
    (∀ pre e post, (Config.reached rx disk flash vs prints).machine.trace = pre ++ e :: post →
      e.isCall = true → ∃ before phase between,
        pre = before ++ .accept phase cmdChkProtocol :: between ∧
          ∀ phase', .accept phase' cmdProgEnd ∉ between) ∧
    ∀ us v ws s, vs = us ++ v :: ws → Config.reached rx disk flash us prints = .live s →
      s.phase = .handshake →
        (∀ e t, (Config.live s).step v = .dead e t → e = .starved) ∧
        ∀ t, getPacket (s.load v) = .ok successed t → t.pac.cmd ≠ cmdChkProtocol →
          ∃ u, (Config.live s).step v = .live u ∧
            u = { s.load v with
              rx := t.rx
              pac := u.pac
              blBuffer := u.blBuffer
              trace := s.trace ++ .accept .handshake t.pac.cmd ::
                (encode (.reply t.pac.cmd [nack])).map .tx } := by
  constructor
  · intro pre e post htrace he
    have hgated : CallsGated (Config.reached rx disk flash vs prints).machine.trace := by
      have hkept := Config.gateKept_reached rx disk flash vs prints
      cases hc : Config.reached rx disk flash vs prints with
      | live s => rw [hc] at hkept; exact hkept.gated
      | dead e s => rw [hc] at hkept; exact hkept
    obtain ⟨before, f, between, hpre, ⟨phase, rfl⟩, hbetween⟩ := hgated pre e post htrace he
    exact ⟨before, phase, between, hpre, fun phase' hmem => hbetween _ hmem ⟨phase', rfl⟩⟩
  · intro us v ws s hvs hs hphase
    have hfits : ∀ n ∈ s.announced, n ≤ bufferSize := by
      have hfront : (Config.reached rx disk flash us prints).FrontFits v := h.at_step hvs
      rw [hs] at hfront
      exact hfront
    refine ⟨fun e t hstep => ?_, fun t hget hcmd => ?_⟩
    · refine mainPass_handshake_halts (s := s.load v) (t := t) hphase hfits ?_
      rw [Config.step] at hstep
      cases hrun : mainPass (s.load v) with
      | ok _ u => rw [hrun] at hstep; cases hstep
      | error d u => rw [hrun] at hstep; cases hstep; rfl
    · have hrec : Receives (s.load v) t := receives_getPacket.of_ok hget
      have hpass : mainPass (s.load v) =
          .ok () (t.accepting.replied (.reply t.pac.cmd [nack])) := by
        rw [mainPass_handshake (s := s.load v) hphase,
          bind_of_ok (establishPass_refuses hget hcmd)]
        rfl
      refine ⟨_, Config.step_of_ok hpass, ?_⟩
      have hphase' : t.phase = .handshake := hrec.phase.trans hphase
      rw [Machine.replied, Machine.accepting, Machine.log, hphase', hrec]
      simp [Machine.holding, Machine.load, hphase]

/-- The bootloader at the first pass of the handshake, about to receive `CMD_CHK_DEVICE`. -/
def beforeHandshake : Config := .reached (received [cmdChkDevice]) .unformatted .blank [.allWell]

/-- `CMD_CHK_DEVICE` before the handshake is refused: one NACK, and the flash as it was. -/
theorem handshake_gating_chkDevice :
    ∃ u, beforeHandshake.step .allWell = .live u ∧ u.phase = .handshake ∧
      u.flash = beforeHandshake.machine.flash ∧
      u.trace = beforeHandshake.machine.trace ++ .accept .handshake cmdChkDevice ::
        (encode (.reply cmdChkDevice [nack])).map .tx := by
  have hlive : beforeHandshake = .live beforeHandshake.machine :=
    Config.eq_live (by decide +kernel)
  have hguard : Runs.Guarded Config.step Config.FrontFits
      (.live (.reset (received [cmdChkDevice]) .unformatted .blank fun _ _ => []))
      [.allWell, .allWell] := by
    generalize hc : Config.live (.reset (received [cmdChkDevice]) .unformatted .blank
      fun _ _ => []) = c
    refine .cons (Config.frontFits_of_machine ?_) <| .cons (Config.frontFits_of_machine ?_) .nil
    all_goals subst hc; decide +kernel
  let s := beforeHandshake.machine.load .allWell
  have hphase : beforeHandshake.machine.phase = .handshake := by decide +kernel
  have hget : getPacket s = .ok successed (after (getPacket s)) := eq_ok_after (by decide +kernel)
  have hcmd : (after (getPacket s)).pac.cmd = cmdChkDevice := by decide +kernel
  obtain ⟨u, hstep, hu⟩ := ((handshake_gating (received [cmdChkDevice]) .unformatted .blank
    [.allWell, .allWell] (fun _ _ => []) hguard).2 [.allWell] .allWell [] _ rfl hlive
      hphase).2 _ hget (by rw [hcmd]; decide)
  rw [hlive]
  refine ⟨u, hstep, ?_, ?_, ?_⟩
  · rw [hu]
    exact hphase
  · rw [hu]
    rfl
  · rw [hu, ← hcmd]
    rfl

/-- A frame for `CMD_CHK_DEVICE` that announces and carries 517 bytes, with its checksum. -/
def overlongFrame : List UartPoll :=
  ([header, header, header, cmdChkDevice, 2, 5] ++ List.replicate 517 0 ++ [0]).map .byte

/-- While the bootloader waits for the handshake the bytes of `overlongFrame` are stored up to
index 516, outside the buffer, and no NACK is sent. -/
theorem overlongFrame_unanswered :
    (Config.reached overlongFrame .unformatted .blank [.allWell]).machine.phase = .handshake ∧
      let c := Config.reached overlongFrame .unformatted .blank [.allWell, .allWell]
      c.halted = some (.overrun 516) ∧ txBytes c.machine.trace = [] := by
  decide +kernel

end Num487Boot
