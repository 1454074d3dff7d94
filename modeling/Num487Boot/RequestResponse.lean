import Num487Boot.Footprint

/-!
# Requests and Replies

The host sends a request and waits for its reply. `Answers D s t` says that between `s` and
`t` some calls were made and then exactly one frame was sent, under the command byte of the
packet `s` holds and with data satisfying `D`, and nothing was received.

The host reads the line, and on the line are the messages of LittleFS as well. `Served` is the
log of a session request by request; `lineBytes` is what it puts on the line.

## Main results

* `dispatch_answers`: every command outside `Command.silent` is answered once.
* `oneReplyEach_iff`: over whole sessions, each request gets exactly one reply in order and the
  line carries nothing else if and only if no request is one of the silent commands and
  LittleFS prints nothing.
* `statusHonest_iff`: the status byte of a reply tells whether the command was accomplished if
  and only if the handler looks at its results, or it was.
-/

namespace Num487Boot

open Exec Memory

/-! ### One reply -/

/-- From `s` to `t` calls were made and one frame was sent, under the command of the current
packet and with data satisfying `D`; nothing was received. -/
def Answers (D : List UInt8 → Prop) (s t : Machine) : Prop :=
  ∃ (f : Frame) (es : List Event), f.cmd = s.pac.cmd ∧ D f.data ∧ t.rx = s.rx ∧
    t.phase = s.phase ∧ (∀ e ∈ es, e.isCall = true) ∧
      t.trace = s.trace ++ es ++ (encode f).map .tx

/-- Every return of `x` has answered. -/
def Answering {α : Type} (D : List UInt8 → Prop) (x : Prog α) : Prop :=
  ∀ s a t, x s = .ok a t → Answers D s t

section Answering

variable {α β : Type} {D D' : List UInt8 → Prop}

/-- A quiet step sends nothing. -/
theorem Quiet.txBytes {s t : Machine} (h : Quiet s t) : txBytes t.trace = txBytes s.trace := by
  obtain ⟨es, htrace, hes⟩ := h.trace
  rw [htrace, txBytes_append, txBytes_of_isCall hes, List.append_nil]

/-- Work before the reply does not disturb it. -/
theorem Answering.after_quiet {x : Prog α} {f : α → Prog β} (hx : Moves Quiet x)
    (hf : ∀ a, Answering D (f a)) : Answering D (x >>= f) := by
  intro s b u h
  obtain ⟨a, t, hxs, hfa⟩ := bind_eq_ok.mp h
  have hquiet := hx.of_ok hxs
  obtain ⟨frame, es, hcmd, hdata, hrx, hphase, hes, htrace⟩ := hf a t b u hfa
  obtain ⟨es₀, htrace₀, hes₀⟩ := hquiet.trace
  refine ⟨frame, es₀ ++ es, by rw [hcmd, hquiet.pac], hdata, hrx.trans hquiet.rx,
    hphase.trans hquiet.phase, List.forall_mem_append.mpr ⟨hes₀, hes⟩, ?_⟩
  rw [htrace, htrace₀]
  simp only [List.append_assoc]

/-- The result of an answering program may be replaced. -/
theorem Answering.before_pure {x : Prog α} (hx : Answering D x) (b : β) :
    Answering D (do let _ ← x; pure b) := by
  intro s c u h
  obtain ⟨a, t, hxs, hpure⟩ := bind_eq_ok.mp h
  cases hpure
  exact hx s a _ hxs

/-- Both branches answer. -/
theorem Answering.ite {c : Prop} [Decidable c] {x y : Prog α} (hx : Answering D x)
    (hy : Answering D y) : Answering D (if c then x else y) := by
  split
  · exact hx
  · exact hy

/-- A weaker condition on the data. -/
theorem Answering.mono {x : Prog α} (hx : Answering D x) (h : ∀ data, D data → D' data) :
    Answering D' x := by
  intro s a t hrun
  obtain ⟨f, es, hcmd, hdata, hrest⟩ := hx s a t hrun
  exact ⟨f, es, hcmd, h _ hdata, hrest⟩

/-- A program that always sends one frame answers. -/
theorem Answering.of_replied {x : Prog α} (h : ∀ s, ∃ a f, f.cmd = s.pac.cmd ∧ D f.data ∧
    x s = .ok a (s.replied f)) : Answering D x := by
  intro s a t hrun
  obtain ⟨b, f, hcmd, hdata, hreply⟩ := h s
  rw [hreply] at hrun
  cases hrun
  exact ⟨f, [], hcmd, hdata, rfl, rfl, by simp, by rw [List.append_nil]; rfl⟩

end Answering

/-- A status reply is an answer. -/
theorem sendStatus_answers (status : UInt8) : Answering (· = [status]) (sendStatus status) :=
  .of_replied fun s => ⟨(), _, rfl, rfl, sendStatus_apply status s⟩

/-- A number is an answer. -/
theorem replyNumber_answers (number : UInt8) :
    Answering (· = [successed, number]) (replyNumber number) :=
  .of_replied fun s => ⟨(), _, rfl, rfl, replyNumber_apply number s⟩

/-! ### The handlers -/

/-- `CMD_FLASH_READ` is answered with the page or a NACK. -/
theorem handleFlashRead_answers : Answering (fun _ => True) handleFlashRead :=
  .after_quiet .get fun _ => .after_quiet (readWords_quiet _ _ _ _) fun _ =>
    .ite ((sendStatus_answers nack).mono fun _ _ => trivial)
      (.of_replied fun s => ⟨(), _, rfl, trivial, sendPage_apply s⟩)

/-- `CMD_FLASH_WRITE` is answered. -/
theorem handleFlashWrite_answers : Answering (fun _ => True) handleFlashWrite :=
  .after_quiet .get fun _ => .ite ((sendStatus_answers nack).mono fun _ _ => trivial)
    (.after_quiet (flashWriteAppPage_quiet _ _) fun _ =>
      .ite ((sendStatus_answers nack).mono fun _ _ => trivial)
        ((sendStatus_answers ack).mono fun _ _ => trivial))

/-- `CMD_FLASH_SET_PGSZ` is answered. -/
theorem handleFlashSetPgsz_answers : Answering (fun _ => True) handleFlashSetPgsz :=
  .after_quiet .get fun _ => .ite ((sendStatus_answers nack).mono fun _ _ => trivial)
    ((sendStatus_answers ack).mono fun _ _ => trivial)

/-- `CMD_FLASH_ERASE_ALL` is answered. -/
theorem handleFlashEraseAll_answers : Answering (fun _ => True) handleFlashEraseAll :=
  .after_quiet flashEraseAppAll_quiet fun _ =>
    .ite ((sendStatus_answers nack).mono fun _ _ => trivial)
      ((sendStatus_answers ack).mono fun _ _ => trivial)

/-- The four file-system commands look at no result: they always acknowledge. -/
theorem handleExtFlashFopen_answers : Answering (· = [ack]) handleExtFlashFopen :=
  .after_quiet mountOrFormat_quiet fun _ => .after_quiet (lfsInvoke_quiet _ _ _) fun _ =>
    .after_quiet (lfsInvoke_quiet _ _ _) fun _ => sendStatus_answers ack

/-- `CMD_EXT_FLASH_FCLOSE` is acknowledged. -/
theorem handleExtFlashFclose_answers : Answering (· = [ack]) handleExtFlashFclose :=
  .after_quiet (lfsInvoke_quiet _ _ _) fun _ => .after_quiet (lfsInvoke_quiet _ _ _) fun _ =>
    sendStatus_answers ack

/-- `CMD_EXT_FLASH_WRITE` is acknowledged. -/
theorem handleExtFlashWrite_answers : Answering (· = [ack]) handleExtFlashWrite :=
  .after_quiet (lfsInvoke_quiet _ _ _) fun _ => .after_quiet .get fun _ =>
    .after_quiet (lfsInvoke_quiet _ _ _) fun _ => sendStatus_answers ack

/-- `CMD_PROG_EXT_FLASH_BOOT` is acknowledged before the boot is tried. -/
theorem handleProgExtFlashBoot_answers : Answering (· = [ack]) handleProgExtFlashBoot :=
  .after_quiet bootFromFs_quiet fun _ => sendStatus_answers ack

/-! ### The switch -/

/-- The commands whose `case` is a bare `break`. -/
def Command.silent : Command → Bool
  | .extFlashRead | .extFlashVerify | .extFlashEraseSector | .extFlashHexDel
  | .eepromSetPgsz | .eepromGetPgsz | .eepromWrite | .eepromRead | .eepromEraseAll => true
  | .chkProtocol | .chkDevice | .progEnd | .progExtFlashBoot | .flashSetPgsz | .flashGetPgsz
  | .flashWrite | .flashRead | .flashVerify | .flashEraseSector | .flashEraseAll
  | .extFlashFopen | .extFlashFclose | .extFlashWrite | .unsupported => false

/-- A silent command does nothing. -/
theorem dispatch_silent {c : Command} (h : c.silent = true) (s : Machine) :
    dispatch c s = .ok .again s := by
  cases c <;> first | rfl | cases h

/-- **One command.** Every command that is not silent is answered exactly once. -/
theorem dispatch_answers {c : Command} (h : c.silent = false) :
    Answering (fun _ => True) (dispatch c) := by
  have hany {x : Prog Unit} {D : List UInt8 → Prop} (hx : Answering D x) (k : Control) :
      Answering (fun _ => True) (do x; pure k : Prog Control) :=
    (hx.before_pure k).mono fun _ _ => trivial
  cases c with
  | chkProtocol => exact hany (replyNumber_answers 1) .again
  | chkDevice => exact hany (replyNumber_answers dNum487kmDevb) .again
  | progEnd => exact hany (sendStatus_answers ack) .leave
  | progExtFlashBoot => exact hany handleProgExtFlashBoot_answers .again
  | flashSetPgsz => exact hany handleFlashSetPgsz_answers .again
  | flashGetPgsz =>
      have hget : Answering (fun _ => True) handleFlashGetPgsz :=
        .of_replied fun s => ⟨(), _, rfl, trivial, handleFlashGetPgsz_apply s⟩
      exact hany hget .again
  | flashWrite => exact hany handleFlashWrite_answers .again
  | flashRead => exact hany handleFlashRead_answers .again
  | flashVerify | flashEraseSector | unsupported => exact hany (sendStatus_answers nack) .again
  | flashEraseAll => exact hany handleFlashEraseAll_answers .again
  | extFlashFopen => exact hany handleExtFlashFopen_answers .again
  | extFlashFclose => exact hany handleExtFlashFclose_answers .again
  | extFlashWrite => exact hany handleExtFlashWrite_answers .again
  | extFlashRead | extFlashVerify | extFlashEraseSector | extFlashHexDel | eepromSetPgsz
  | eepromGetPgsz | eepromWrite | eepromRead | eepromEraseAll => cases h

/-- Only `CMD_PROG_END` leaves the command loop. -/
theorem dispatch_control {c : Command} {s t : Machine} {k : Control}
    (h : dispatch c s = .ok k t) : k = .leave ↔ c = .progEnd := by
  cases c <;>
    first
    | (obtain ⟨_, _, _, hpure⟩ := bind_eq_ok.mp h; cases hpure; simp)
    | (cases h; simp)

/-! ### The protocol line -/

/-- What was printed in a call. -/
def Event.printed : Event → List MessageChar
  | .lfs _ _ _ printed => printed
  | .accept _ _ | .tx _ | .isp _ _ => []

/-- What an event puts on the protocol line: a byte of a reply, or what LittleFS prints. -/
def Event.lineBytes : Event → List UInt8
  | .tx b => [b]
  | e => e.printed.map (·.1)

/-- What a log puts on the protocol line, replies and messages in their order. -/
def lineBytes (trace : List Event) : List UInt8 := trace.flatMap Event.lineBytes

/-- The line of two logs in a row. -/
@[simp] theorem lineBytes_append (t u : List Event) :
    lineBytes (t ++ u) = lineBytes t ++ lineBytes u :=
  List.flatMap_append

/-- A log of sent bytes. -/
@[simp] theorem lineBytes_map_tx (bytes : List UInt8) : lineBytes (bytes.map .tx) = bytes := by
  induction bytes with
  | nil => rfl
  | cons b bytes ih => exact congrArg (b :: ·) ih

/-- Calls put their messages on the line. -/
theorem lineBytes_of_isCall {es : List Event} (h : ∀ e ∈ es, e.isCall = true) :
    lineBytes es = (es.flatMap Event.printed).map (·.1) := by
  rw [lineBytes, List.map_flatMap]
  refine List.flatMap_congr fun e he => ?_
  cases e with
  | tx b => exact absurd (h _ he) (by simp [Event.isCall])
  | accept _ _ => rfl
  | isp _ _ => rfl
  | lfs _ _ _ _ => rfl

/-! ### Sessions -/

/-- The bytes are one well-formed reply for each request, in order and under its command. -/
def OneReplyEach (requests : List Frame) (bytes : List UInt8) : Prop :=
  ∃ replies : List Frame, replies.map (·.cmd) = requests.map (·.cmd) ∧
    bytes = replies.flatMap encode

/-- The requests that are not silent commands. -/
def answered (requests : List Frame) : List Frame :=
  requests.filter fun f => !(Command.ofByte f.cmd).silent

/-- The log of a session. Each request is accepted, makes its calls, and is then answered
unless it is a silent command. -/
inductive Served : List Frame → List Event → Prop
  | nil : Served [] []
  | cons {f : Frame} {fs : List Frame} {phase : Phase} {calls es : List Event}
      {replies : List Frame} (hcalls : ∀ e ∈ calls, e.isCall = true)
      (hcmds : replies.map (·.cmd) = (answered [f]).map (·.cmd)) (hrest : Served fs es) :
      Served (f :: fs)
        (.accept phase f.cmd :: calls ++ (replies.flatMap encode).map .tx ++ es)

section Served

variable {fs : List Frame} {es : List Event}

/-- The commands to be answered: that of the first request, if any, and those of the others. -/
theorem map_cmd_answered_cons (f : Frame) (fs : List Frame) :
    (answered (f :: fs)).map (·.cmd) = (answered [f]).map (·.cmd) ++ (answered fs).map (·.cmd) := by
  rw [answered, answered, answered, ← List.map_append, ← List.filter_append, List.singleton_append]

/-- What the calls, the replies and the rest of a session put on the line. -/
theorem lineBytes_cons {phase : Phase} {cmd : UInt8} {calls : List Event}
    (hcalls : ∀ e ∈ calls, e.isCall = true) (replies : List Frame) (es : List Event) :
    lineBytes (.accept phase cmd :: calls ++ (replies.flatMap encode).map .tx ++ es) =
      (calls.flatMap Event.printed).map (·.1) ++ (replies.flatMap encode ++ lineBytes es) := by
  rw [lineBytes_append, lineBytes_append, lineBytes_map_tx, ← lineBytes_of_isCall hcalls,
    List.append_assoc]
  rfl

/-- Where LittleFS prints nothing the line carries the replies. -/
theorem Served.replies (h : Served fs es) (hprinted : ∀ e ∈ es, e.printed = []) :
    ∃ replies : List Frame, replies.map (·.cmd) = (answered fs).map (·.cmd) ∧
      lineBytes es = replies.flatMap encode := by
  induction h with
  | nil => exact ⟨[], rfl, rfl⟩
  | @cons f fs phase calls es replies hcalls hcmds _ ih =>
      obtain ⟨replies', hcmds', hline⟩ := ih fun e he => hprinted e (List.mem_append_right _ he)
      refine ⟨replies ++ replies', ?_, ?_⟩
      · rw [List.map_append, hcmds, hcmds', ← map_cmd_answered_cons]
      · have hquiet : calls.flatMap Event.printed = [] :=
          List.flatMap_eq_nil_iff.mpr fun e he => hprinted e (by simp [he])
        rw [lineBytes_cons hcalls, hquiet, hline, List.flatMap_append]
        rfl

/-- A message is not the beginning of a frame: it is ASCII, and the header is not. -/
theorem message_eq_nil {message : List MessageChar} {bytes : List UInt8} {replies : List Frame}
    (h : message.map (·.1) ++ bytes = replies.flatMap encode) : message = [] := by
  cases message with
  | nil => rfl
  | cons c message =>
      cases replies with
      | nil => cases h
      | cons g replies =>
          have hheader : c.1 = header := (List.cons.inj h).1
          have hascii := c.2
          rw [hheader] at hascii
          exact absurd hascii (by decide)

/-- Frames at the front of a concatenation of frames are its first ones. -/
theorem flatMap_encode_append {sent replies : List Frame} {bytes : List UInt8}
    (h : sent.flatMap encode ++ bytes = replies.flatMap encode) :
    ∃ rest, replies = sent ++ rest ∧ bytes = rest.flatMap encode := by
  induction sent generalizing replies with
  | nil => exact ⟨replies, rfl, h⟩
  | cons g sent ih =>
      cases replies with
      | nil => simp [encode] at h
      | cons r replies =>
          rw [List.flatMap_cons, List.flatMap_cons, List.append_assoc] at h
          obtain ⟨rfl, hrest⟩ := encode_append_inj h
          obtain ⟨rest, rfl, hbytes⟩ := ih hrest
          exact ⟨rest, rfl, hbytes⟩

/-- Where the line carries nothing but replies, LittleFS has printed nothing, and the replies
are those to the requests that are answered. -/
theorem Served.of_lineBytes (h : Served fs es) {replies : List Frame}
    (hline : lineBytes es = replies.flatMap encode) :
    (∀ e ∈ es, e.printed = []) ∧ replies.map (·.cmd) = (answered fs).map (·.cmd) := by
  induction h generalizing replies with
  | nil =>
      obtain rfl : replies = [] := flatMap_encode_injective hline.symm
      exact ⟨by simp, rfl⟩
  | @cons f fs phase calls es sent hcalls hcmds _ ih =>
      rw [lineBytes_cons hcalls] at hline
      have hquiet := message_eq_nil hline
      rw [hquiet, List.map_nil, List.nil_append] at hline
      obtain ⟨rest, rfl, hrest⟩ := flatMap_encode_append hline
      obtain ⟨hprinted, hcmds'⟩ := ih hrest
      refine ⟨?_, by rw [List.map_append, hcmds, hcmds', ← map_cmd_answered_cons]⟩
      have hreplies : ∀ e ∈ (sent.flatMap encode).map Event.tx, e.printed = [] := by
        intro e he
        obtain ⟨b, -, rfl⟩ := List.mem_map.mp he
        rfl
      rw [List.cons_append, List.cons_append, List.forall_mem_cons, List.forall_mem_append,
        List.forall_mem_append]
      exact ⟨rfl, ⟨List.flatMap_eq_nil_iff.mp hquiet, hreplies⟩, hprinted⟩

end Served

/-- One pass over a request: it is consumed exactly, and answered unless it is silent. -/
theorem mainPass_request {s u : Machine} {f : Frame} {r : List UartPoll}
    (hphase : s.phase = .command) (hrx : s.rx = (encode f).map .byte ++ r)
    (h : mainPass s = .ok () u) :
    u.rx = r ∧ (Command.ofByte f.cmd ≠ .progEnd → u.phase = .command) ∧
      ∃ (calls : List Event) (replies : List Frame), (∀ e ∈ calls, e.isCall = true) ∧
        replies.map (·.cmd) = (answered [f]).map (·.cmd) ∧
          u.trace = s.trace ++
            (.accept s.phase f.cmd :: calls ++ (replies.flatMap encode).map .tx) := by
  rw [mainPass_command hphase] at h
  obtain ⟨k, t, hpass, hcontrol⟩ := bind_eq_ok.mp h
  rw [commandPass_encode hrx] at hpass
  have ht : t.rx = r ∧ t.phase = .command ∧
      ∃ (calls : List Event) (replies : List Frame), (∀ e ∈ calls, e.isCall = true) ∧
        replies.map (·.cmd) = (answered [f]).map (·.cmd) ∧
          t.trace = s.trace ++
            (.accept s.phase f.cmd :: calls ++ (replies.flatMap encode).map .tx) := by
    cases hsilent : (Command.ofByte f.cmd).silent with
    | true =>
        rw [dispatch_silent hsilent] at hpass
        cases hpass
        exact ⟨rfl, hphase, [], [], by simp, by simp [answered, hsilent], rfl⟩
    | false =>
        obtain ⟨reply, calls, hcmd, -, hrx', hphase', hcalls, htrace⟩ :=
          dispatch_answers hsilent _ _ _ hpass
        refine ⟨hrx', hphase'.trans hphase, calls, [reply], hcalls, ?_, ?_⟩
        · rw [answered, List.filter_cons_of_pos (by simp [hsilent]), List.filter_nil]
          exact congrArg (fun cmd => [cmd]) hcmd
        · rw [htrace, List.flatMap_singleton, Machine.accepted, Machine.log]
          simp [Machine.holding, Machine.withRx]
  cases k with
  | again =>
      cases hcontrol
      exact ⟨ht.1, fun _ => ht.2.1, ht.2.2⟩
  | leave =>
      cases hcontrol
      exact ⟨ht.1, fun hne => absurd ((dispatch_control hpass).mp rfl) hne, ht.2.2⟩

/-- A session is served request by request. -/
theorem run_requests (fs : List Frame) {s t : Machine} {vs : List Verdicts} {r : List UartPoll}
    (hphase : s.phase = .command) (hrx : s.rx = (fs.flatMap encode).map .byte ++ r)
    (hend : ∀ f ∈ fs.dropLast, Command.ofByte f.cmd ≠ .progEnd) (hlen : vs.length = fs.length)
    (hrun : (Config.live s).run vs = .live t) :
    ∃ es, t.trace = s.trace ++ es ∧ Served fs es := by
  induction fs generalizing s vs with
  | nil =>
      obtain rfl := List.eq_nil_of_length_eq_zero hlen
      cases hrun
      exact ⟨[], (List.append_nil _).symm, .nil⟩
  | cons f fs ih =>
      obtain ⟨v, vs, rfl⟩ : ∃ v vs', vs = v :: vs' := by
        cases vs with
        | nil => cases hlen
        | cons v vs' => exact ⟨v, vs', rfl⟩
      obtain ⟨u, hpass, hrest⟩ := Config.run_cons_eq_live hrun
      rw [List.flatMap_cons, List.map_append, List.append_assoc] at hrx
      obtain ⟨hrx', hphase', calls, replies, hcalls, hcmds, htrace⟩ :=
        mainPass_request (s := s.load v) hphase hrx hpass
      cases fs with
      | nil =>
          obtain rfl : vs = [] := List.eq_nil_of_length_eq_zero (by simpa using hlen)
          cases hrest
          refine ⟨_, htrace, ?_⟩
          have hlast : Served [f]
              (.accept s.phase f.cmd :: calls ++ (replies.flatMap encode).map .tx ++ []) :=
            .cons hcalls hcmds .nil
          rwa [List.append_nil] at hlast
      | cons g gs =>
          rw [List.dropLast_cons_cons, List.forall_mem_cons] at hend
          obtain ⟨es, hes, hserved⟩ :=
            ih (hphase' hend.1) hrx' hend.2 (by simpa using hlen) hrest
          refine ⟨.accept s.phase f.cmd :: calls ++ (replies.flatMap encode).map .tx ++ es, ?_,
            .cons hcalls hcmds hserved⟩
          rw [hes, htrace, List.append_assoc]
          rfl

/-- What was logged between `s` and `t`. -/
def newEvents (s t : Machine) : List Event := t.trace.drop s.trace.length

/-- **One reply per request.** For every session of well-formed frames in the command loop,
with `CMD_PROG_END` only as the last, and every outcome of the calls in which they return:
the emitted bytes are exactly one reply for each request, in order, if and only if no
request is one of the silent commands and LittleFS prints nothing in its calls. -/
theorem oneReplyEach_iff (fs : List Frame) (s t : Machine) (vs : List Verdicts)
    (r : List UartPoll) (hphase : s.phase = .command)
    (hrx : s.rx = (fs.flatMap encode).map .byte ++ r)
    (hend : ∀ f ∈ fs.dropLast, Command.ofByte f.cmd ≠ .progEnd) (hlen : vs.length = fs.length)
    (hrun : (Config.live s).run vs = .live t) :
    OneReplyEach fs (lineBytes (newEvents s t)) ↔
      (∀ f ∈ fs, (Command.ofByte f.cmd).silent = false) ∧
        ∀ e ∈ newEvents s t, e.printed = [] := by
  obtain ⟨es, htrace, hserved⟩ := run_requests fs hphase hrx hend hlen hrun
  rw [newEvents, htrace, List.drop_left]
  constructor
  · rintro ⟨replies, hcmds, hline⟩
    obtain ⟨hprinted, hcmds'⟩ := hserved.of_lineBytes hline
    refine ⟨fun f hf => ?_, hprinted⟩
    have hlength : (answered fs).length = fs.length := by
      have := congrArg List.length (hcmds'.symm.trans hcmds)
      simpa using this
    simpa using List.length_filter_eq_length_iff.mp hlength f hf
  · rintro ⟨hsilent, hprinted⟩
    obtain ⟨replies, hcmds, hline⟩ := hserved.replies hprinted
    refine ⟨replies, ?_, hline⟩
    rw [hcmds, answered, List.filter_eq_self.mpr]
    simpa using hsilent

/-- A session of two requests that are answered, and LittleFS not called. -/
theorem oneReplyEach_chkDevice_progEnd :
    OneReplyEach ([cmdChkDevice, cmdProgEnd].map .request)
      (lineBytes (((Config.live (.connected (received [cmdChkDevice, cmdProgEnd]) .unformatted
        .blank)).run [.allWell, .allWell]).machine.trace.drop 0)) :=
  (oneReplyEach_iff ([cmdChkDevice, cmdProgEnd].map .request) (.connected _ _ _) _
    [.allWell, .allWell] [] rfl (List.append_nil _).symm (by decide +kernel) rfl
    (Config.eq_live (by decide +kernel))).mpr (by decide +kernel)

/-- `CMD_EXT_FLASH_READ` is received completely and gets no reply. -/
theorem extFlashRead_unanswered :
    let c := (Config.live (.connected (received [cmdExtFlashRead]) .unformatted .blank)).run
      [.allWell]
    c.halted = none ∧ c.machine.rx = [] ∧
      ¬ OneReplyEach [.request cmdExtFlashRead] (lineBytes c.machine.trace) := by
  refine ⟨by decide +kernel, by decide +kernel, ?_⟩
  have hnothing : lineBytes ((Config.live (.connected (received [cmdExtFlashRead]) .unformatted
      .blank)).run [.allWell]).machine.trace = [] := by
    decide +kernel
  rintro ⟨replies, hcmds, hbytes⟩
  obtain ⟨reply, rfl⟩ := List.length_eq_one_iff.mp (by simpa using congrArg List.length hcmds)
  rw [hnothing, List.flatMap_singleton, encode] at hbytes
  cases hbytes

/-- What `lfs_dir_fetchmatch` prints, after file and line, when neither block of the superblock
pair is valid. -/
def corruptedPair : List MessageChar :=
  "error: Corrupted dir pair at \x7b0x0, 0x1\x7d\r\n".toList.filterMap fun c =>
    if h : UInt8.ofNat c.toNat < 0x80 then some ⟨UInt8.ofNat c.toNat, h⟩ else none

/-- `CMD_EXT_FLASH_FOPEN` on a blank chip is acknowledged, and what the first mount prints about
it stands on the line before the reply. -/
theorem fopen_prints :
    let c := (Config.live (.connected (received [cmdExtFlashFopen]) .unformatted .blank
      fun n _ => if n = 0 then corruptedPair else [])).run [.allWell]
    c.halted = none ∧ txBytes c.machine.trace = encode (.reply cmdExtFlashFopen [ack]) ∧
      ¬ OneReplyEach [.request cmdExtFlashFopen] (lineBytes c.machine.trace) := by
  refine ⟨by decide +kernel, by decide +kernel, ?_⟩
  have hfirst : (lineBytes ((Config.live (.connected (received [cmdExtFlashFopen]) .unformatted
      .blank fun n _ => if n = 0 then corruptedPair else [])).run [.allWell]).machine.trace).head? =
        some 0x65 := by
    decide +kernel
  rintro ⟨replies, hcmds, hbytes⟩
  obtain ⟨reply, rfl⟩ := List.length_eq_one_iff.mp (by simpa using congrArg List.length hcmds)
  rw [hbytes, List.flatMap_singleton, encode] at hfirst
  cases hfirst

/-! ### The status byte -/

/-- The commands whose handlers perform operations that can fail. -/
def Command.fallible : Command → Bool
  | .flashWrite | .flashRead | .flashEraseAll | .extFlashFopen | .extFlashFclose | .extFlashWrite
  | .progExtFlashBoot => true
  | .chkProtocol | .chkDevice | .progEnd | .flashSetPgsz | .flashGetPgsz | .flashVerify
  | .flashEraseSector | .extFlashRead | .extFlashVerify | .extFlashEraseSector | .extFlashHexDel
  | .eepromSetPgsz | .eepromGetPgsz | .eepromWrite | .eepromRead | .eepromEraseAll
  | .unsupported => false

/-- Among them, the commands whose handlers look at what their operations return. -/
def Command.checksResults (c : Command) : Bool := c ∈ [.flashWrite, .flashRead, .flashEraseAll]

/-- Every call succeeded. A mount that fails counts as a success when the format and the
mount after it succeed. -/
def allSucceeded : List Event → Bool
  | .lfs .mount _ (some _) _ :: .lfs .format _ (some 0) _ :: .lfs .mount _ (some 0) _ :: es =>
      allSucceeded es
  | e :: es => e.succeeded && allSucceeded es
  | [] => true

/-- The calls made between `s` and `t`. -/
def newCalls (s t : Machine) : List Event := (t.trace.drop s.trace.length).filter Event.isCall

/-- What the command consists of was done: it made its calls, and they all succeeded. -/
def Accomplished (s t : Machine) : Prop := newCalls s t ≠ [] ∧ allSucceeded (newCalls s t) = true

/-- Between `s` and `t` one reply was sent, whose status byte says whether the command was
accomplished. -/
def StatusHonest (s t : Machine) : Prop :=
  ∃ f : Frame, (txBytes t.trace).drop (txBytes s.trace).length = encode f ∧
    (Accomplished s t → f.data.head? = some ack) ∧ (¬ Accomplished s t → f.data.head? = some nack)

/-- An ISP command succeeds, and the others do. -/
@[simp] theorem allSucceeded_isp_cons (c : IspCommand) (v : IspVerdict) (es : List Event) :
    allSucceeded (.isp c v :: es) = ((Event.isp c v).succeeded && allSucceeded es) := rfl

/-- A log of ISP commands is a success when each of them is. -/
theorem allSucceeded_isp {es : List Event} (h : ∀ e ∈ es, ∃ c v, e = .isp c v) :
    allSucceeded es = true ↔ ∀ e ∈ es, e.succeeded = true := by
  induction es with
  | nil => simp [allSucceeded]
  | cons e es ih =>
      rw [List.forall_mem_cons] at h
      obtain ⟨⟨c, v, rfl⟩, hes⟩ := h
      rw [allSucceeded_isp_cons, Bool.and_eq_true, ih hes, List.forall_mem_cons]

/-- From `s`, `x` makes ISP commands and sends one reply, whose status byte reports them: an
acknowledgement exactly when it made some and they all succeeded. -/
def ReportsIsp (x : Prog Unit) (s : Machine) : Prop :=
  ∃ (t : Machine) (f : Frame) (es : List Event), x s = .ok () (t.replied f) ∧
    t.trace = s.trace ++ es ∧ (∀ e ∈ es, ∃ c v, e = .isp c v) ∧
    ((es ≠ [] ∧ ∀ e ∈ es, e.succeeded = true) → f.data.head? = some ack) ∧
    (¬ (es ≠ [] ∧ ∀ e ∈ es, e.succeeded = true) → f.data.head? = some nack)

/-- A step of the flash driver logs ISP commands only. -/
theorem FmcStep.isp {s t : Machine} {es : List Event} (h : FmcStep s t)
    (htrace : t.trace = s.trace ++ es) : ∀ e ∈ es, ∃ c v, e = .isp c v := by
  obtain ⟨es', htrace', hes⟩ := h.trace
  obtain rfl := List.append_cancel_left (htrace.symm.trans htrace')
  intro e he
  obtain ⟨n, c, rfl⟩ := hes e he
  exact ⟨c, _, rfl⟩

/-- A handler that works, learns from the result whether all commands succeeded, and answers
accordingly. -/
theorem reportsIsp_of_result {x : Prog Unit} {s t u : Machine} {es : List Event} {r : UInt8}
    (hfmc : FmcStep s u) (hu : u.trace = s.trace ++ es) (ht : t.trace = u.trace) (hne : es ≠ [])
    (hr : r = successed ↔ ∀ e ∈ es, e.succeeded = true)
    (hok : r = successed → ∃ f : Frame, f.data.head? = some ack ∧ x s = .ok () (t.replied f))
    (hfail : r ≠ successed → x s = .ok () (t.replied (.reply t.pac.cmd [nack]))) :
    ReportsIsp x s := by
  by_cases h : r = successed
  · obtain ⟨f, hack, hrun⟩ := hok h
    exact ⟨t, f, es, hrun, ht.trans hu, hfmc.isp hu, fun _ => hack,
      fun hfalse => absurd ⟨hne, hr.mp h⟩ hfalse⟩
  · exact ⟨t, .reply t.pac.cmd [nack], es, hfail h, ht.trans hu, hfmc.isp hu,
      fun htrue => absurd (hr.mpr htrue.2) h, fun _ => rfl⟩

/-- `CMD_FLASH_ERASE_ALL` reports how its commands went. -/
theorem handleFlashEraseAll_reports (s : Machine) : ReportsIsp handleFlashEraseAll s := by
  obtain ⟨r, t, es, hrun, hfmc, htrace, hr, hne, -⟩ := flashEraseAppAll_spec s
  refine reportsIsp_of_result hfmc htrace rfl hne hr (fun h => ⟨.reply t.pac.cmd [ack], rfl, ?_⟩)
    fun h => ?_
  · have h₀ : ¬ r ≠ 0 := not_not.mpr h
    rw [handleFlashEraseAll, bind_of_ok hrun, if_neg h₀]
    exact sendStatus_apply ack t
  · have h₀ : r ≠ 0 := h
    rw [handleFlashEraseAll, bind_of_ok hrun, if_pos h₀]
    exact sendStatus_apply nack t

/-- `CMD_FLASH_WRITE` reports what became of its commands. -/
theorem handleFlashWrite_reports (s : Machine) : ReportsIsp handleFlashWrite s := by
  by_cases hguard : leWord s.blBuffer 0 ≤ bootloaderEnd
  · refine ⟨s, .reply s.pac.cmd [nack], [], ?_, by simp, by simp, by simp, fun _ => rfl⟩
    rw [handleFlashWrite, bind_of_ok (get_apply s), if_pos hguard]
    exact sendStatus_apply nack s
  obtain ⟨r, t, es, hrun, hfmc, htrace, hr, hne, -⟩ :=
    writeWords_spec (fun i => s.blBuffer (4 + i)) (blFlashPacsize / 4) (leWord s.blBuffer 0) 0 s
  refine reportsIsp_of_result hfmc htrace rfl (hne (by decide)) hr
    (fun h => ⟨.reply t.pac.cmd [ack], rfl, ?_⟩) fun h => ?_
  · have h₀ : ¬ r ≠ 0 := not_not.mpr h
    rw [handleFlashWrite, bind_of_ok (get_apply s), if_neg hguard, flashWriteAppPage,
      bind_of_ok hrun, if_neg h₀]
    exact sendStatus_apply ack t
  · have h₀ : r ≠ 0 := h
    rw [handleFlashWrite, bind_of_ok (get_apply s), if_neg hguard, flashWriteAppPage,
      bind_of_ok hrun, if_pos h₀]
    exact sendStatus_apply nack t

/-- `CMD_FLASH_READ` reports what became of its commands. -/
theorem handleFlashRead_reports (s : Machine) : ReportsIsp handleFlashRead s := by
  obtain ⟨r, t, es, bytes, hrun, hfmc, htrace, hr, hne, -⟩ :=
    readWords_spec 1 (blFlashPacsize / 4) (leWord s.blBuffer 0) 0 s (by decide)
  let u := { t with blBuffer := overlay s.blBuffer (1 + 0) bytes }
  refine reportsIsp_of_result (t := u) hfmc htrace rfl (hne (by decide)) hr
    (fun h => ⟨.page u.pac.cmd u.blBuffer, rfl, ?_⟩) fun h => ?_
  · have h₀ : ¬ r ≠ 0 := not_not.mpr h
    rw [handleFlashRead, bind_of_ok (get_apply s), flashReadAppPage, bind_of_ok hrun, if_neg h₀]
    exact sendPage_apply u
  · have h₀ : r ≠ 0 := h
    rw [handleFlashRead, bind_of_ok (get_apply s), flashReadAppPage, bind_of_ok hrun, if_pos h₀]
    exact sendStatus_apply nack u

/-- After a handler that reports its ISP commands, the status byte is honest. -/
theorem ReportsIsp.honest {x : Prog Unit} {s s' t : Machine} {k : Control} {e : Event}
    (hx : ReportsIsp x s') (he : e.isCall = false) (htx : txBytes s'.trace = txBytes s.trace)
    (htrace : s'.trace = s.trace ++ [e]) (hrun : (do x; pure k : Prog Control) s' = .ok k t) :
    StatusHonest s t := by
  obtain ⟨u, f, es, hxs, hes, hisp, hack, hnack⟩ := hx
  rw [bind_of_ok hxs] at hrun
  cases hrun
  have hcalls : newCalls s (u.replied f) = es := by
    have hkeep : es.filter Event.isCall = es := by
      refine List.filter_eq_self.mpr fun e he => ?_
      obtain ⟨c, v, rfl⟩ := hisp e he
      rfl
    have hdrop : ((encode f).map Event.tx).filter Event.isCall = [] := by
      simp [List.filter_eq_nil_iff, Event.isCall]
    rw [newCalls, Machine.replied, hes, htrace]
    simp [List.filter_append, he, hkeep, hdrop]
  have hquiet : txBytes es = [] := txBytes_of_isCall fun e he => by
    obtain ⟨c, v, rfl⟩ := hisp e he
    rfl
  refine ⟨f, ?_, ?_, ?_⟩
  · rw [Machine.txBytes_replied, hes, txBytes_append, hquiet, List.append_nil, htx, List.drop_left]
  · rw [Accomplished, hcalls, allSucceeded_isp hisp]
    exact hack
  · rw [Accomplished, hcalls, allSucceeded_isp hisp]
    exact hnack

/-- After a handler that always acknowledges, the status byte is honest exactly when the
command was accomplished. -/
theorem Answering.honest_iff {x : Prog Control} {s s' t : Machine} {k : Control}
    (hx : Answering (· = [ack]) x) (htx : txBytes s'.trace = txBytes s.trace)
    (hrun : x s' = .ok k t) : StatusHonest s t ↔ Accomplished s t := by
  obtain ⟨f, es, -, hdata, -, -, hes, htrace⟩ := hx s' k t hrun
  have hsent : (txBytes t.trace).drop (txBytes s.trace).length = encode f := by
    rw [htrace, txBytes_append, txBytes_append, txBytes_of_isCall hes, txBytes_map_tx, htx,
      List.append_nil, List.drop_left]
  constructor
  · rintro ⟨g, hg, -, hnack⟩
    by_contra hnot
    have hfg : f = g := encode_injective (hsent.symm.trans hg)
    have := hnack hnot
    rw [← hfg, hdata] at this
    cases this
  · intro h
    exact ⟨f, hsent, fun _ => by rw [hdata]; rfl, fun hnot => absurd h hnot⟩

/-- **When the status byte is honest.** For every accepted frame whose handler performs
fallible operations, and every outcome of the calls in which the handler returns, the status
byte of the reply says whether the command was accomplished if and only if the command is
one of the three that look at their results, or it was accomplished. -/
theorem statusHonest_iff (s t : Machine) (f : Frame) (r : List UartPoll) (k : Control)
    (hrx : s.rx = (encode f).map .byte ++ r) (hf : (Command.ofByte f.cmd).fallible = true)
    (hrun : commandPass s = .ok k t) :
    StatusHonest s t ↔ (Command.ofByte f.cmd).checksResults = true ∨ Accomplished s t := by
  rw [commandPass_encode hrx] at hrun
  have htrace : (s.accepted f r).trace = s.trace ++ [.accept s.phase f.cmd] := rfl
  have htx := txBytes_accepted s f r
  have hk : k = .again := by
    cases k with
    | again => rfl
    | leave => rw [(dispatch_control hrun).mp rfl] at hf; cases hf
  subst hk
  cases hc : Command.ofByte f.cmd with
  | flashWrite =>
      rw [hc] at hrun
      exact iff_of_true ((handleFlashWrite_reports _).honest rfl htx htrace hrun) (.inl rfl)
  | flashRead =>
      rw [hc] at hrun
      exact iff_of_true ((handleFlashRead_reports _).honest rfl htx htrace hrun) (.inl rfl)
  | flashEraseAll =>
      rw [hc] at hrun
      exact iff_of_true ((handleFlashEraseAll_reports _).honest rfl htx htrace hrun) (.inl rfl)
  | extFlashFopen =>
      rw [hc] at hrun
      rw [(handleExtFlashFopen_answers.before_pure Control.again).honest_iff htx hrun]
      simp [Command.checksResults]
  | extFlashFclose =>
      rw [hc] at hrun
      rw [(handleExtFlashFclose_answers.before_pure Control.again).honest_iff htx hrun]
      simp [Command.checksResults]
  | extFlashWrite =>
      rw [hc] at hrun
      rw [(handleExtFlashWrite_answers.before_pure Control.again).honest_iff htx hrun]
      simp [Command.checksResults]
  | progExtFlashBoot =>
      rw [hc] at hrun
      rw [(handleProgExtFlashBoot_answers.before_pure Control.again).honest_iff htx hrun]
      simp [Command.checksResults]
  | _ => rw [hc] at hf; cases hf

/-- A machine about to receive `CMD_EXT_FLASH_FOPEN`. -/
def beforeFopen (v : Verdicts) : Machine :=
  (Machine.connected (received [cmdExtFlashFopen]) (.formatted none) .blank).load v

/-- Opening the file when everything is as documented. -/
theorem statusHonest_fopen :
    let s := beforeFopen .allWell
    StatusHonest s (after (commandPass s)) ↔
      (Command.ofByte cmdExtFlashFopen).checksResults = true ∨
        Accomplished s (after (commandPass s)) :=
  statusHonest_iff _ _ (.request cmdExtFlashFopen) [] .again (by simp [beforeFopen, received,
    requests, Machine.connected, Machine.reset, Machine.load]) rfl (eq_ok_after (by decide +kernel))

/-- `lfs_file_open` fails for want of memory (`LFS_ERR_NOMEM`). -/
def Verdicts.openFails : Verdicts where
  isp _ _ := .done
  lfs _ c := match c with
    | .fileOpen _ => .deviates (-12) (.formatted none) .empty
    | _ => .asDocumented

/-- The file could not be opened, and the command is acknowledged. -/
theorem fopen_failure_acknowledged :
    let s := beforeFopen .openFails
    value? (commandPass s) = some .again ∧ ¬ StatusHonest s (after (commandPass s)) := by
  refine ⟨by decide +kernel, ?_⟩
  rintro ⟨f, hsent, -, hnack⟩
  have hfails : allSucceeded
      (newCalls (beforeFopen .openFails) (after (commandPass (beforeFopen .openFails))))
        = false := by
    decide +kernel
  have hack : (txBytes (after (commandPass (beforeFopen .openFails))).trace).drop
      (txBytes (beforeFopen .openFails).trace).length =
      encode (.reply cmdExtFlashFopen [ack]) := by
    decide +kernel
  have hf : f = .reply cmdExtFlashFopen [ack] := encode_injective (hsent.symm.trans hack)
  have hstatus := hnack fun haccomplished => by
    have := haccomplished.2
    rw [hfails] at this
    cases this
  rw [hf] at hstatus
  cases hstatus

end Num487Boot
