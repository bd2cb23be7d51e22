import Smolmux.Broker.State

/-! Writing to the device and the deferred BREAK machine. A request asserts a
line, a timer releases it, and a SysRq key may follow after a pause; a link that
cannot hold a break runs the whole sequence at once. One request is in progress
at a time. -/

namespace Smolmux.Broker
open Protocol

def maxBreakDurationMs : Int := 2000
def defaultBreakDurationMs : Int := 250
def maxSysrqDelayMs : Int := 500
def defaultResetHoldMs : Int := 100
def maxResetHoldMs : Int := 2000

variable {ρ : Type}

def linkWriteFd (readFd : Int) : M ρ Int := do
  let e ← Proc.env
  let b ← Proc.get
  pure (if e.linkKind.hasWriteFd then b.link.writeFd else readFd)

/-- The interest in a write descriptor of its own; one that is missing is added
when there is something to write. -/
def updateWriteEpoll (writeFd : Int) (pending : Bool) : M ρ Unit :=
  if pending then do
    let rc ← linkEpollCtl .mod writeFd ⟨false, true, false⟩
    Proc.when (rc = enoent) do
      let _ ← linkEpollCtl .add writeFd ⟨false, true, false⟩
  else do
    let _ ← linkEpollCtl .mod writeFd ⟨false, false, false⟩

def brokerUpdateLinkEpoll : M ρ Unit := do
  let b ← Proc.get
  if b.suspended ∨ b.linkDisconnected then pure ()
  else do
    let e ← Proc.env
    let readFd := b.link.fd
    let writeFd ← linkWriteFd readFd
    let pending := e.linkKind.hasWritePending && b.link.pending
    Proc.when (0 ≤ readFd) do
      let _ ← linkEpollCtl .mod readFd ⟨true, readFd == writeFd && pending, true⟩
    Proc.when (0 ≤ writeFd ∧ writeFd ≠ readFd) (updateWriteEpoll writeFd pending)

def brokerDoWrite (data : Bytes) : M ρ Int := do
  let b ← Proc.get
  if b.suspended then pure (-1)
  else if b.linkDisconnected then pure (-2)
  else do
    let rc ← callLink (.writeData data)
    if rc < 0 then pure (-3)
    else do
      brokerUpdateLinkEpoll
      pure 0

def writeFollowup (data : Bytes) : M ρ Int := do
  let rc ← brokerDoWrite data
  pure (if rc < 0 then -1 else 0)

def mcpBreakText (key : Option UInt8) (rc : Int) : Bytes :=
  match key with
  | some key =>
    if rc ≠ 0 then ascii "[ERROR] BREAK+SysRq failed" else ascii "OK (SysRq+" ++ key :: ascii ")"
  | none => if rc ≠ 0 then ascii "[ERROR] pin control failed" else ascii "OK"

def mcpResetText (pin : Bytes) (holdMs rc : Int) : Bytes :=
  if rc ≠ 0 then ascii "[ERROR] reset via " ++ pin ++ ascii " failed"
  else ascii "OK (reset via " ++ pin ++ ascii ", held " ++ decimal holdMs.toNat ++ ascii " ms)"

def noteAnswered (id : Option Json) : M ρ Unit :=
  match id with
  | some id => emit (.mcp (.answered id))
  | none => pure ()

def pinReply (msgId : Option Bytes) (rc : Int) : Json :=
  if rc ≠ 0 then msgError msgId (ascii "pin control failed") else msgAck "pin_control" msgId

/-- What a completion callback answers. The client that asked is looked up by
id. -/
def answerDone (ticket : Nat) (done : BreakDone) (rc : Int) : M ρ Unit := do
  match done with
  | .pin ctx => do
    match (← Proc.get).clients.find? (·.id == ctx.clientId) with
    | none => pure ()
    | some c => do
      emit (.reply (.pin ticket) (pinReply ctx.msgId rc))
      sendToClient c.addr (pinReply ctx.msgId rc)
  | .mcpBreak id key => do
    noteAnswered id
    emit (.mcpReply id (.text (mcpBreakText key rc)))
  | .mcpReset (some id) pin holdMs => do
    noteAnswered (some id)
    emit (.mcpReply (some id) (.text (mcpResetText pin holdMs rc)))
  | .mcpReset none _ _ => pure ()

def runDone (ticket : Nat) (done : BreakDone) (rc : Int) : M ρ Unit := do
  emit (.callback ticket rc)
  answerDone ticket done rc

def runDone? (ticket : Nat) (done : Option BreakDone) (rc : Int) : M ρ Unit :=
  match done with
  | some done => runDone ticket done rc
  | none => pure ()

def updateBreak (f : BreakMachine → BreakMachine) : M ρ Unit :=
  Proc.modify fun b => { b with brk := f b.brk }

def breakTimerArm (_ms : Int) : M ρ Int := ask Env.rc

def breakComplete (rc : Int) : M ρ Unit := do
  let m := (← Proc.get).brk
  updateBreak fun m => { m with state := .idle, followup := [], done := none }
  runDone? m.current m.done rc

def deassert (ticket : Nat) (pin : Bytes) : M ρ Int :=
  callLinkAs (.setParam pin (ascii "clear")) (.deasserted ticket pin)

def breakCancel : M ρ Unit := do
  let m := (← Proc.get).brk
  match m.state with
  | .idle => pure ()
  | .asserted => do
    let _ ← deassert m.current m.pin
    breakComplete (-1)
  | .delay => breakComplete (-1)

def timerEnsure : M ρ Bool := do
  let fd ← ask Env.rc
  if fd < 0 then pure false
  else do
    let rc ← epollCtl .add fd ⟨true, false, false⟩
    pure (0 ≤ rc)

def breakTimerEnsure : M ρ Bool := do
  if (← Proc.get).brk.timer then pure true
  else do
    let made ← timerEnsure
    updateBreak fun m => { m with timer := made }
    pure made

def noteAsked (ticket : Nat) (done : Option BreakDone) : M ρ Unit :=
  match done with
  | some (.pin ctx) => emit (.asked (.pin ticket) ctx.asked)
  | _ => pure ()

/-- Number a request and note whether it is accepted. -/
def ticketed (done : Option BreakDone) (request : Nat → M ρ Int) : M ρ Int := do
  let ticket := (← Proc.get).brk.next
  updateBreak fun m => { m with next := ticket + 1 }
  emit (.requested ticket)
  noteAsked ticket done
  let rc ← request ticket
  emit (if rc = 0 then .accepted ticket done.isSome else .rejected ticket)
  pure rc

/-- The request holds `pin` until the timer expires; when the timer cannot be
armed the line is released at once. -/
def holdLine (ticket : Nat) (pin : Bytes) (ms : Int) (start : BreakMachine → BreakMachine) :
    M ρ Int := do
  updateBreak fun m => { start m with state := .asserted, pin := pin, current := ticket }
  let rc ← breakTimerArm ms
  if rc < 0 then do
    let _ ← deassert ticket pin
    updateBreak fun m => { m with state := .idle, followup := [], done := none }
    pure (-1)
  else pure 0

def sendBreak (durationMs : Int) (followup : Bytes) : M ρ Int := do
  let rc ← callLink (.sendBreak durationMs)
  if rc = 0 ∧ followup ≠ [] then writeFollowup followup else pure rc

/-- A link without assert and release of a break does all of it at once. -/
def breakNow (ticket : Nat) (durationMs : Int) (followup : Bytes) (done : Option BreakDone) :
    M ρ Int := do
  let rc ← sendBreak durationMs followup
  runDone? ticket done rc
  pure 0

def clampBreak (ms : Int) : Int :=
  min (if ms ≤ 0 then defaultBreakDurationMs else ms) maxBreakDurationMs

def clampHold (ms : Int) : Int := min (if ms ≤ 0 then defaultResetHoldMs else ms) maxResetHoldMs

def holdBreak (ticket : Nat) (durationMs : Int) (followup : Bytes) (delayMs : Int)
    (done : Option BreakDone) : M ρ Int := do
  emit (.asserted ticket (ascii "break"))
  if ← breakTimerEnsure then
    holdLine ticket (ascii "break") durationMs fun m =>
      { m with
        followup := followup
        delayMs := min (max delayMs 0) maxSysrqDelayMs
        done := done }
  else do
    let _ ← deassert ticket (ascii "break")
    pure (-1)

def breakRequest (durationMs : Int) (followup : Bytes) (delayMs : Int) (done : Option BreakDone)
    (ticket : Nat) : M ρ Int := do
  let b ← Proc.get
  if b.suspended ∨ b.linkDisconnected then pure (-1)
  else if b.brk.state ≠ .idle then pure (-1)
  else if 8 < followup.length then pure (-1)
  else do
    updateBreak fun m => { m with pin := ascii "break" }
    let rc ← setParam (ascii "break") (ascii "set")
    if rc ≠ 0 then breakNow ticket (clampBreak durationMs) followup done
    else holdBreak ticket (clampBreak durationMs) followup delayMs done

def brokerScheduleBreak (durationMs : Int) (followup : Bytes) (delayMs : Int)
    (done : Option BreakDone) : M ρ Int :=
  ticketed done (breakRequest durationMs followup delayMs done)

def holdReset (ticket : Nat) (pin : Bytes) (holdMs : Int) (done : Option BreakDone) :
    M ρ Int := do
  let rc ← setParam pin (ascii "set")
  if rc ≠ 0 then pure (-1)
  else do
    emit (.asserted ticket pin)
    holdLine ticket pin holdMs fun m => { m with followup := [], done := done }

def lineResetRequest (pin : Bytes) (holdMs : Int) (done : Option BreakDone) (ticket : Nat) :
    M ρ Int := do
  let b ← Proc.get
  if b.suspended ∨ b.linkDisconnected then pure (-1)
  else if b.brk.state ≠ .idle then pure (-1)
  else if pin ≠ ascii "rts" ∧ pin ≠ ascii "dtr" then pure (-1)
  else do
    let other := if pin = ascii "rts" then ascii "dtr" else ascii "rts"
    let rc ← setParam other (ascii "clear")
    if rc ≠ 0 then pure (-1)
    else if ← breakTimerEnsure then holdReset ticket pin (clampHold holdMs) done
    else pure (-1)

def brokerScheduleLineReset (pin : Bytes) (holdMs : Int) (done : Option BreakDone) : M ρ Int :=
  ticketed done (lineResetRequest pin holdMs done)

/-- Release the line, trying a second time when that fails. -/
def breakRelease (ticket : Nat) (pin : Bytes) : M ρ Int := do
  let rc ← deassert ticket pin
  if rc ≠ 0 then deassert ticket pin else pure rc

def breakFollowup (followup : Bytes) : M ρ Unit := do
  let rc ← writeFollowup followup
  breakComplete rc

def breakPause (delayMs : Int) : M ρ Int :=
  if 0 < delayMs then breakTimerArm delayMs else pure (-1)

/-- The line has been released: pause before what follows, or end. -/
def breakReleased (m : BreakMachine) (rc : Int) : M ρ Unit :=
  if rc = 0 ∧ m.followup ≠ [] then do
    let armed ← breakPause m.delayMs
    if armed = 0 then updateBreak fun m => { m with state := .delay }
    else breakFollowup m.followup
  else breakComplete rc

def handleBreakTimer : M ρ Unit := do
  let m := (← Proc.get).brk
  match m.state with
  | .asserted => do
    let rc ← breakRelease m.current m.pin
    breakReleased m rc
  | .delay => breakFollowup m.followup
  | .idle => pure ()

end Smolmux.Broker
