import Smolmux.Broker.BreakMachine

/-! The autoboot flood, which streams a key until a prompt shows up or time is
over and may hold a reset line for its first part, and the timer that reports a
boot that does not advance. -/

namespace Smolmux.Broker
open Protocol

def floodKeyMax : Nat := 8
def floodTailLen : Nat := 256
def minFloodIntervalMs : Int := 1
def defaultFloodIntervalMs : Int := 10
def defaultFloodDurationMs : Int := 2000
def maxFloodDurationMs : Int := 15000

variable {ρ : Type}

def truncate (q : Rat) : Int := q.num.tdiv q.den

def updateFlood (f : Flood ρ → Flood ρ) : M ρ Unit :=
  Proc.modify fun b => { b with flood := f b.flood }

def floodDeassert (ticket : Nat) (pin value : Bytes) : M ρ Int :=
  callLinkAs (.setParam pin value) fun rc => .flood (.released ticket pin value rc)

def floodReleaseReset : M ρ Unit := do
  let fl := (← Proc.get).flood
  if fl.resetPending then do
    let _ ← floodDeassert fl.current fl.resetPin fl.resetDeassert
    updateFlood fun fl => { fl with resetPending := false }
  else pure ()

def Flood.resultMsg (fl : Flood ρ) (isMatched : Bool) (reason : String) (now : Rat) : Json :=
  msgAutobootResult (if fl.msgId = [] then none else some fl.msgId) isMatched (ascii reason)
    (truncate ((now - fl.start) * 1000)) fl.sent

def floodReport (isMatched : Bool) (reason : String) : M ρ Unit := do
  let now ← nowMonotonic
  let fl := (← Proc.get).flood
  emit (.flood (.result fl.current isMatched))
  emit (.reply (.flood fl.current) (fl.resultMsg isMatched reason now))
  broadcast (fl.resultMsg isMatched reason now) none

def floodFinish (isMatched : Bool) (reason : String) : M ρ Unit := do
  if (← Proc.get).flood.active then do
    updateFlood fun fl => { fl with stopRe := none }
    floodReleaseReset
    updateFlood fun fl => { fl with active := false }
    floodReport isMatched reason
  else pure ()

def floodCancel : M ρ Unit := floodFinish false "cancelled"

def overwrite (mem : Bytes) (off : Nat) (data : Bytes) : Bytes :=
  mem.take off ++ data ++ mem.drop (off + data.length)

def tailStore (tail : Bytes) (tailLen : Nat) (buf : Bytes) : Bytes × Nat :=
  if floodTailLen ≤ buf.length then (buf.drop (buf.length - floodTailLen), floodTailLen)
  else
    let keep := if floodTailLen < tailLen + buf.length then floodTailLen - buf.length else tailLen
    let moved :=
      if keep ≠ tailLen then overwrite tail 0 ((tail.drop (tailLen - keep)).take keep) else tail
    (overwrite moved keep buf, keep + buf.length)

def sizeBytes (n : Nat) : Bytes := (List.range 8).map fun i => UInt8.ofNat (n / 256 ^ i)

/-- The string the engine reads when it is given the window: there is no NUL behind the
bytes in use, so it goes on through the rest of the memory and through `flood_tail_len`, the
field behind it. -/
def tailText (tail : Bytes) (tailLen : Nat) : Bytes := cString (tail ++ sizeBytes tailLen)

def floodFeed (buf : Bytes) : M ρ Unit := do
  let e ← Proc.env
  let fl := (← Proc.get).flood
  emit (.flood (.fed buf))
  match fl.stopRe with
  | none => pure ()
  | some re =>
    if fl.active = false ∨ buf = [] then pure ()
    else do
      let kept := tailStore fl.tail fl.tailLen buf
      let found := e.regex.exec re (tailText kept.1 kept.2)
      updateFlood fun fl =>
        { fl with tail := kept.1, tailLen := kept.2, stopRe := some found.2 }
      if found.1.isSome then floodFinish true "matched" else pure ()

def handleFloodTimer : M ρ Unit := do
  let fl := (← Proc.get).flood
  if fl.active then do
    let now ← (if fl.resetPending then nowMonotonic else pure 0)
    Proc.when (fl.resetPending ∧ fl.resetDeassertTime ≤ now) floodReleaseReset
    let now ← nowMonotonic
    if fl.deadline ≤ now then floodFinish false "timeout"
    else do
      let rc ← brokerDoWrite fl.key
      if rc < 0 then floodFinish false "aborted"
      else updateFlood fun fl => { fl with sent := fl.sent + 1 }
  else pure ()

def floodTimerEnsure : M ρ Bool := do
  if (← Proc.get).flood.timer then pure true
  else do
    let made ← timerEnsure
    updateFlood fun fl => { fl with timer := made }
    pure made

/-- A request to flood. No reset pin, or an empty one, means no reset. -/
structure FloodRequest where
  key : Bytes
  intervalMs : Int
  durationMs : Int
  stopPattern : Option Bytes
  clientId : Bytes
  msgId : Option Bytes
  resetPin : Option Bytes
  resetAssert : Option Bytes
  resetHoldMs : Int

def FloodRequest.pin (r : FloodRequest) : Option Bytes := r.resetPin.filter (· ≠ [])

def FloodRequest.duration (r : FloodRequest) : Int :=
  min (if r.durationMs ≤ 0 then defaultFloodDurationMs else r.durationMs) maxFloodDurationMs

def FloodRequest.interval (r : FloodRequest) : Int :=
  if r.intervalMs < minFloodIntervalMs then defaultFloodIntervalMs else r.intervalMs

/-- The reset pulse is on a modem line and ends before the flood does. -/
def FloodRequest.resetOk (r : FloodRequest) : Bool :=
  match r.pin with
  | none => true
  | some pin =>
    (pin = ascii "dtr" || pin = ascii "rts") && decide (clampHold r.resetHoldMs < r.duration)

def FloodRequest.compile (r : FloodRequest) (regex : Regex ρ) : Option (Option ρ) :=
  match r.stopPattern.filter (· ≠ []) with
  | none => some none
  | some pattern => (regex.compile pattern).map some

def FloodRequest.assertAct (r : FloodRequest) : Bytes :=
  (r.resetAssert.filter (· ≠ [])).getD (ascii "clear")

def FloodRequest.deassertAct (r : FloodRequest) : Bytes :=
  if r.assertAct = ascii "set" then ascii "clear" else ascii "set"

def Flood.holding (r : FloodRequest) (pin : Bytes) (fl : Flood ρ) : Flood ρ :=
  { fl with
    resetPin := stored 8 pin
    resetDeassert := stored 8 r.deassertAct
    resetPending := true
    resetDeassertTime := fl.start + clampHold r.resetHoldMs / 1000 }

def floodAssertReset (r : FloodRequest) (ticket : Nat) : M ρ Bool :=
  match r.pin with
  | none => pure true
  | some pin => do
    let rc ← setParam pin r.assertAct
    if rc ≠ 0 then do
      updateFlood fun fl => { fl with active := false, stopRe := none }
      pure false
    else do
      emit (.flood (.asserted ticket pin r.deassertAct))
      updateFlood (Flood.holding r pin)
      pure true

def floodArmTimer (_intervalMs : Int) : M ρ Int := ask Env.rc

def floodArm (intervalMs : Int) : M ρ Int := do
  let rc ← floodArmTimer intervalMs
  if rc < 0 then do
    floodReleaseReset
    updateFlood fun fl => { fl with active := false, stopRe := none }
    pure (-1)
  else do
    let key := (← Proc.get).flood.key
    let rc ← brokerDoWrite key
    Proc.when (rc = 0) (updateFlood fun fl => { fl with sent := fl.sent + 1 })
    pure 0

def Flood.started (r : FloodRequest) (re : Option ρ) (start : Rat) (ticket : Nat) (fl : Flood ρ) :
    Flood ρ :=
  { fl with
    key := r.key
    stopRe := re
    tailLen := 0
    sent := 0
    start := start
    deadline := start + r.duration / 1000
    clientId := stored 32 r.clientId
    msgId := stored 64 (r.msgId.getD [])
    resetPending := false
    resetPin := []
    active := true
    current := ticket }

def floodRequest (r : FloodRequest) (ticket : Nat) : M ρ Int := do
  let e ← Proc.env
  let b ← Proc.get
  if b.suspended ∨ b.linkDisconnected then pure (-1)
  else if b.flood.active then pure (-1)
  else if r.key = [] ∨ floodKeyMax < r.key.length then pure (-1)
  else if r.resetOk = false then pure (-1)
  else
    match r.compile e.regex with
    | none => pure (-1)
    | some re => do
      if ← floodTimerEnsure then do
        let start ← nowMonotonic
        updateFlood (Flood.started r re start ticket)
        if ← floodAssertReset r ticket then floodArm r.interval else pure (-1)
      else pure (-1)

def brokerStartFlood (r : FloodRequest) : M ρ Int := do
  let ticket := (← Proc.get).flood.next
  updateFlood fun fl => { fl with next := ticket + 1 }
  emit (.flood (.requested ticket r.stopPattern))
  emit (.asked (.flood ticket) r.msgId)
  let rc ← floodRequest r ticket
  emit (.flood (if rc = 0 then .accepted ticket else .rejected ticket))
  pure rc

def stallDisarm : M ρ Unit := Proc.modify fun b => { b with stallNotified := false }

def stallTimeoutMs (b : Broker ρ) : Int := truncate (b.boot.stallTimeoutS * 1000)

def stallArm : M ρ Unit := do
  let b ← Proc.get
  if stallTimeoutMs b ≤ 0 then pure ()
  else do
    let made ← (if b.stallTimer then pure true else timerEnsure)
    Proc.modify fun b => { b with stallTimer := made }
    if made then stallDisarm else pure ()

def isUp (b : Broker ρ) : Bool := !b.suspended && !b.linkDisconnected && !b.linkConnecting

def handleStallTimer : M ρ Unit := do
  let b ← Proc.get
  emit (.boot (.expired b.linkConnecting))
  if b.stallNotified ∨ b.suspended ∨ b.linkDisconnected then pure ()
  else if b.boot.furthest < 0 ∨ BootStage.bootTerminalReached b.boot then pure ()
  else do
    Proc.modify fun b => { b with stallNotified := true }
    emit (.boot (.stalled b.isUp))
    let name := (b.boot.stages[b.boot.furthest.toNat]?).elim [] (·.name)
    broadcast (msgBootStall name b.boot.furthest b.boot.stages.length (stallTimeoutMs b)) none

end Smolmux.Broker
