import Smolmux.Broker.Flood
import Smolmux.Broker.McpSink

/-! The broker's side of the link: device output on its way to history, engines
and clients, results of expects, loss of the link, suspend and resume, and the
reconnect with its asynchronous connect. -/

namespace Smolmux.Broker
open Protocol

def linkDrainMaxReads : Nat := 16
def linkDrainChunk : Nat := 4096
def reconnectBaseS : Int := 2
def reconnectMaxS : Int := 60
def linkConnectTimeoutS : Rat := 5

def historyFenceDown : Bytes := ascii "*** smolmux: link down ***\n"
def historyFenceUp : Bytes := ascii "*** smolmux: link up ***\n"

variable {ρ : Type}

def deliverExpectResult (r : Expect.ExpectResult) : M ρ Unit := do
  let b ← Proc.get
  match b.mcp with
  | some mcp =>
    if r.clientId = mcpClientId then do
      emit (.expect (.result r.ticket none r.isMatched r.aborted))
      mcpOnExpectResult mcp r
    else toOwner b
  | none => toOwner b
where
  toOwner (b : Broker ρ) : M ρ Unit :=
    match b.clients.find? (·.id == r.clientId) with
    | none => pure ()
    | some c => do
      let msg := msgExpectResultEx r.id r.isMatched r.data r.pattern r.aborted r.abortReason
        r.abortPattern
      emit (.expect (.result r.ticket (some c.serial) r.isMatched r.aborted))
      emit (.reply (.expect r.ticket) msg)
      sendToClient c.addr msg

def processExpectResults : M ρ Unit := do
  let now ← nowMonotonic
  let collected := Expect.expectCollect (← Proc.get).expect now 16
  Proc.modify fun b => { b with expect := collected.2 }
  emit (.expect (.collected now collected.1.length))
  Proc.each deliverExpectResult collected.1

def historyAppend (data : Bytes) (ts : Rat) : M ρ Unit := do
  let grow ← ask Env.mem
  let slots ← ask Env.mem
  let chunk ← ask Env.mem
  Proc.modify fun b =>
    { b with history := RingBuffer.rbAppend ⟨grow, slots, chunk⟩ b.history data ts }

def historyFence (line : Bytes) : M ρ Unit := do
  let ts ← nowRealtime
  historyAppend line ts

def recordOutput (buf : Bytes) (ts : Rat) : M ρ Unit := do
  historyAppend buf ts
  emit (.recorded buf)

def abortExpects (reason patternName : Bytes) : M ρ Unit :=
  Proc.modify fun b => { b with expect := Expect.expectAbortAll b.expect reason patternName }

def incidentMsg (inc : Anomaly.AnomalyIncident) : Json :=
  msgAnomaly inc.id inc.patternName inc.severity inc.timestamp inc.matchText inc.preContext

def feedAnomaly (buf : Bytes) (ts : Rat) : M ρ Unit := do
  let e ← Proc.env
  let clock ← ask Env.clock
  let fed := Anomaly.anomalyFeed e.regex clock (← Proc.get).anomaly buf ts
  Proc.modify fun b => { b with anomaly := fed.2 }
  let fresh := fed.2.incidents.drop (fed.2.incidents.length - fed.1)
  Proc.each (fun inc => broadcast (incidentMsg inc) none) fresh
  match (fresh.filter (·.severity == ascii "critical")).getLast? with
  | none => pure ()
  | some inc => do
    abortExpects (ascii "anomaly") inc.patternName
    processExpectResults

def announceStage (i : Nat) : M ρ Unit := do
  let b ← Proc.get
  match b.boot.stages[i]? with
  | none => pure ()
  | some st =>
    if st.reached ∧ st.announced = false then do
      Proc.modify fun b =>
        { b with boot := { b.boot with
            stages := b.boot.stages.set i { st with announced := true } } }
      emit (.boot (.announced i))
      broadcast (msgBootStage st.name i b.boot.stages.length st.reachedTs) none
    else pure ()

def feedBoot (buf : Bytes) (ts : Rat) : M ρ Unit := do
  let e ← Proc.env
  let b ← Proc.get
  let fed := BootStage.bootFeed e.regex b.boot buf ts
  Proc.modify fun b => { b with boot := fed.2 }
  -- a reboot takes back what has been announced
  Proc.when (b.boot.stages.any (·.announced) ∧ ¬ fed.2.stages.any (·.announced))
    (emit (.boot .restarted))
  if 0 < fed.1 then do
    Proc.each announceStage (List.range fed.2.stages.length)
    if BootStage.bootTerminalReached fed.2 then stallDisarm else stallArm
  else pure ()

def fireRule (fired : Autoresponder.ArFired) : M ρ Unit := do
  let rc ← brokerDoWrite fired.response
  if rc = 0 then
    broadcast (msgAutoresponderFired fired.name fired.matchedText fired.response.length) none
  else pure ()

def feedAutoresponder (buf : Bytes) (ts : Rat) : M ρ Unit := do
  let e ← Proc.env
  let fed := Autoresponder.autoresponderFeed e.regex (← Proc.get).autoresponder buf ts
  Proc.modify fun b => { b with autoresponder := fed.2 }
  Proc.each fireRule fed.1

def processLinkChunk (buf : Bytes) (ts : Rat) : M ρ Unit := do
  let e ← Proc.env
  Proc.modify fun b => { b with expect := Expect.expectFeed e.regex b.expect buf }
  floodFeed buf
  recordOutput buf ts
  Proc.modify fun b => { b with bytesRxSinceLinkUp := b.bytesRxSinceLinkUp + buf.length }
  updateMcp fun mcp => mcpBufferOutput mcp buf
  broadcast (msgOutput buf ts) none
  feedAnomaly buf ts
  feedBoot buf ts
  feedAutoresponder buf ts

def linkDrain (buf : Bytes) : M ρ Unit := do
  let e ← Proc.env
  let ts ← nowRealtime
  let now ← nowMonotonic
  Proc.modify fun b => { b with lastLinkRxTime := now, linkHealthy := true }
  if e.linkKind.hasFilterRx then do
    let filter ← ask Env.filter
    let kept := filter (buf.take linkDrainChunk)
    if kept = [] then pure () else processLinkChunk kept ts
  else processLinkChunk buf ts

def unwatchLink : M ρ Unit := do
  let linkFd := (← Proc.get).link.fd
  let writeFd ← linkWriteFd linkFd
  Proc.when (0 ≤ linkFd) do
    let _ ← linkEpollCtl .del linkFd ⟨false, false, false⟩
  Proc.when (0 ≤ writeFd ∧ writeFd ≠ linkFd) do
    let _ ← linkEpollCtl .del writeFd ⟨false, false, false⟩

def linkLost : M ρ Unit := do
  unwatchLink
  let _ ← callLink .closeLink
  let now ← nowMonotonic
  Proc.modify fun b =>
    { b with
      linkDisconnected := true
      reconnectDelayS := reconnectBaseS
      reconnectNext := now }

def handleLinkDisconnect : M ρ Unit := do
  if (← Proc.get).linkDisconnected then pure ()
  else do
    breakCancel
    floodCancel
    stallDisarm
    linkLost
    historyFence historyFenceDown
    abortExpects (ascii "link_down") (ascii "link_down")
    processExpectResults
    broadcast (msgLinkDown (← Proc.get).port (ascii "device disconnected")) none

/-- What a read of the link gives: bytes; nothing, with or without bytes still
announced; nothing for now; a vanished device; another error. -/
inductive LinkRead where
  | data (bytes : Bytes)
  | zero (avail : Bool)
  | again
  | gone
  | failed

/-- Read until nothing is left or the reads are used up; true means that the link
is gone. `first` is whether nothing has been read yet. -/
def drainLinkFd : (left : Nat) → (first : Bool) → List LinkRead → M ρ Bool
  | 0, _, _ => pure false
  | _, _, [] => pure false
  | left + 1, first, read :: reads =>
    match read with
    | .data bytes => do
      linkDrain bytes
      drainLinkFd left false reads
    | .zero true => drainLinkFd left false reads
    | .zero false => pure first
    | .again => pure false
    | .gone => pure true
    | .failed => pure false

def processLinkData (reads : List LinkRead) : M ρ Unit := do
  if (← Proc.get).link.fd < 0 then pure ()
  else do
    let gone ← drainLinkFd linkDrainMaxReads true reads
    if gone then handleLinkDisconnect else pure ()

def linkSuspend : M ρ Unit := do
  unwatchLink
  emit (.resume (.interrupted (← Proc.get).pendingResumeAck))
  Proc.modify fun b =>
    { b with
      expect := Expect.expectCancelAll b.expect
      suspended := true
      linkConnecting := false }
  let _ ← callLink .closeLink

def brokerDoSuspend (byName : Bytes) : M ρ Int := do
  if (← Proc.get).suspended then pure (-1)
  else do
    breakCancel
    floodCancel
    stallDisarm
    linkSuspend
    broadcast (msgSuspended (← Proc.get).port byName) none
    pure 0

/-- `sm_identity_refuse_weak_seat_change`: an unknown seat is refused too. -/
def identityRefuseWeakSeatChange (weak : Bool) (lastByPath nowByPath : Bytes) : Bool :=
  weak && (lastByPath = [] || nowByPath = [] || lastByPath ≠ nowByPath)

def brokerIdentityBlocksReopen : M ρ Bool := do
  let e ← Proc.env
  let b ← Proc.get
  if b.identityWeakById = false ∨ b.port = [] then pure false
  else
    let nowPath := e.seat b.epoch
    pure (identityRefuseWeakSeatChange true b.identityByPath (stored 256 (nowPath.getD [])))

def brokerRecordIdentity : M ρ Unit := do
  let e ← Proc.env
  let b ← Proc.get
  if b.port = [] then pure ()
  else do
    let path := e.seat b.epoch
    Proc.modify fun b => { b with identityByPath := path.elim b.identityByPath (stored 256) }
    if ascii "by-id" <:+: b.port then
      Proc.modify fun b => { b with identityById := stored 256 b.port }
    else do
      let byId ← ask Env.text
      Proc.modify fun b => { b with identityById := byId.elim b.identityById (stored 256) }

def watchFd (fd : Int) (interest : Interest) : M ρ Unit := do
  let rc ← linkEpollCtl .add fd interest
  Proc.when (rc = eexist) do
    let _ ← linkEpollCtl .mod fd interest

def watchLink : M ρ Unit := do
  let newFd := (← Proc.get).link.fd
  Proc.when (0 ≤ newFd) do
    watchFd newFd ⟨true, false, true⟩
    let writeFd ← linkWriteFd newFd
    Proc.when (0 ≤ writeFd ∧ writeFd ≠ newFd) do
      let _ ← linkEpollCtl .add writeFd ⟨false, false, false⟩
    brokerUpdateLinkEpoll

def announceUp : M ρ Unit := do
  let b ← Proc.get
  if b.pendingResumeAck then do
    emit (.resume (.resumed b.resumeTicket b.connectOwner))
    broadcast (msgResumed b.port) none
    Proc.modify fun b => { b with pendingResumeAck := false }
  else broadcast (msgLinkUp b.port) none

def linkBringUp (broadcastUp : Bool) : M ρ Unit := do
  let e ← Proc.env
  watchLink
  let now ← nowMonotonic
  let upTs ← nowRealtime
  Proc.modify fun b =>
    { b with
      linkConnecting := false
      linkDisconnected := false
      lastLinkRxTime := now
      linkHealthy := false
      linkUpTs := upTs
      bytesRxSinceLinkUp := 0
      boot := BootStage.bootRestart b.boot }
  emit (.boot .restarted)
  emit (.linkUp (e.seat (← Proc.get).epoch))
  stallDisarm
  Proc.modify fun b =>
    { b with
      autoresponder := Autoresponder.autoresponderResetWindow b.autoresponder
      anomaly := Anomaly.anomalyResetWindow b.anomaly }
  historyFence historyFenceUp
  brokerRecordIdentity
  if broadcastUp then announceUp else pure ()

def linkWatchConnecting (resume : Option Nat) : M ρ Unit := do
  let fd := (← Proc.get).link.fd
  Proc.when (0 ≤ fd) (watchFd fd ⟨false, true, true⟩)
  let now ← nowMonotonic
  Proc.modify fun b =>
    { b with
      linkConnecting := true
      linkConnectDeadline := now + linkConnectTimeoutS
      connectOwner := resume }

def resumeNow : M ρ Int := do
  Proc.modify fun b => { b with suspended := false }
  linkBringUp false
  broadcast (msgResumed (← Proc.get).port) none
  pure 0

def resumeLater : M ρ Int := do
  let ticket := (← Proc.get).resumeNext
  Proc.modify fun b =>
    { b with
      suspended := false
      pendingResumeAck := true
      resumeTicket := ticket
      resumeNext := ticket + 1 }
  emit (.resume (.began ticket))
  linkWatchConnecting (some ticket)
  pure 0

def brokerDoResume : M ρ Int := do
  let e ← Proc.env
  emit (.resume .entered)
  if (← Proc.get).suspended = false then pure (-1)
  else if ← brokerIdentityBlocksReopen then pure (-2)
  else if e.linkKind.hasConnectBegin then do
    let rc ← callLink .connectBegin
    if rc < 0 then pure (-2)
    else if rc = 1 then resumeLater
    else resumeNow
  else do
    let rc ← callLink .openLink
    if rc ≠ 0 then pure (-2) else resumeNow

def linkScheduleRetry : M ρ Unit := do
  let now ← nowMonotonic
  Proc.modify fun b =>
    { b with
      reconnectNext := now + b.reconnectDelayS
      reconnectDelayS := min (b.reconnectDelayS * 2) reconnectMaxS }

def linkConnectGiveUp : M ρ Unit := do
  Proc.modify fun b => { b with linkConnecting := false }
  let _ ← callLink .closeLink
  Proc.modify fun b => { b with linkDisconnected := true }
  let b ← Proc.get
  Proc.when b.pendingResumeAck do
    emit (.resume (.failed b.resumeTicket b.pendingResumeId b.connectOwner))
    broadcast (msgError (some b.pendingResumeId) (ascii "failed to reopen serial port")) none
    Proc.modify fun b =>
      { b with pendingResumeAck := false, pendingResumeId := [], suspended := true }
  linkScheduleRetry

structure EpollFlags where
  input : Bool
  output : Bool
  hangup : Bool

def handleLinkConnecting (ev : EpollFlags) : M ρ Unit := do
  let e ← Proc.env
  if ev.hangup then linkConnectGiveUp
  else if ev.output then do
    let rc ← (if e.linkKind.hasConnectPoll then callLink .connectPoll else pure (-1))
    if rc = 1 then linkBringUp true
    else if rc < 0 then linkConnectGiveUp
    else pure ()
  else pure ()

def attemptReconnect : M ρ Unit := do
  let e ← Proc.env
  let b ← Proc.get
  if b.suspended ∨ b.linkConnecting then pure ()
  else if b.linkDisconnected = false ∨ b.reconnect = false then pure ()
  else if (← nowMonotonic) < b.reconnectNext then pure ()
  else if ← brokerIdentityBlocksReopen then do
    let now ← nowMonotonic
    Proc.modify fun b => { b with reconnectNext := now + 30 }
  else if e.linkKind.hasConnectBegin then do
    let rc ← callLink .connectBegin
    if rc = 0 then linkBringUp true
    else if rc = 1 then linkWatchConnecting none
    else linkScheduleRetry
  else do
    let rc ← callLink .openLink
    if rc = 0 then linkBringUp true else linkScheduleRetry

end Smolmux.Broker
