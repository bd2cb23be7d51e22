import Smolmux.Broker.McpTools
import Smolmux.JsonText

/-! The event loop of the broker (`sm_broker_run`): registration of clients, their
events, the input of the MCP sink, the work at the start and the end of a turn,
and shutdown. -/

namespace Smolmux.Broker
open Protocol Smolmux.Client

def maxClients : Nat := 32
def helloTimeoutS : Rat := 10
def ringBufferMaxBytes : Nat := 2 * 1024 * 1024

variable {ρ : Type}

/-- A connection to register: where the allocator would put the client, whether
it can, the process at the other end, and whether the connection came over the
network. -/
structure Registration where
  addr : Addr
  mem : Bool
  peerPid : Int
  requiresAuth : Bool
  epollRc : Int

def freshAddr (clients : List Client) (a : Addr) : Addr :=
  if clients.any (·.addr == a) then (clients.map Client.addr).foldr max 0 + 1 else a

def clientNew (addr serial num : Nat) (reg : Registration) (now : Rat) : Client where
  addr := addr
  serial := serial
  id := stored 32 (ascii "client-" ++ decimal num)
  name := []
  role := .observer
  helloReceived := false
  disconnected := false
  connectedAt := now
  peerPid := reg.peerPid
  requiresAuth := reg.requiresAuth
  listenExpectWindowStart := 0
  listenExpectWindowCount := 0
  readBuf := []
  queue := newQueue
  writePending := false

/-- `sm_broker_register_client`, with the mark its caller sets at once. A client
that cannot be watched is dropped again. -/
def brokerRegisterClient (reg : Registration) : M ρ Unit := do
  let b ← Proc.get
  if b.clientCap ≤ b.clients.length then pure ()
  else do
    Proc.modify fun b =>
      { b with nextClientNum := (b.nextClientNum + 1) % 2 ^ 32, attempts := b.attempts + 1 }
    if reg.mem = false ∨ reg.epollRc < 0 then pure ()
    else do
      let now ← nowMonotonic
      let c := clientNew (freshAddr b.clients reg.addr) b.registrations b.nextClientNum reg now
      Proc.modify fun b =>
        { b with clients := b.clients ++ [c], registrations := b.registrations + 1 }
      emit (.registered c.serial c.requiresAuth)

structure ClientInput where
  flags : EpollFlags
  reads : Nat → Bytes × ReadOutcome

def feedClient (a : Addr) (read : Bytes × ReadOutcome) : M ρ (List Msg) := do
  let e ← Proc.env
  match (← Proc.get).clientAt a with
  | none => pure []
  | some c => do
    let feed := clientFeed e.codec c.readBuf read.1 read.2
    updateClient a fun c =>
      { c with readBuf := feed.buf, disconnected := c.disconnected || feed.disconnected }
    pure feed.msgs

def clientGone (b : Broker ρ) (a : Addr) : Bool := (b.clientAt a).any (·.disconnected)

def handleUnlessGone (a : Addr) (msg : Msg) : M ρ Unit := do
  if clientGone (← Proc.get) a then pure () else handleClientMessage a msg

/-- The read loop of one wakeup; false when the client was removed in it. -/
def readClient (a : Addr) (reads : Nat → Bytes × ReadOutcome) : (left k : Nat) → M ρ Bool
  | 0, _ => pure true
  | left + 1, k => do
    let msgs ← feedClient a (reads k)
    Proc.each (handleUnlessGone a) msgs
    if clientGone (← Proc.get) a then do
      removeClient a
      pure false
    else if msgs.length = feedMax then readClient a reads left (k + 1)
    else pure true

def watchWrites (a : Addr) : M ρ Unit :=
  updateClient a fun c =>
    { c with writePending := c.writePending || decide (0 < c.queue.count) }

def finishClientEvent (a : Addr) (flags : EpollFlags) : M ρ Unit :=
  if flags.hangup then removeClient a
  else do
    if isClientLive (← Proc.get) a then
      if flags.output then do
        match ← flushClient a with
        | .done => do
          updateClient a fun c => { c with writePending := false }
          watchWrites a
        | .pending => watchWrites a
        | .error => removeClient a
      else watchWrites a
    else pure ()

def processClientEvent (a : Addr) (input : ClientInput) : M ρ Unit := do
  let alive ← (if input.flags.input then readClient a input.reads feedRounds 0 else pure true)
  if alive then finishClientEvent a input.flags else pure ()

def splitLines : (line : Bytes) → Bytes → List Bytes × Bytes
  | line, [] => ([], line)
  | line, c :: cs =>
    if c = newline then
      let rest := splitLines [] cs
      (line :: rest.1, rest.2)
    else splitLines (line ++ [c]) cs

def mcpDispatchMessage (msg : Json) : M ρ Unit := do
  let id := msg.item "id"
  match msg.getString "method" with
  | none =>
    if id.isSome then emit (.mcpReply id (.error (-32600) "invalid request: missing method"))
    else pure ()
  | some m =>
    if m = ascii "initialize" then do
      emit (.mcpReply id (.rendered "initialize" .null))
      updateMcp fun mcp => { mcp with initialized := true }
    else if m = ascii "notifications/initialized" then pure ()
    else if m = ascii "tools/list" then emit (.mcpReply id (.rendered "tools/list" .null))
    else if m = ascii "tools/call" then handleToolsCall id ((msg.item "params").getD (.obj []))
    else if m = ascii "prompts/list" then emit (.mcpReply id (.rendered "prompts/list" .null))
    else if m = ascii "prompts/get" then
      emit (.mcpReply id (.rendered "prompts/get" ((msg.item "params").getD .null)))
    else if id.isSome then emit (.mcpReply id (.error (-32601) "method not found"))
    else pure ()

def mcpLine (line : Bytes) : M ρ Unit := do
  let e ← Proc.env
  match e.codec.parse (cString line) with
  | some msg => mcpDispatchMessage msg
  | none => emit (.mcpReply none (.error (-32700) "parse error"))

inductive McpRead where
  | data (bytes : Bytes)
  | eof
  | failed

/-- The room in the read buffer, which may have to grow; none when this wakeup
ends here. -/
def mcpReadRoom (mcp : McpSink) : M ρ (Option Nat) := do
  if mcp.readBuf.length < mcp.readCap then pure (some (mcp.readCap - mcp.readBuf.length))
  else if mcpReadBufMax ≤ mcp.readCap then do
    updateMcp fun mcp => { mcp with readBuf := [] }
    pure none
  else if ← ask Env.mem then do
    let cap := min (mcp.readCap * 2) mcpReadBufMax
    updateMcp fun mcp => { mcp with readCap := cap }
    pure (some (cap - mcp.readBuf.length))
  else pure none

def mcpOnReadable (read : McpRead) : M ρ Unit := do
  match (← Proc.get).mcp with
  | none => pure ()
  | some mcp => do
    match ← mcpReadRoom mcp with
    | none => pure ()
    | some room =>
      match read with
      | .eof => Proc.modify fun b => { b with stopped := true }
      | .failed => pure ()
      | .data bytes => do
        let lines := splitLines [] (mcp.readBuf ++ bytes.take room)
        Proc.each mcpLine lines.1
        updateMcp fun mcp => { mcp with readBuf := lines.2 }

/-- One entry of what `epoll_wait` returned. A client's event carries the address
it was registered with; `serial` is the client it was reported for. -/
inductive LoopEvent where
  | listen (reg : Registration)
  | pipe (regs : List Registration)
  | tcp (regs : List Registration)
  | breakTimer
  | floodTimer
  | stallTimer
  | link (flags : EpollFlags) (reads : List LinkRead)
  | linkOut (flags : EpollFlags)
  | mcp (read : McpRead)
  | client (addr : Addr) (serial : Nat) (input : ClientInput)

def flushQueue : M ρ Int := do
  let rc ← callLink .flushWriteQueue
  Proc.when (0 ≤ rc) brokerUpdateLinkEpoll
  pure rc

def flushLink : M ρ Unit := do
  let e ← Proc.env
  if e.linkKind.hasFlush then do
    let rc ← flushQueue
    if rc < 0 then handleLinkDisconnect else pure ()
  else pure ()

def handleLinkEvent (flags : EpollFlags) (reads : List LinkRead) : M ρ Unit := do
  Proc.when (flags.input ∨ flags.hangup) (processLinkData reads)
  Proc.when ((← Proc.get).linkDisconnected = false ∧ flags.hangup) handleLinkDisconnect
  Proc.when ((← Proc.get).linkDisconnected = false ∧ flags.output) flushLink

def handleClientEvent (addr : Addr) (serial : Nat) (input : ClientInput) : M ρ Unit := do
  match (← Proc.get).clientAt addr with
  | none => pure ()
  | some c => do
    emit (.applied serial c.serial)
    processClientEvent addr input

def handleEvent (ev : LoopEvent) : M ρ Unit := do
  let b ← Proc.get
  match ev with
  | .listen reg => brokerRegisterClient { reg with requiresAuth := false }
  | .pipe regs => Proc.each brokerRegisterClient regs
  | .tcp regs => Proc.each (fun reg => brokerRegisterClient { reg with requiresAuth := true }) regs
  | .breakTimer => handleBreakTimer
  | .floodTimer => handleFloodTimer
  | .stallTimer => handleStallTimer
  | .link flags reads =>
    if b.linkConnecting ∧ b.suspended = false then handleLinkConnecting flags
    else if b.suspended = false ∧ b.linkDisconnected = false then handleLinkEvent flags reads
    else pure ()
  | .linkOut flags =>
    if b.suspended = false ∧ b.linkDisconnected = false ∧ flags.output then flushLink else pure ()
  | .mcp read => mcpOnReadable read
  | .client addr serial input => handleClientEvent addr serial input

def sendPage : Option (Bytes × Json) → M ρ Unit
  | none => pure ()
  | some (id, resp) => do
    let b ← Proc.get
    match b.clients.find? (·.id == id) with
    | none => pure ()
    | some c => do
      emit (.reply (.history b.historyTicket) resp)
      sendToClient c.addr resp

def processHistory : M ρ Unit := do
  let b ← Proc.get
  let r := History.processHistoryPending b.historyPending (b.clients.map Client.id)
  Proc.modify fun b => { b with historyPending := r.1 }
  sendPage r.2

def startTurn : M ρ Unit := do
  Proc.when ((← Proc.get).expect.requests ≠ []) processExpectResults
  Proc.when (← Proc.get).historyPending.active processHistory
  attemptReconnect
  let b ← Proc.get
  if b.linkConnecting then do
    let now ← nowMonotonic
    if b.linkConnectDeadline < now then linkConnectGiveUp else pure ()
  else pure ()

def flushClientQueues : (left i : Nat) → M ρ Unit
  | 0, _ => pure ()
  | left + 1, i => do
    match (← Proc.get).clients[i]? with
    | none => pure ()
    | some c => do
      if 0 < c.queue.count then
        match ← flushClient c.addr with
        | .error => do
          removeClient c.addr
          flushClientQueues left i
        | _ => flushClientQueues left (i + 1)
      else flushClientQueues left (i + 1)

/-- A client that has not said hello in time goes, and one whose process is
gone. -/
def dropIfStale (now : Rat) (peerGone : Addr → Bool) (i : Nat) : M ρ Unit := do
  match (← Proc.get).clients[i]? with
  | none => pure ()
  | some c =>
    if (c.helloReceived = false ∧ 0 < c.connectedAt ∧ helloTimeoutS < now - c.connectedAt) ∨
        peerGone c.addr then removeClient c.addr
    else pure ()

def dropStaleClients (now : Rat) (peerGone : Addr → Bool) : (i : Nat) → M ρ Unit
  | 0 => pure ()
  | i + 1 => do
    dropIfStale now peerGone i
    dropStaleClients now peerGone i

def checkLinkHealth (now : Rat) : M ρ Unit := do
  let e ← Proc.env
  Proc.modify fun b =>
    if b.suspended ∨ b.linkDisconnected ∨ e.linkKind.silenceNormal then b
    else
      let idle := now - b.lastLinkRxTime
      if 0 < b.lastLinkRxTime ∧ 8 < idle ∧ b.bytesRxSinceLinkUp = 0 then
        { b with linkHealthy := false }
      else if idle < 3 then { b with linkHealthy := true }
      else b

def endTurn (peerGone : Addr → Bool) : M ρ Unit := do
  let b ← Proc.get
  Proc.when (b.clients.any fun c => 0 < c.queue.count) (flushClientQueues b.clients.length 0)
  let now ← nowMonotonic
  let b ← Proc.get
  if 2 < now - b.lastHealthCheck then do
    Proc.modify fun b => { b with lastHealthCheck := now }
    dropStaleClients now peerGone b.clients.length
    checkLinkHealth now
  else pure ()

def shutdown : M ρ Unit := do
  breakCancel
  updateBreak fun m => { m with timer := false }
  updateFlood fun fl => { fl with active := false, stopRe := none, timer := false }
  Proc.modify fun b => { b with stallTimer := false }

/-- `sm_broker_destroy`, as far as it does more than free memory. -/
def brokerDestroy : M ρ Unit := do
  breakCancel
  floodCancel
  stallDisarm
  Proc.modify fun b => { b with clients := [], historyPending := History.historyPendingClear }
  let _ ← callLink .closeLink

/-- What happens in the life of a broker, one boundary of the event loop to the
next. A message is also a step of its own, so that a run may stop between the
messages that one event brings. Outside the broker the device may be replugged,
so that its symlinks change. -/
inductive Step where
  | startTurn
  | event (ev : LoopEvent)
  | message (addr : Addr) (msg : Msg)
  | endTurn (peerGone : Addr → Bool)
  | shutdown
  | replug

def step : Step → M ρ Unit
  | .startTurn => startTurn
  | .event ev => handleEvent ev
  | .message addr msg => handleClientMessage addr msg
  | .endTurn peerGone => endTurn peerGone
  | .shutdown => shutdown
  | .replug => Proc.modify fun b => { b with epoch := b.epoch + 1 }

def runSteps (e : Env ρ) (b : Broker ρ) (steps : List Step) : Broker ρ :=
  (Proc.each step steps e b).2

structure Turn where
  events : List LoopEvent
  peerGone : Addr → Bool

def Turn.steps (t : Turn) : List Step :=
  .startTurn :: t.events.map .event ++ [.endTurn t.peerGone]

def brokerLoop : List Turn → M ρ Unit
  | [] => pure ()
  | t :: ts => do
    if (← Proc.get).stopped then pure ()
    else do
      Proc.each step t.steps
      brokerLoop ts

/-- What the command line decides, and what `broker_setup` finds: the descriptors
of the link, when it was opened, and the names of the device. -/
structure Config where
  port : Bytes
  baudrate : Int
  board : Bytes
  role : Bytes
  authToken : Bytes
  weakById : Bool
  logPath : Option Bytes
  textLogPath : Option Bytes
  withMcp : Bool
  profile : DeviceProfile
  fds : Nat × Nat
  queued : Bool
  openedAt : Rat
  openedAtReal : Rat
  byPath : Option Bytes
  byId : Option Bytes

def watchedInit (fds : Nat × Nat) : Int → Option Interest := fun fd =>
  if fd = fds.1 then some ⟨true, false, true⟩
  else if fd = fds.2 then some ⟨false, false, false⟩
  else none

def brokerInit (regex : Regex ρ) (cfg : Config) : Broker ρ where
  expect := Expect.expectInit
  history := RingBuffer.rbInit ringBufferMaxBytes
  anomaly := Anomaly.anomalyAddBuiltins regex Anomaly.anomalyInit
  boot := BootStage.bootInit
  autoresponder := Autoresponder.autoresponderInit
  clients := []
  clientCap := maxClients
  nextClientNum := 0
  takeoverClient := none
  suspended := false
  reconnect := true
  stopped := false
  linkDisconnected := false
  reconnectNext := 0
  reconnectDelayS := 0
  linkConnecting := false
  linkConnectDeadline := 0
  pendingResumeAck := false
  pendingResumeId := []
  lastLinkRxTime := cfg.openedAt
  linkHealthy := true
  brk := ⟨false, .idle, [], [], 0, none, 0, 0⟩
  flood := ⟨false, false, [], 0, none, List.replicate floodTailLen 0, 0, 0, 0, [], [], [], [], false, 0, 0, 0⟩
  stallTimer := false
  stallNotified := false
  port := cfg.port
  baudrate := cfg.baudrate
  board := cfg.board
  role := cfg.role
  identityWeakById := cfg.weakById
  identityByPath := cfg.byPath.elim [] (stored 256)
  identityById :=
    if ascii "by-id" <:+: cfg.port then stored 256 cfg.port else cfg.byId.elim [] (stored 256)
  linkUpTs := cfg.openedAtReal
  bytesRxSinceLinkUp := 0
  logPath := cfg.logPath
  textLogPath := cfg.textLogPath
  authToken := cfg.authToken
  mcp := if cfg.withMcp then some mcpSinkNew else none
  profile := cfg.profile
  historyPending := History.historyPendingClear
  historyTicket := 0
  lastHealthCheck := 0
  link := ⟨cfg.fds.1, cfg.fds.2, cfg.queued⟩
  watched := watchedInit cfg.fds
  resumeTicket := 0
  resumeNext := 0
  connectOwner := none
  epoch := 0
  attempts := 0
  registrations := 0
  queries := 0
  trace := []

def plainEnv : Env Unit where
  codec := JsonText.textCodec
  regex := ⟨fun _ => some (), fun _ _ => (none, ())⟩
  linkKind := ⟨false, false, false, false, false, false, false, false⟩
  mutateEnabled := true
  undef _ := 0
  rc _ := 0
  mem _ := true
  fds _ := (3, 3)
  queued _ := false
  epollMem _ := true
  historyMem _ := .ok
  mono n := n
  real n := n
  clock _ _ := (0, 0)
  text _ := none
  seat _ := none
  filter _ data := data
  status _ := []
  writes _ := []

def plainConfig (authToken : Bytes) : Config where
  port := ascii "/dev/ttyUSB0"
  baudrate := 115200
  board := []
  role := []
  authToken := authToken
  weakById := false
  logPath := none
  textLogPath := none
  withMcp := true
  profile := ⟨[], 5000, ascii "prompt", ascii "# $"⟩
  fds := (3, 3)
  queued := false
  openedAt := 0
  openedAtReal := 0
  byPath := none
  byId := none

def plainInit (authToken : Bytes) : Broker Unit :=
  brokerInit plainEnv.regex (plainConfig authToken)

def plainClient (addr : Addr) (requiresAuth : Bool) : Client :=
  clientNew addr addr addr ⟨addr, true, 0, requiresAuth, 0⟩ 0

end Smolmux.Broker
