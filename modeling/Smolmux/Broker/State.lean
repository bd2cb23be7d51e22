import Smolmux.Anomaly
import Smolmux.Autoresponder
import Smolmux.BootStage
import Smolmux.ClientFeed
import Smolmux.Expect
import Smolmux.History
import Smolmux.Proc
import Smolmux.WriteQueue

/-! The state of the broker (`broker.h`, `client.h`) and what its functions are
made of: calls of the link, lines queued for clients, timers, removal of a
client. Everything outside the process answers from a tape: each call takes the
next entry, and what the broker does is appended to a trace. Logging to files is
left out. -/

namespace Smolmux

namespace Broker
open Protocol Smolmux.Client

abbrev Addr := Nat

inductive Role where
  | observer | controller
  deriving DecidableEq, Repr

def Role.text : Role → Bytes
  | observer => ascii "observer"
  | controller => ascii "controller"

def Role.ofText (s : Bytes) : Option Role :=
  if s = ascii "observer" then some observer
  else if s = ascii "controller" then some controller
  else none

structure Client where
  /-- Where the object lives; a freed address may be used again. -/
  addr : Addr
  /-- Which registration made the object; the code does not have this number. -/
  serial : Nat
  id : Bytes
  name : Bytes
  role : Role
  helloReceived : Bool
  disconnected : Bool
  connectedAt : Rat
  peerPid : Int
  requiresAuth : Bool
  listenExpectWindowStart : Rat
  listenExpectWindowCount : Int
  readBuf : Bytes
  queue : WriteQueue
  writePending : Bool

inductive BreakState where
  | idle | asserted | delay
  deriving DecidableEq, Repr

/-- `pin_break_ctx_t`: who to answer, and with which id; `asked` is the id as the
request has it. -/
structure PinBreakCtx where
  clientId : Bytes
  msgId : Option Bytes
  asked : Option Bytes
  cut : msgId = asked.map (stored 64)

/-- The completion callbacks with their contexts: `pin_break_done`,
`mcp_break_done` and `mcp_reset_done`. -/
inductive BreakDone where
  | pin (ctx : PinBreakCtx)
  | mcpBreak (jsonrpcId : Option Json) (key : Option UInt8)
  | mcpReset (jsonrpcId : Option Json) (pin : Bytes) (holdMs : Int)

structure BreakMachine where
  timer : Bool
  state : BreakState
  pin : Bytes
  followup : Bytes
  delayMs : Int
  done : Option BreakDone
  current : Nat
  next : Nat

structure Flood (ρ : Type) where
  timer : Bool
  active : Bool
  key : Bytes
  deadline : Rat
  stopRe : Option ρ
  /-- The memory of the rolling window; its first `tailLen` bytes are in use. -/
  tail : Bytes
  tailLen : Nat
  sent : Nat
  start : Rat
  clientId : Bytes
  msgId : Bytes
  resetPin : Bytes
  resetDeassert : Bytes
  resetPending : Bool
  resetDeassertTime : Rat
  current : Nat
  next : Nat

structure DeviceProfile where
  commandPrefix : Bytes
  defaultTimeoutMs : Int
  responseMode : Bytes
  promptPattern : Bytes

structure McpPending where
  jsonrpcId : Json
  expectId : Bytes
  timeoutMode : Bool
  isMonitor : Bool
  monitorStart : Rat

structure McpSink where
  output : Bytes
  outputCap : Nat
  pending : List (Option McpPending)
  nextExpectSeq : Nat
  readBuf : Bytes
  readCap : Nat
  initialized : Bool

inductive McpReply where
  | text (text : Bytes)
  | rendered (tool : String) (data : Json)
  | error (code : Int) (message : String)

inductive LinkOp where
  | writeData (data : Bytes)
  | setParam (key value : Bytes)
  | sendBreak (ms : Int)
  | openLink
  | connectBegin
  | connectPoll
  | closeLink
  | flushWriteQueue
  deriving DecidableEq

structure Interest where
  input : Bool
  output : Bool
  hangup : Bool
  deriving DecidableEq

inductive EpollOp where
  | add | mod | del
  deriving DecidableEq

/-- How a flood fares. `released` is the call of `set_param` that lets go of its
reset line, `fed` a chunk of device output that comes to the stop matcher. -/
inductive FloodNote where
  | requested (ticket : Nat) (stop : Option Bytes)
  | asserted (ticket : Nat) (pin release : Bytes)
  | released (ticket : Nat) (pin value : Bytes) (rc : Int)
  | accepted (ticket : Nat)
  | rejected (ticket : Nat)
  | fed (buf : Bytes)
  | result (ticket : Nat) (isMatched : Bool)

/-- How a resume fares: `sm_broker_do_resume` is entered, its connect is under
way, the client's id is kept for its error, it is answered. An answer says which
resume, if any, the connect was begun for. A suspend may interrupt it. -/
inductive ResumeNote where
  | entered
  | began (ticket : Nat)
  | named (ticket : Nat) (id : Bytes)
  | resumed (ticket : Nat) (connect : Option Nat)
  | failed (ticket : Nat) (id : Bytes) (connect : Option Nat)
  | interrupted (pending : Bool)

/-- How an expect fares. The owner is the client that asked, or none for the MCP
sink; `withdrawn` is the cancel of a handler that answers with an error. -/
inductive ExpectNote where
  | added (ticket : Nat) (owner : Option Nat) (id : Bytes) (deadline : Rat)
  | withdrawn (ticket : Nat) (id : Bytes)
  | result (ticket : Nat) (owner : Option Nat) (isMatched aborted : Bool)
  | collected (now : Rat) (count : Nat)

inductive McpNote where
  | deferred (id : Json)
  | answered (id : Json)
  | full

/-- How a boot fares: it starts over, a stage is announced, the stall timer is heard while
a connect is under way or not, and a stall is told while the link is up or not. -/
inductive BootNote where
  | restarted
  | announced (stage : Nat)
  | expired (connecting : Bool)
  | stalled (up : Bool)
  deriving DecidableEq

inductive Waiting where
  | expect (ticket : Nat)
  | pin (ticket : Nat)
  | flood (ticket : Nat)
  | resume (ticket : Nat)
  | history (ticket : Nat)
  deriving DecidableEq

/-- What the broker did. `requested` to `callback` say how requests for a break or
a reset fare; `deasserted` is the call of `set_param` that clears the line. A request
that has to wait is noted with its id, and so is the message that answers it. -/
inductive Event where
  | link (op : LinkOp) (rc : Int)
  | epoll (op : EpollOp) (fd : Int) (interest : Interest) (rc : Int)
  | sent (serial : Nat) (broadcast : Bool) (msg : Json)
  | registered (serial : Nat) (requiresAuth : Bool)
  | removed (serial : Nat)
  | dispatched (serial : Nat) (msg : Msg)
  | applied (reported serial : Nat)
  | mcpReply (id : Option Json) (reply : McpReply)
  | requested (ticket : Nat)
  | asserted (ticket : Nat) (pin : Bytes)
  | deasserted (ticket : Nat) (pin : Bytes) (rc : Int)
  | accepted (ticket : Nat) (callback : Bool)
  | rejected (ticket : Nat)
  | callback (ticket : Nat) (rc : Int)
  | flood (note : FloodNote)
  | resume (note : ResumeNote)
  | expect (note : ExpectNote)
  | mcp (note : McpNote)
  | boot (note : BootNote)
  | recorded (data : Bytes)
  | linkUp (seat : Option Bytes)
  | asked (request : Waiting) (id : Option Bytes)
  | reply (request : Waiting) (msg : Json)

/-- What the broker can ask of its link at any time: its descriptors, negative
when it is closed, and whether bytes wait in its write queue. -/
structure LinkState where
  fd : Int
  writeFd : Int
  pending : Bool
  deriving DecidableEq

def LinkState.closed : LinkState := ⟨-1, -1, false⟩

end Broker

open Broker in
structure Broker (ρ : Type) where
  expect : Expect.ExpectEngine ρ
  history : RingBuffer.Ring Rat
  anomaly : Anomaly.AnomalyDetector ρ
  boot : BootStage.BootTracker ρ
  autoresponder : Autoresponder ρ
  clients : List Client
  clientCap : Nat
  nextClientNum : Nat
  takeoverClient : Option Addr
  suspended : Bool
  reconnect : Bool
  stopped : Bool
  linkDisconnected : Bool
  reconnectNext : Rat
  reconnectDelayS : Int
  linkConnecting : Bool
  linkConnectDeadline : Rat
  pendingResumeAck : Bool
  pendingResumeId : Bytes
  lastLinkRxTime : Rat
  linkHealthy : Bool
  brk : BreakMachine
  flood : Flood ρ
  stallTimer : Bool
  stallNotified : Bool
  port : Bytes
  baudrate : Int
  board : Bytes
  role : Bytes
  identityWeakById : Bool
  identityByPath : Bytes
  identityById : Bytes
  linkUpTs : Rat
  bytesRxSinceLinkUp : Nat
  logPath : Option Bytes
  textLogPath : Option Bytes
  authToken : Bytes
  mcp : Option McpSink
  profile : DeviceProfile
  historyPending : History.HistoryPending
  historyTicket : Nat
  lastHealthCheck : Rat
  link : LinkState
  watched : Int → Option Interest
  /-- The resume that waits for its connect, the next one, and the resume that the
  connect in progress was begun for; for the trace. -/
  resumeTicket : Nat
  resumeNext : Nat
  connectOwner : Option Nat
  epoch : Nat
  /-- Number of registrations that were tried and that were made, entries of the
  tape used, and the trace. -/
  attempts : Nat
  registrations : Nat
  queries : Nat
  trace : List Event

namespace Broker
open Protocol Smolmux.Client

structure LinkKind where
  hasWriteFd : Bool
  hasWritePending : Bool
  hasFlush : Bool
  hasConnectBegin : Bool
  hasConnectPoll : Bool
  hasFilterRx : Bool
  silenceNormal : Bool
  /-- Operations other than `write_data` also send bytes through the write queue. -/
  queuesParams : Bool

/-- The world outside: libraries that compute, and a tape of answers. -/
structure Env (ρ : Type) where
  codec : Codec
  regex : Regex ρ
  linkKind : LinkKind
  mutateEnabled : Bool
  undef : Rat → Nat
  rc : Nat → Int
  mem : Nat → Bool
  /-- Descriptors of a link that opens, whether a write leaves bytes in the queue,
  and whether the epoll set has room. -/
  fds : Nat → Nat × Nat
  queued : Nat → Bool
  epollMem : Nat → Bool
  historyMem : Nat → History.HistoryAlloc
  mono : Nat → Rat
  real : Nat → Rat
  clock : Nat → Nat → Nat × Nat
  text : Nat → Option Bytes
  seat : Nat → Option Bytes
  filter : Nat → Bytes → Bytes
  status : Nat → List (String × Json)
  writes : Nat → List WriteResult

abbrev M (ρ α : Type) := Proc (Env ρ) (Broker ρ) α

variable {ρ α : Type}

def ask (f : Env ρ → Nat → α) : M ρ α :=
  fun e b => (f e b.queries, { b with queries := b.queries + 1 })

def noted (b : Broker ρ) (ev : Event) : Broker ρ := { b with trace := b.trace ++ [ev] }

def emit (ev : Event) : M ρ Unit := Proc.modify (·.noted ev)

def nowMonotonic : M ρ Rat := ask Env.mono

def nowRealtime : M ρ Rat := ask Env.real

def LinkOp.needsOpen : LinkOp → Bool
  | .writeData _ | .setParam .. | .sendBreak _ | .flushWriteQueue => true
  | _ => false

def LinkState.after (kind : LinkKind) (fds : Nat × Nat) (queued : Bool) (op : LinkOp) (rc : Int)
    (s : LinkState) : LinkState :=
  match op with
  | .writeData data =>
    if rc < 0 ∨ data = [] then s else { s with pending := s.pending || queued }
  | .setParam .. | .sendBreak _ =>
    if rc < 0 then s else { s with pending := s.pending || (kind.queuesParams && queued) }
  | .flushWriteQueue => if rc = 0 then { s with pending := false } else s
  | .openLink => if rc = 0 then ⟨fds.1, fds.2, kind.queuesParams && queued⟩ else .closed
  | .connectBegin => if rc < 0 then .closed else ⟨fds.1, fds.2, kind.queuesParams && queued⟩
  | .connectPoll => s
  | .closeLink => .closed

def unwatched (b : Broker ρ) (op : LinkOp) : Int → Option Interest := fun fd =>
  if op = .closeLink ∧ (fd = b.link.fd ∨ fd = b.link.writeFd) then none else b.watched fd

def afterLink (e : Env ρ) (b : Broker ρ) (op : LinkOp) (rc : Int) : Broker ρ :=
  { b with
    link := b.link.after e.linkKind (e.fds b.queries) (e.queued b.queries) op rc
    watched := b.unwatched op }

def callLinkAs (op : LinkOp) (ev : Int → Event) : M ρ Int := do
  let e ← Proc.env
  let b ← Proc.get
  let rc ← ask Env.rc
  let rc := if op.needsOpen ∧ b.link.fd < 0 then -1 else rc
  Proc.modify (·.afterLink e op rc)
  emit (ev rc)
  return rc

def callLink (op : LinkOp) : M ρ Int := callLinkAs op (.link op)

def setParam (key value : Bytes) : M ρ Int := callLink (.setParam key value)

def epollCtl (op : EpollOp) (fd : Int) (interest : Interest) : M ρ Int := do
  let rc ← ask Env.rc
  emit (.epoll op fd interest rc)
  return rc

def enoent : Int := -2
def eexist : Int := -17
def enospc : Int := -28

def epollAnswer (room : Bool) (old : Option Interest) : EpollOp → Int
  | .add => if old.isSome then eexist else if room then 0 else enospc
  | .mod | .del => if old.isSome then 0 else enoent

def linkEpollCtl (op : EpollOp) (fd : Int) (interest : Interest) : M ρ Int := do
  let room ← ask Env.epollMem
  let rc := epollAnswer room ((← Proc.get).watched fd) op
  Proc.modify fun b =>
    if rc = 0 then
      { b with
        watched := Function.update b.watched fd (if op = .del then none else some interest) }
    else b
  emit (.epoll op fd interest rc)
  return rc

def clientAt (b : Broker ρ) (a : Addr) : Option Client := b.clients.find? (·.addr == a)

def updateClient (a : Addr) (f : Client → Client) : M ρ Unit :=
  Proc.modify fun b =>
    { b with clients := b.clients.map fun c => if c.addr = a then f c else c }

def isClientLive (b : Broker ρ) (a : Addr) : Bool := b.clients.any (·.addr == a)

def sendToClient (a : Addr) (msg : Json) : M ρ Unit := do
  let e ← Proc.env
  let mem ← ask Env.mem
  match (← Proc.get).clientAt a with
  | none => pure ()
  | some c =>
    emit (.sent c.serial false msg)
    updateClient a fun c => { c with queue := (clientSend e.codec mem c.queue msg).1 }

def sendError (a : Addr) (id : Option Bytes) (message : String) : M ρ Unit :=
  sendToClient a (msgError id (ascii message))

def sendShared (msg : Json) (exclude : Option Addr) (c : Client) : M ρ Unit :=
  if some c.addr = exclude ∨ c.helloReceived = false then pure ()
  else do
    let e ← Proc.env
    let mem ← ask Env.mem
    emit (.sent c.serial true msg)
    updateClient c.addr fun c =>
      { c with queue := (clientSendShared e.codec mem c.queue (msgEncode e.codec msg)).1 }

/-- `sm_broker_broadcast_clients`: nothing happens when the line or its shared
copy cannot be allocated. -/
def broadcast (msg : Json) (exclude : Option Addr) : M ρ Unit := do
  let line ← ask Env.mem
  if line then do
    let b ← Proc.get
    Proc.each (sendShared msg exclude) b.clients
  else pure ()

def dropClient (clients : List Client) (a : Addr) : List Client :=
  match clients.findIdx? (·.addr == a) with
  | some i => swapRemove clients i
  | none => clients

def flushClient (a : Addr) : M ρ FlushResult := do
  let results ← ask Env.writes
  match (← Proc.get).clientAt a with
  | none => pure .done
  | some c => do
    updateClient a fun c => { c with queue := (clientFlush results c.queue).1 }
    pure (clientFlush results c.queue).2.1

def removeClient (a : Addr) : M ρ Unit := do
  match (← Proc.get).clientAt a with
  | none => pure ()
  | some c =>
    Proc.modify fun b =>
      { b with
        expect := Expect.expectCancelClient b.expect c.id
        takeoverClient := if b.takeoverClient = some a then none else b.takeoverClient
        clients := dropClient b.clients a }
    emit (.removed c.serial)

def canSend (b : Broker ρ) (a : Addr) : Bool :=
  match b.clientAt a with
  | none => false
  | some c =>
    if c.role = .observer then false
    else
      match b.takeoverClient with
      | some t => t == a
      | none => true

end Broker

end Smolmux
