import Smolmux.Broker.Handlers

/-! The status of the broker as clients and MCP tools see it, and the dispatcher
of client messages. -/

namespace Smolmux.Broker
open Protocol

variable {ρ : Type}

def isHexDigit (c : UInt8) : Bool :=
  (48 ≤ c && c ≤ 57) || (65 ≤ c && c ≤ 70) || (97 ≤ c && c ≤ 102)

def hasHexRun : (run : Nat) → Bytes → Bool
  | _, [] => false
  | run, c :: cs =>
    if isHexDigit c then if 6 ≤ run + 1 then true else hasHexRun (run + 1) cs
    else hasHexRun 0 cs

def serialByIdIsWeak (path : Bytes) : Bool :=
  let base := (path.splitOn 47).getLast?.getD []
  path ≠ [] && (decide (ascii "by-id" <:+: path) || base.take 4 == ascii "usb-") &&
    !hasHexRun 0 base

def identityStrength (b : Broker ρ) : Bytes :=
  let id := if b.identityById = [] then b.port else b.identityById
  if b.identityWeakById || serialByIdIsWeak id then ascii "WEAK"
  else if ascii "by-id" <:+: id ∨ id.take 4 = ascii "usb-" then ascii "STRONG"
  else ascii "n/a"

def clientJson (c : Client) : Json :=
  let base := [("id", Json.str c.id), ("name", .str c.name), ("role", .str c.role.text)]
  let pid := if 0 < c.peerPid then [("pid", Json.num c.peerPid)] else []
  .obj (base ++ pid ++ [("wq_drops", .num c.queue.drops), ("wq_count", .num c.queue.count)])

def stageJson (st : BootStage ρ) : Json :=
  .obj ([("name", .str st.name), ("reached", .bool st.reached)] ++
    if st.reached then [("timestamp", .num st.reachedTs)] else [])

def bootJson (t : BootStage.BootTracker ρ) (now : Rat) : Json :=
  .obj [("furthest", .num t.furthest), ("total", .num t.stages.length),
    ("stalled", .bool (BootStage.bootStalled t now)),
    ("terminal_reached", .bool (BootStage.bootTerminalReached t)),
    ("stages", .arr (t.stages.map stageJson))]

def mergeLinkStatus (resp : Json) (linkStatus : List (String × Json)) : Json :=
  linkStatus.foldl
    (fun resp f => if (resp.item f.1).isSome then resp else resp.add f.1 f.2) resp

def brokerStatusJson (id : Option Bytes) : M ρ Json := do
  let b ← Proc.get
  let now ← nowMonotonic
  let linkStatus ← ask Env.status
  let wall ← nowRealtime
  let holder := b.takeoverClient.bind b.clientAt
  let resp := msgStatusResponse (id.getD []) b.port b.baudrate (0 ≤ b.link.fd) b.suspended
  let resp := resp.add "clients" (.arr (b.clients.map clientJson))
  let resp := resp.add "takeover_client" (holder.elim .null fun c => .str c.name)
  let resp := (resp.add "board" (.str b.board)).add "role" (.str b.role)
  let resp := resp.add "link_up_ts" (.num b.linkUpTs)
  let resp := resp.add "last_rx_age_ms" (.num (max ((now - b.lastLinkRxTime) * 1000) 0))
  let resp := resp.add "bytes_rx_since_link_up" (.num b.bytesRxSinceLinkUp)
  let resp := resp.add "identity_weak" (.bool b.identityWeakById)
  let resp := resp.add "identity_strength" (.str (identityStrength b))
  let resp := resp.add "identity_by_id" (.str b.identityById)
  let resp := resp.add "identity_by_path" (.str b.identityByPath)
  let resp := (mergeLinkStatus resp linkStatus).add "link" (.obj linkStatus)
  let resp := (resp.addString "log_path" b.logPath).addString "text_log_path"
    (b.textLogPath.filter (· ≠ []))
  pure (if b.boot.stages = [] then resp else resp.add "boot" (bootJson b.boot wall))

def handleStatus (c : Client) (root : Json) : M ρ Unit := do
  let resp ← brokerStatusJson (root.getString "id")
  sendToClient c.addr resp

def dispatchMessage (c : Client) (type : MsgType) (root : Json) : M ρ Unit :=
  match type with
  | .hello => handleHello c root
  | .send => handleSend c root
  | .sendExpect => handleSendExpect c root
  | .listenExpect => handleListenExpect c root
  | .takeover => handleTakeover c root
  | .release => handleRelease c root
  | .status => handleStatus c root
  | .pinControl => handlePinControl c root
  | .setBaud => handleSetBaud c root
  | .suspend => handleSuspend c root
  | .resume => handleResume c root
  | .historyRequest => handleHistoryRequest c root
  | .incidentsRequest => handleIncidentsRequest c root
  | .configureAnomaly => handleConfigureAnomaly c root
  | .configureAutoresponder => handleConfigureAutoresponder c root
  | .autorespondersRequest => handleAutorespondersRequest c root
  | .interruptAutoboot => handleInterruptAutoboot c root
  | _ => sendError c.addr (root.getString "id") "unknown message type"

/-- A client that has not said hello is only listened to for that. -/
def handleClientMessage (a : Addr) (msg : Msg) : M ρ Unit := do
  match (← Proc.get).clientAt a with
  | none => pure ()
  | some c => do
    emit (.dispatched c.serial msg)
    if c.helloReceived = false ∧ msg.type ≠ .hello then sendError a none "hello required"
    else dispatchMessage c msg.type (msg.root.getD .null)

end Smolmux.Broker
