import Smolmux.Broker.Hello

/-! The message handlers of the broker and the dispatcher over them. -/

namespace Smolmux.Broker
open Protocol Base64

variable {ρ : Type}

def maxSendB64Len : Nat := (40 * 1024 + 2) / 3 * 4 + 4
def defaultExpectTimeoutMs : Int := 5000
def maxExpectTimeoutMs : Int := 3600000
def listenExpectRate : Int := 8
def listenExpectRateWindowS : Rat := 1

def inputEcho (data sender : Bytes) (exclude : Option Addr) : M ρ Unit := do
  let ts ← nowRealtime
  broadcast (msgInputEcho data sender ts) exclude

def writeErrorText (rc : Int) : String :=
  if rc = -1 then "serial port is suspended"
  else if rc = -2 then "serial port disconnected"
  else "write failed"

def handleSend (c : Client) (root : Json) : M ρ Unit :=
  let id := root.getString "id"
  requireSend c id "not authorized to send" <|
    match root.getString "data" with
    | none => sendError c.addr id "missing data field"
    | some b64 =>
      if maxSendB64Len < b64.length then sendError c.addr id "payload too large"
      else
        match base64Decode b64 with
        | none => sendError c.addr id "invalid base64 data"
        | some data => do
          let rc ← brokerDoWrite data
          if rc = 0 then inputEcho data c.name (some c.addr)
          else sendError c.addr id (writeErrorText rc)

def clampTimeout (ms : Int) : Int := min (max ms 100) maxExpectTimeoutMs

def noteAdded (ticket : Nat) (owner : Option Nat) (id : Bytes) (deadline : Rat) :
    Option Expect.ExpectError → M ρ Unit
  | some _ => pure ()
  | none => do
    emit (.expect (.added ticket owner (stored 64 id) deadline))
    emit (.asked (.expect ticket) (some id))

def addExpect (id pattern : Bytes) (timeoutS : Rat) (clientId : Bytes) (owner : Option Nat) :
    M ρ (Option Expect.ExpectError) := do
  let e ← Proc.env
  let growMem ← ask Env.mem
  let bufMem ← ask Env.mem
  let now ← nowMonotonic
  let eng := (← Proc.get).expect
  let r := Expect.expectAdd e.regex growMem bufMem eng id pattern timeoutS clientId now owner
  Proc.modify fun b => { b with expect := r.1 }
  noteAdded eng.next owner id (now + timeoutS) r.2
  pure r.2

def cancelExpect (id : Bytes) : M ρ Unit := do
  emit (.expect (.withdrawn ((← Proc.get).expect.next - 1) id))
  Proc.modify fun b => { b with expect := Expect.expectCancelId b.expect id }

def sendExpectData (c : Client) (id b64 : Bytes) : M ρ Unit :=
  if maxSendB64Len < b64.length then do
    cancelExpect id
    sendError c.addr (some id) "payload too large"
  else
    match base64Decode b64 with
    | none => do
      cancelExpect id
      sendError c.addr (some id) "invalid base64 data"
    | some data => do
      let rc ← brokerDoWrite data
      if rc < 0 then do
        cancelExpect id
        sendError c.addr (some id) (writeErrorText rc)
      else inputEcho data c.name (some c.addr)

def handleSendExpect (c : Client) (root : Json) : M ρ Unit :=
  let id := root.getString "id"
  requireSend c id "not authorized to send" do
    let b ← Proc.get
    if b.suspended then sendError c.addr id "serial port is suspended"
    else if b.linkDisconnected then sendError c.addr id "serial port disconnected"
    else
      match root.getString "pattern", id with
      | some pattern, some eid => do
        let timeoutMs := clampTimeout (root.getInt "timeout_ms" defaultExpectTimeoutMs)
        match ← addExpect eid pattern (timeoutMs / 1000) c.id (some c.serial) with
        | some err => sendError c.addr id (Expect.expectAddErrstr err)
        | none =>
          match root.getString "data" with
          | none => pure ()
          | some b64 => sendExpectData c eid b64
      | _, _ => sendError c.addr id "missing id or pattern"

def listenExpectLimited (c : Client) : M ρ Bool := do
  let now ← nowMonotonic
  let fresh : Bool := listenExpectRateWindowS ≤ now - c.listenExpectWindowStart
  let count := (if fresh then 0 else c.listenExpectWindowCount) + 1
  updateClient c.addr fun c =>
    { c with
      listenExpectWindowStart := if fresh then now else c.listenExpectWindowStart
      listenExpectWindowCount := count }
  pure (listenExpectRate < count)

def handleListenExpect (c : Client) (root : Json) : M ρ Unit := do
  let id := root.getString "id"
  let b ← Proc.get
  if b.suspended then sendError c.addr id "serial port is suspended"
  else if b.linkDisconnected then sendError c.addr id "serial port disconnected"
  else
    match (root.getString "pattern").filter (· ≠ []), id with
    | some pattern, some eid => do
      let timeoutMs := clampTimeout (root.getInt "timeout_ms" defaultExpectTimeoutMs)
      if ← listenExpectLimited c then sendError c.addr id "listen_expect rate limit"
      else do
        match ← addExpect eid pattern (timeoutMs / 1000) c.id (some c.serial) with
        | some err => sendError c.addr id (Expect.expectAddErrstr err)
        | none => pure ()
    | _, _ => sendError c.addr id "missing id or pattern"

def floodKey (root : Json) : Option Bytes :=
  match (root.getString "key_b64").filter (· ≠ []) with
  | some b64 =>
    match base64Decode b64 with
    | some key => if key = [] ∨ floodKeyMax < key.length then none else some key
    | none => none
  | none =>
    match (root.getString "key").filter (· ≠ []) with
    | some key => some (key.take floodKeyMax)
    | none => some (ascii " ")

def handleInterruptAutoboot (c : Client) (root : Json) : M ρ Unit :=
  let id := root.getString "id"
  requireSend c id "not authorized to send" <|
    match floodKey root with
    | none => sendError c.addr id "invalid key_b64"
    | some key => do
      let rc ← brokerStartFlood {
        key := key
        intervalMs := root.getInt "interval_ms" defaultFloodIntervalMs
        durationMs := root.getInt "duration_ms" defaultFloodDurationMs
        stopPattern := root.getString "stop_pattern"
        clientId := c.id
        msgId := id
        resetPin := root.getString "reset_pin"
        resetAssert := root.getString "reset_assert"
        resetHoldMs := root.getInt "reset_hold_ms" defaultResetHoldMs }
      if rc ≠ 0 then
        sendError c.addr id "autoboot flood rejected (busy, suspended, link down, or bad args)"
      else pure ()

def pinIsLineControl (pin : Bytes) : Bool :=
  pin = ascii "dtr" || pin = ascii "rts" || pin = ascii "break"

def pinBreakDone (c : Client) (id : Option Bytes) : BreakDone :=
  .pin ⟨stored 32 c.id, id.map (stored 64), id, rfl⟩

def schedulePin (c : Client) (id : Option Bytes) (busy : String)
    (schedule : Option BreakDone → M ρ Int) : M ρ Unit := do
  if ← ask Env.mem then do
    let rc ← schedule (some (pinBreakDone c id))
    if rc ≠ 0 then sendError c.addr id busy else pure ()
  else sendError c.addr id "out of memory"

def handlePinControl (c : Client) (root : Json) : M ρ Unit :=
  let id := root.getString "id"
  requireSend c id "not authorized" <|
    match root.getString "pin", root.getString "action" with
    | some pin, some action =>
      if pinIsLineControl pin = false then
        sendError c.addr id "unknown pin (expected dtr, rts, or break)"
      else if action = ascii "reset" ∧ pin ≠ ascii "break" then
        schedulePin c id
          "reset busy or unavailable (suspended, link down, or modem lines not drivable)"
          (brokerScheduleLineReset pin (root.getInt "duration_ms" defaultResetHoldMs))
      else if pin = ascii "break" then
        schedulePin c id "break busy or unavailable"
          (brokerScheduleBreak (root.getInt "duration_ms" 250) [] 0)
      else do
        let rc ← setParam pin action
        if rc ≠ 0 then sendError c.addr id "pin control failed"
        else sendToClient c.addr (msgAck "pin_control" id)
    | _, _ => sendError c.addr id "missing pin or action"

def handleSetBaud (c : Client) (root : Json) : M ρ Unit :=
  let id := root.getString "id"
  requireSend c id "not authorized" do
    let baud := root.getInt "baud" 0
    if baud ≤ 0 then sendError c.addr id "invalid baud rate"
    else do
      let rc ← setParam (ascii "baud") (decimal baud.toNat)
      if rc = 0 then do
        Proc.modify fun b => { b with baudrate := baud }
        sendToClient c.addr ((msgAck "set_baud" id).add "baud" (.num baud))
      else sendError c.addr id "failed to set baud rate"

def handleSuspend (c : Client) (root : Json) : M ρ Unit :=
  let id := root.getString "id"
  requireSend c id "not authorized to suspend" do
    let rc ← brokerDoSuspend c.name
    if rc < 0 then sendError c.addr id "already suspended" else pure ()

def nameResume (rid : Bytes) : M ρ Unit := do
  let b ← Proc.get
  Proc.when b.pendingResumeAck do
    Proc.modify fun b => { b with pendingResumeId := stored 64 rid }
    emit (.resume (.named b.resumeTicket rid))

def handleResume (c : Client) (root : Json) : M ρ Unit :=
  let id := root.getString "id"
  requireSend c id "not authorized to resume" do
    let rc ← brokerDoResume
    if rc = -1 then sendError c.addr id "not suspended"
    else if rc = -2 then sendError c.addr id "failed to reopen serial port"
    else
      match id with
      | some rid => nameResume rid
      | none => pure ()

/-- A request for history is answered at once, or numbered and answered later. -/
def historyAnswer (c : Client) (id : Option Bytes) : Option Json → M ρ Unit
  | some answer => sendToClient c.addr answer
  | none => do
    let ticket := (← Proc.get).historyTicket + 1
    Proc.modify fun b => { b with historyTicket := ticket }
    emit (.asked (.history ticket) id)

def handleHistoryRequest (c : Client) (root : Json) : M ρ Unit := do
  let e ← Proc.env
  let mem ← ask Env.historyMem
  let b ← Proc.get
  let r := History.handleHistoryRequest mem e.undef b.history b.historyPending c.id root
  Proc.modify fun b => { b with historyPending := r.1 }
  historyAnswer c (root.getString "id") r.2

def incidentJson (inc : Anomaly.AnomalyIncident) : Json :=
  .obj [("incident_id", .str inc.id), ("pattern_name", .str inc.patternName),
    ("severity", .str inc.severity), ("timestamp", .num inc.timestamp),
    ("match_text", .str inc.matchText), ("pre_context", .str inc.preContext)]

def brokerIncidentsJson (b : Broker ρ) (sinceTs : Rat) : List Json :=
  (b.anomaly.incidents.filter fun inc =>
    !(decide (0 < sinceTs) && decide (inc.timestamp < sinceTs))).map incidentJson

def handleIncidentsRequest (c : Client) (root : Json) : M ρ Unit := do
  let b ← Proc.get
  let incidents := brokerIncidentsJson b (root.getDouble "since_ts" 0)
  sendToClient c.addr (msgIncidentsResponse ((root.getString "id").getD []) incidents)

def addPatterns (regex : Regex ρ) : Anomaly.AnomalyDetector ρ → List Json →
    Anomaly.AnomalyDetector ρ × Nat
  | det, [] => (det, 0)
  | det, item :: items =>
    match item.getString "name", item.getString "pattern" with
    | some name, some pattern =>
      let severity := (item.getString "severity").getD (ascii "warning")
      let r := Anomaly.anomalyAddPattern regex det name pattern severity
      let rest := addPatterns regex r.1 items
      (rest.1, (if r.2 then 1 else 0) + rest.2)
    | _, _ => addPatterns regex det items

def handleConfigureAnomaly (c : Client) (root : Json) : M ρ Unit :=
  let id := root.getString "id"
  requireSend c id "not authorized" <|
    match root.getArray "patterns" with
    | none => sendError c.addr id "patterns must be an array"
    | some patterns => do
      let e ← Proc.env
      let r := addPatterns e.regex (← Proc.get).anomaly patterns
      Proc.modify fun b => { b with anomaly := r.1 }
      sendToClient c.addr ((msgAck "configure_anomaly" id).add "patterns_added" (.num r.2))

def arResponse (root : Json) : Option Bytes :=
  match (root.getString "response_b64").filter (· ≠ []) with
  | some b64 =>
    match base64Decode b64 with
    | some data => if Autoresponder.arResponseMax < data.length then none else some data
    | none => none
  | none => some (((root.getString "response").getD []).take Autoresponder.arResponseMax)

def handleConfigureAutoresponder (c : Client) (root : Json) : M ρ Unit :=
  let id := root.getString "id"
  let ack := msgAck "configure_autoresponder" id
  requireSend c id "not authorized" <|
    match (root.getString "name").filter (· ≠ []) with
    | none => sendError c.addr id "missing name"
    | some name =>
      if root.getBool "remove" false then do
        let r := Autoresponder.autoresponderRemove (← Proc.get).autoresponder name
        Proc.modify fun b => { b with autoresponder := r.1 }
        sendToClient c.addr (ack.add "removed" (.bool r.2))
      else
        match (root.getString "pattern").filter (· ≠ []) with
        | none => sendError c.addr id "missing pattern"
        | some pattern =>
          match arResponse root with
          | none => sendError c.addr id "invalid response_b64"
          | some response => do
            let e ← Proc.env
            let r := Autoresponder.autoresponderAdd e.regex (← Proc.get).autoresponder name pattern
              response (root.getBool "once" false)
              (root.getInt "cooldown_ms" Autoresponder.arDefaultCooldownMs)
            if r.2 then do
              let owner := if c.name = [] then c.id else c.name
              Proc.modify fun b =>
                { b with autoresponder := Autoresponder.autoresponderSetOwner r.1 name owner }
              sendToClient c.addr (ack.add "name" (.str name))
            else
              sendError c.addr id
                "autoresponder rejected (bad regex, full, or response too long)"

/-- A rule as it is listed; only who may send sees its response. -/
def ruleJson (mayRead : Bool) (r : Autoresponder.ArRule ρ) : Json :=
  .obj [("name", .str r.name), ("pattern", .str r.pattern),
    if mayRead then ("response_b64", .str (base64Encode r.response))
    else ("response_len", .num r.response.length),
    ("created_by", .str r.createdBy), ("once", .bool r.once), ("enabled", .bool r.enabled),
    ("cooldown_ms", .num (truncate (r.cooldownS * 1000)))]

def handleAutorespondersRequest (c : Client) (root : Json) : M ρ Unit := do
  let b ← Proc.get
  let rules := b.autoresponder.rules.map (ruleJson (b.canSend c.addr))
  sendToClient c.addr (msgAutorespondersResponse ((root.getString "id").getD []) rules)

end Smolmux.Broker
