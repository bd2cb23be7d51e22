import Smolmux.Broker.Dispatch

/-! The tools of the in-process MCP sink (`mcp_tools.c`) and the messages it reads
from its input (`mcp.c`). A tool answers at once or leaves the answer to an
expect or to the BREAK machine. The texts that `mcp_results.c` renders from a
status, a history page or a list are left as that data. -/

namespace Smolmux.Broker
open Protocol

variable {ρ : Type}

abbrev ToolResult := Option McpReply

def toolText (text : String) : ToolResult := some (.text (ascii text))

def mutateTools : List String :=
  ["serial_send_command", "serial_write", "serial_add_autoresponder", "serial_pin_control",
   "serial_reset", "serial_sysrq", "serial_suspend", "serial_resume", "serial_add_watchdog"]

def mcpToolIsMutate (name : Bytes) : Bool := mutateTools.any fun tool => ascii tool == name

def mcpAddExpect (pattern : Bytes) (timeoutS : Rat) (failed : String) : M ρ (Except McpReply Bytes) := do
  match (← Proc.get).mcp with
  | none => pure (.error (.text (ascii failed)))
  | some mcp => do
    let id := (mcpGenExpectId mcp).1
    updateMcp fun mcp => (mcpGenExpectId mcp).2
    match ← addExpect id pattern timeoutS mcpClientId none with
    | some err => pure (.error (.text (ascii (failed ++ Expect.expectAddErrstr err))))
    | none => pure (.ok id)

def mcpWait (jsonrpcId : Option Json) (call : Json → McpPending) : M ρ Bool := do
  match (← Proc.get).mcp.bind fun mcp => mcpAllocPending mcp jsonrpcId call with
  | none => do
    emit (.mcp .full)
    pure false
  | some mcp => do
    updateMcp fun _ => mcp
    pure true

def linkOpen : M ρ Bool := do
  pure (0 ≤ (← Proc.get).link.fd)

def eolBytes (eol : Option Bytes) : Option Bytes :=
  match eol.filter (· ≠ []) with
  | none => some [10]
  | some eol =>
    if eol = ascii "cr" then some [13]
    else if eol = ascii "crlf" then some [13, 10]
    else if eol = ascii "lf" then some [10]
    else none

def commandBytes (profile : DeviceProfile) (command ending : Bytes) : Option Bytes :=
  let cmd := profile.commandPrefix ++ command
  if 4096 ≤ cmd.length then none
  else
    let cmd := cmd.rdropWhile fun c => c == 10 || c == 13
    if 4096 ≤ cmd.length + ending.length then none else some (cmd ++ ending)

def runCommand (cmd pattern : Bytes) (timeoutMs : Int) (timeoutMode : Bool)
    (jsonrpcId : Option Json) : M ρ ToolResult := do
  match ← mcpAddExpect pattern (timeoutMs / 1000) "[ERROR] " with
  | .error reply => pure (some reply)
  | .ok id => do
    let rc ← brokerDoWrite cmd
    if rc < 0 then do
      cancelExpect id
      pure (toolText "[ERROR] write failed")
    else do
      inputEcho cmd (ascii "mcp") none
      if ← mcpWait jsonrpcId fun j => ⟨j, id, timeoutMode, false, 0⟩ then pure none
      else do
        Proc.modify fun b =>
          { b with expect := Expect.expectCancelClient b.expect mcpClientId }
        pure (toolText "[ERROR] too many pending calls")

def toolSerialSendCommand (args : Json) (jsonrpcId : Option Json) : M ρ ToolResult := do
  let b ← Proc.get
  match args.getString "command" with
  | none => pure (toolText "[ERROR] missing 'command' argument")
  | some command =>
    if 4096 ≤ (b.profile.commandPrefix ++ command).length then
      pure (toolText "[ERROR] command too long")
    else
      let asked := args.getInt "timeout_ms" 0
      let timeoutMs := if asked ≤ 0 then b.profile.defaultTimeoutMs else asked
      let byTime : Bool := b.profile.responseMode = ascii "timeout"
      let (pattern, timeoutMode) :=
        match (args.getString "expect_pattern").filter (· ≠ []) with
        | some pattern => (pattern, false)
        | none => if byTime then (ascii "^\\b$", true) else (b.profile.promptPattern, false)
      match eolBytes (args.getString "eol") with
      | none => pure (toolText "[ERROR] eol must be lf, cr, or crlf")
      | some ending =>
        match commandBytes b.profile command ending with
        | none => pure (toolText "[ERROR] command too long")
        | some cmd => do
          if b.suspended then pure (toolText "[ERROR] serial port is suspended")
          else if b.linkDisconnected then pure (toolText "[ERROR] serial port disconnected")
          else if ← linkOpen then runCommand cmd pattern timeoutMs timeoutMode jsonrpcId
          else pure (toolText "[ERROR] serial port not connected")

def toolSerialRead : M ρ ToolResult := do
  match (← Proc.get).mcp with
  | none => pure none
  | some mcp => do
    let text ← mcpDrainOutput mcp
    pure (some (.text text))

def toolSerialWrite (args : Json) : M ρ ToolResult := do
  match args.getString "data" with
  | none => pure (toolText "[ERROR] missing 'data' argument")
  | some data => do
    let rc ← brokerDoWrite data
    if rc < 0 then pure (toolText ("[ERROR] " ++ writeErrorText rc))
    else do
      inputEcho data (ascii "mcp") none
      pure (toolText "OK")

def toolStatus (tool : String) : M ρ ToolResult := do
  let status ← brokerStatusJson none
  pure (some (.rendered tool status))

def toolSerialAddAutoresponder (args : Json) : M ρ ToolResult := do
  match args.getString "name", args.getString "pattern", args.getString "send" with
  | some name, some pattern, some send => do
    let e ← Proc.env
    let once := args.getBool "once" false
    let response := strUnescape Autoresponder.arResponseMax send
    let r := Autoresponder.autoresponderAdd e.regex (← Proc.get).autoresponder name pattern
      response once (args.getInt "cooldown_ms" Autoresponder.arDefaultCooldownMs)
    Proc.modify fun b => { b with autoresponder := r.1 }
    if r.2 then
      pure (some (.text (stored 384 (ascii "Autoresponder '" ++ name ++ ascii "' added (pattern=/" ++
        pattern ++ ascii "/, " ++ decimal response.length ++ ascii " bytes" ++
        (if once then ascii ", once" else []) ++ ascii ")"))))
    else
      pure (toolText "[ERROR] autoresponder rejected (bad regex, full, or response too long)")
  | _, _, _ => pure (toolText "[ERROR] missing name, pattern, or send")

def mcpScheduleBreak (durationMs : Int) (followup : Bytes) (delayMs : Int) (done : BreakDone) :
    M ρ ToolResult := do
  if ← ask Env.mem then do
    let rc ← brokerScheduleBreak durationMs followup delayMs (some done)
    pure (if rc ≠ 0 then toolText "[ERROR] break busy or unavailable" else none)
  else pure (toolText "[ERROR] out of memory")

def toolSerialPinControl (args : Json) (jsonrpcId : Option Json) : M ρ ToolResult := do
  match args.getString "pin", args.getString "action" with
  | some pin, some action =>
    if pinIsLineControl pin = false then
      pure (toolText "[ERROR] unknown pin (expected dtr, rts, or break)")
    else if pin = ascii "break" then
      mcpScheduleBreak (args.getInt "duration_ms" 250) [] 0 (.mcpBreak jsonrpcId none)
    else do
      let rc ← setParam pin (if action = ascii "send" then ascii "pulse" else action)
      pure (if rc = 0 then toolText "OK" else toolText "[ERROR] pin control failed")
  | _, _ => pure (toolText "[ERROR] missing pin or action")

def toolSerialSysrq (args : Json) (jsonrpcId : Option Json) : M ρ ToolResult :=
  match args.getString "key" with
  | some (key :: _) =>
    mcpScheduleBreak (args.getInt "break_duration_ms" 500) [key] (args.getInt "delay_ms" 100)
      (.mcpBreak jsonrpcId (some key))
  | _ => pure (toolText "[ERROR] missing 'key' argument")

def toolSerialSuspend : M ρ ToolResult := do
  let rc ← brokerDoSuspend (ascii "mcp")
  let b ← Proc.get
  pure (if rc < 0 then toolText "[ERROR] already suspended"
    else some (.text (stored 512 (ascii "OK - serial port " ++ b.port ++
      ascii " released. Use serial_resume() when done."))))

def toolSerialResume : M ρ ToolResult := do
  let rc ← brokerDoResume
  pure (if rc = -1 then toolText "[ERROR] not suspended"
    else if rc = -2 then toolText "[ERROR] failed to reopen serial port"
    else toolText "OK - serial port re-acquired.")

def resetWait (pattern : Bytes) (waitMs : Int) (jsonrpcId : Option Json) : M ρ ToolResult := do
  match ← mcpAddExpect pattern (waitMs / 1000)
    "[ERROR] reset started, but wait_pattern rejected: " with
  | .error reply => pure (some reply)
  | .ok id => do
    if ← mcpWait jsonrpcId fun j => ⟨j, id, false, false, 0⟩ then pure none
    else do
      cancelExpect id
      pure (toolText "[ERROR] reset started, but too many pending calls")

def toolSerialReset (args : Json) (jsonrpcId : Option Json) : M ρ ToolResult := do
  let pin := ((args.getString "pin").filter (· ≠ [])).getD (ascii "rts")
  if pin ≠ ascii "rts" ∧ pin ≠ ascii "dtr" then pure (toolText "[ERROR] pin must be rts or dtr")
  else do
    let holdMs := min (max (args.getInt "hold_ms" defaultResetHoldMs) 1) maxResetHoldMs
    let waitPattern := (args.getString "wait_pattern").filter (· ≠ [])
    let waitMs := clampTimeout (args.getInt "timeout_ms" 10000)
    if ← ask Env.mem then do
      let answers := if waitPattern.isSome then none else jsonrpcId
      let rc ← brokerScheduleLineReset pin holdMs (some (.mcpReset answers (stored 4 pin) holdMs))
      if rc ≠ 0 then
        pure (toolText "[ERROR] reset busy or unavailable (suspended, link down, or modem lines not drivable)")
      else
        match waitPattern with
        | none => pure none
        | some pattern => resetWait pattern waitMs jsonrpcId
    else pure (toolText "[ERROR] out of memory")

def mcpListen (pattern : Bytes) (timeoutS : Rat) (jsonrpcId : Option Json)
    (call : Bytes → Json → McpPending) (full : Bytes → M ρ Unit) : M ρ ToolResult := do
  let b ← Proc.get
  if b.suspended then pure (toolText "[ERROR] serial port is suspended")
  else if ← linkOpen then do
    match ← mcpAddExpect pattern timeoutS "[ERROR] " with
    | .error reply => pure (some reply)
    | .ok id => do
      if ← mcpWait jsonrpcId (call id) then pure none
      else do
        full id
        pure (toolText "[ERROR] too many pending calls")
  else pure (toolText "[ERROR] serial port not connected")

def toolSerialWaitFor (args : Json) (jsonrpcId : Option Json) : M ρ ToolResult :=
  match (args.getString "pattern").filter (· ≠ []) with
  | none => pure (toolText "[ERROR] missing 'pattern' argument")
  | some pattern =>
    mcpListen pattern (clampTimeout (args.getInt "timeout_ms" 30000) / 1000) jsonrpcId
      (fun id j => ⟨j, id, false, false, 0⟩) cancelExpect

def mcpSinceSeq (undef : Rat → Nat) (q : Rat) : Nat :=
  if q < 0 then undef q else History.seqOfDouble undef q

def toolSerialOutputHistory (args : Json) : M ρ ToolResult := do
  let e ← Proc.env
  let b ← Proc.get
  match args.getNumber "since_seq" with
  | some q =>
    pure (some (.rendered "serial_output_history"
      (History.historyJsonPage b.history (mcpSinceSeq e.undef q) (args.getInt "max_bytes" 0))))
  | none => do
    let mem ← ask Env.mem
    let now ← nowRealtime
    let seconds := args.getDouble "seconds" 0
    let lastBytes := args.getInt "last_bytes" 0
    let chunks :=
      if 0 < lastBytes then RingBuffer.rbGetLastNBytes mem b.history lastBytes.toNat
      else if 0 < seconds then
        RingBuffer.rbGetSince mem (fun a b => b ≤ a) b.history (now - seconds)
      else RingBuffer.rbGetAll mem b.history
    let text := (chunks.flatMap (·.data)).filter (· ≠ 0)
    pure (some (.text (if text = [] then ascii "(no output in history)" else text)))

def toolSerialGetIncidents (args : Json) : M ρ ToolResult := do
  let now ← nowRealtime
  let seconds := args.getDouble "seconds" 0
  let incidents := brokerIncidentsJson (← Proc.get) (if 0 < seconds then now - seconds else 0)
  pure (some (.rendered "serial_get_incidents" (.arr incidents)))

def toolSerialAddWatchdog (args : Json) : M ρ ToolResult := do
  let severity := (args.getString "severity").getD (ascii "warning")
  match args.getString "name", args.getString "pattern" with
  | some name, some pattern => do
    let e ← Proc.env
    let r := Anomaly.anomalyAddPattern e.regex (← Proc.get).anomaly name pattern severity
    Proc.modify fun b => { b with anomaly := r.1 }
    if r.2 then
      pure (some (.text (stored 256 (ascii "Watchdog '" ++ name ++ ascii "' added (severity=" ++
        severity ++ ascii ", pattern=" ++ pattern ++ ascii ")"))))
    else pure (toolText "[ERROR] invalid regex pattern")
  | _, _ => pure (toolText "[ERROR] missing name or pattern")

def toolSerialMonitor (args : Json) (jsonrpcId : Option Json) : M ρ ToolResult := do
  let duration := max (min (args.getInt "duration_seconds" 30) 300) 1
  let start ← nowRealtime
  mcpListen (ascii "^\\b$") duration jsonrpcId (fun id j => ⟨j, id, false, true, start⟩) fun _ =>
    Proc.modify fun b => { b with expect := Expect.expectCancelClient b.expect mcpClientId }

def toolSerialGenerateReport : M ρ ToolResult := do
  let mem ← ask Env.mem
  let b ← Proc.get
  let recent := (RingBuffer.rbGetLastNBytes mem b.history 32768).flatMap (·.data)
  pure (some (.rendered "serial_generate_report" (.obj
    [("port", .str b.port), ("baud", .num b.baudrate), ("connected", .bool (0 ≤ b.link.fd)),
     ("clients", .num b.clients.length), ("prompt", .str b.profile.promptPattern),
     ("response_mode", .str b.profile.responseMode),
     ("command_prefix", .str b.profile.commandPrefix),
     ("incidents", .arr (b.anomaly.incidents.map incidentJson)),
     ("output", .str (recent.filter (· ≠ 0)))])))

def runTool (name : Bytes) (args : Json) (jsonrpcId : Option Json) : M ρ ToolResult :=
  if name = ascii "serial_send_command" then toolSerialSendCommand args jsonrpcId
  else if name = ascii "serial_read" then toolSerialRead
  else if name = ascii "serial_write" then toolSerialWrite args
  else if name = ascii "serial_port_status" then toolStatus "serial_port_status"
  else if name = ascii "serial_boot_status" then toolStatus "serial_boot_status"
  else if name = ascii "serial_add_autoresponder" then toolSerialAddAutoresponder args
  else if name = ascii "serial_pin_control" then toolSerialPinControl args jsonrpcId
  else if name = ascii "serial_reset" then toolSerialReset args jsonrpcId
  else if name = ascii "serial_sysrq" then toolSerialSysrq args jsonrpcId
  else if name = ascii "serial_suspend" then toolSerialSuspend
  else if name = ascii "serial_resume" then toolSerialResume
  else if name = ascii "serial_wait_for" then toolSerialWaitFor args jsonrpcId
  else if name = ascii "serial_output_history" then toolSerialOutputHistory args
  else if name = ascii "serial_get_incidents" then toolSerialGetIncidents args
  else if name = ascii "serial_add_watchdog" then toolSerialAddWatchdog args
  else if name = ascii "serial_monitor" then toolSerialMonitor args jsonrpcId
  else if name = ascii "serial_generate_report" then toolSerialGenerateReport
  else if name = ascii "serial_list_ports" then pure (some (.rendered "serial_list_ports" .null))
  else pure (some (.text (stored 256 (ascii "[ERROR] unknown tool: " ++ name))))

/-- Tools that change something need leave to do so, and give way to a client
that has taken over. -/
def mcpToolDispatch (name : Bytes) (args : Json) (jsonrpcId : Option Json) : M ρ ToolResult := do
  let e ← Proc.env
  let b ← Proc.get
  if mcpToolIsMutate name ∧ e.mutateEnabled = false then
    pure (toolText "[ERROR] mutate tools disabled (set SMOLMUX_MCP_MUTATE=1)")
  else if mcpToolIsMutate name ∧ b.takeoverClient.isSome then
    pure (toolText "[ERROR] another client holds takeover")
  else runTool name args jsonrpcId

def noteDeferred (id : Option Json) : M ρ Unit :=
  match id with
  | some id => emit (.mcp (.deferred id))
  | none => pure ()

def handleToolsCall (id : Option Json) (params : Json) : M ρ Unit := do
  match params.getString "name" with
  | none => emit (.mcpReply id (.error (-32602) "missing tool name"))
  | some name => do
    match ← mcpToolDispatch name ((params.item "arguments").getD (.obj [])) id with
    | some reply => emit (.mcpReply id reply)
    | none => noteDeferred id

end Smolmux.Broker
