import Smolmux.Broker.BreakMachine

/-! The state of the in-process MCP sink (`mcp.c`): device output kept for
`serial_read`, and calls that wait for an expect. Replies are the texts before
recent incidents and explanations are added to them. -/

namespace Smolmux.Broker
open Protocol

def mcpClientId : Bytes := ascii "mcp"

def mcpMaxPendingCalls : Nat := 64

def mcpOutputBufferMax : Nat := 1024 * 1024

def mcpReadBufMax : Nat := 1024 * 1024

variable {ρ : Type}

def mcpSinkNew : McpSink := ⟨[], 8192, List.replicate mcpMaxPendingCalls none, 0, [], 8192, false⟩

def growTo (need max : Nat) : (fuel cap : Nat) → Nat
  | 0, cap => cap
  | fuel + 1, cap =>
    if cap < need ∧ cap < max then growTo need max fuel (min (cap * 2) max) else cap

def evictCount (len valid cap : Nat) : Nat :=
  if len + valid ≤ cap then 0
  else min (max (min (len + valid - cap) len) (cap / 2)) len

def mcpBufferOutput (mcp : McpSink) (data : Bytes) : McpSink :=
  let valid := data.filter (· ≠ 0)
  if valid = [] then mcp
  else
    let cap := growTo (mcp.output.length + valid.length) mcpOutputBufferMax
      mcpOutputBufferMax.log2 mcp.outputCap
    { mcp with
      output := mcp.output.drop (evictCount mcp.output.length valid.length cap) ++ valid
      outputCap := cap }

def updateMcp (f : McpSink → McpSink) : M ρ Unit :=
  Proc.modify fun b => { b with mcp := b.mcp.map f }

def mcpDrainOutput (mcp : McpSink) : M ρ Bytes := do
  if mcp.output = [] then pure (ascii "(no output)")
  else if ← ask Env.mem then do
    updateMcp fun mcp => { mcp with output := [] }
    pure mcp.output
  else pure (ascii "(allocation failed)")

/-- Put a waiting call into the first free slot; a slot without a JSON-RPC id
stays free. False when there is none. -/
def mcpAllocPending (mcp : McpSink) (jsonrpcId : Option Json) (call : Json → McpPending) :
    Option McpSink :=
  (mcp.pending.findIdx? Option.isNone).map fun i =>
    { mcp with pending := mcp.pending.set i (jsonrpcId.map call) }

def mcpGenExpectId (mcp : McpSink) : Bytes × McpSink :=
  (stored 16 (ascii "mcp-" ++ Anomaly.hexPadded 8 (mcp.nextExpectSeq % 2 ^ 32)),
    { mcp with nextExpectSeq := mcp.nextExpectSeq + 1 })

def monitorReport (data : Bytes) (incidents : List Anomaly.AnomalyIncident) : Bytes :=
  let lines := incidents.flatMap fun inc =>
    ascii "- **" ++ inc.patternName ++ ascii "** [" ++ inc.severity ++ ascii "]: " ++
      inc.matchText ++ ascii "\n"
  ascii "## Serial Monitor Report\n\nOutput:\n```\n" ++ data ++ ascii "\n```\n" ++
    if incidents = [] then ascii "\nNo anomalies detected during monitoring.\n"
    else ascii "\n## Anomalies Detected\n" ++ lines

def expectReplyText (p : McpPending) (r : Expect.ExpectResult)
    (incidents : List Anomaly.AnomalyIncident) : Bytes :=
  let why := if r.abortPattern = [] then ascii "unknown" else r.abortPattern
  let aborted := ascii "[ABORTED anomaly:" ++ why ++ ascii "] "
  if r.data = [] then
    if r.aborted ∧ p.isMonitor = false then aborted ++ ascii "(no output)"
    else ascii "(no output)"
  else if r.aborted ∧ p.isMonitor = false then aborted ++ r.data
  else if r.isMatched = false ∧ p.timeoutMode = false ∧ p.isMonitor = false then
    ascii "[TIMEOUT] " ++ r.data
  else if p.isMonitor then
    monitorReport r.data (incidents.filter fun inc => p.monitorStart ≤ inc.timestamp)
  else r.data

def mcpOnExpectResult (mcp : McpSink) (r : Expect.ExpectResult) : M ρ Unit := do
  let b ← Proc.get
  match mcp.pending.findIdx? (Option.any (·.expectId == r.id)) with
  | none => pure ()
  | some i =>
    match mcp.pending[i]? with
    | some (some p) => do
      updateMcp fun mcp => { mcp with pending := mcp.pending.set i none }
      noteAnswered (some p.jsonrpcId)
      emit (.mcpReply (some p.jsonrpcId)
        (.text (cString (expectReplyText p r b.anomaly.incidents))))
    | _ => pure ()

end Smolmux.Broker
