import Smolmux.Broker.Ops

/-! Procedures that look at the broker and answer. They call no operation of the
link, start nothing, and leave the port, the rules and the patterns alone, and who
the clients are; all they may add is an expect that waits for output. -/

namespace Smolmux.Broker
open Smolmux.Client Smolmux.Frame

variable {ρ α : Type}

def Event.isDevice : Event → Bool
  | .link .. | .flood (.released ..) => true
  | ev => ev.isLedger

/-- Nothing that a write authorisation guards has happened. -/
structure Harmless (b b' : Broker ρ) : Prop where
  suspended : b'.suspended = b.suspended
  baudrate : b'.baudrate = b.baudrate
  rules : b'.autoresponder.rules = b.autoresponder.rules
  patterns : b'.anomaly.patterns = b.anomaly.patterns
  brk : b'.brk = b.brk
  flood : b'.flood = b.flood
  trace : Grows (fun ev => ev.isDevice = false) b.trace b'.trace

theorem Harmless.refl (b : Broker ρ) : Harmless b b := ⟨rfl, rfl, rfl, rfl, rfl, rfl, .refl ..⟩

theorem Harmless.trans {b₁ b₂ b₃ : Broker ρ} (h : Harmless b₁ b₂) (h' : Harmless b₂ b₃) :
    Harmless b₁ b₃ where
  suspended := h'.suspended.trans h.suspended
  baudrate := h'.baudrate.trans h.baudrate
  rules := h'.rules.trans h.rules
  patterns := h'.patterns.trans h.patterns
  brk := h'.brk.trans h.brk
  flood := h'.flood.trans h.flood
  trace := h.trace.trans h'.trace

def harmless : Frame (Broker ρ) := ⟨Harmless, .refl, .trans⟩

def passive : Frame (Broker ρ) := plain.inter harmless

variable (a : Addr)

def guarded (b : Broker ρ) :=
  (b.suspended, b.baudrate, b.autoresponder, b.anomaly, b.brk, b.flood, b.trace)

theorem harmless_of_guarded {b b' : Broker ρ} (h : b'.guarded = b.guarded) : Harmless b b' := by
  simp only [Broker.guarded, Prod.mk.injEq] at h
  obtain ⟨hsuspended, hbaudrate, hresponder, hanomaly, hbrk, hflood, htrace⟩ := h
  refine ⟨hsuspended, hbaudrate, ?_, ?_, hbrk, hflood, ?_⟩
  · rw [hresponder]
  · rw [hanomaly]
  · rw [htrace]
    exact .refl ..

theorem harmless_modify {f : Broker ρ → Broker ρ} (h : ∀ b, (f b).guarded = b.guarded) :
    harmless.Keeps (Proc.modify f : M ρ Unit) := ⟨fun _ b => harmless_of_guarded (h b)⟩

theorem harmless_ask (f : Env ρ → Nat → α) : harmless.Keeps (ask f) :=
  ⟨fun _ _ => harmless_of_guarded rfl⟩

theorem harmless_emit {ev : Event} (h : ev.isDevice = false) :
    harmless.Keeps (emit ev : M ρ Unit) :=
  ⟨fun _ b => ⟨rfl, rfl, rfl, rfl, rfl, rfl, ⟨[ev], rfl, by simpa using h⟩⟩⟩

theorem harmless_updateClient (f : Client → Client) :
    harmless.Keeps (updateClient a f : M ρ Unit) := harmless_modify fun _ => rfl

theorem harmless_sendToClient (msg : Json) :
    harmless.Keeps (sendToClient a msg : M ρ Unit) := by
  refine keeps_env fun e => keeps_bind (harmless_ask _) fun mem =>
    keeps_get fun b => ?_
  split
  · exact keeps_pure _
  · exact keeps_bind (harmless_emit rfl) fun _ => harmless_updateClient ..

theorem harmless_flushClient : harmless.Keeps (flushClient a : M ρ FlushResult) := by
  refine keeps_bind (harmless_ask _) fun results => keeps_get fun b => ?_
  split
  · exact keeps_pure _
  · exact .yields (harmless_updateClient ..)

theorem passive_ask (f : Env ρ → Nat → α) : passive.Keeps (ask f) :=
  keeps_inter (plain_ask f) (harmless_ask f)

theorem passive_sendToClient (msg : Json) :
    passive.Keeps (sendToClient a msg : M ρ Unit) :=
  keeps_inter (plain_sendToClient a msg) (harmless_sendToClient a msg)

theorem passive_mcpReply (id : Option Json) (reply : McpReply) :
    passive.Keeps (emit (.mcpReply id reply) : M ρ Unit) :=
  keeps_inter (plain_mcpReply id reply) (harmless_emit rfl)

theorem harmless_updateMcp (f : McpSink → McpSink) : harmless.Keeps (updateMcp f : M ρ Unit) :=
  harmless_modify fun _ => rfl

variable {p : M ρ α} (id pattern : Bytes) (c : Client)

theorem harmless_addExpect (timeoutS : Rat) (clientId : Bytes) (owner : Option Nat) : harmless.Keeps (addExpect id pattern timeoutS clientId owner :
      M ρ (Option Expect.ExpectError)) := by
  refine keeps_env fun e => keeps_bind (harmless_ask _) fun growMem =>
    keeps_bind (harmless_ask _) fun bufMem => keeps_bind (harmless_ask _) fun now =>
      keeps_get fun b => keeps_bind (harmless_modify fun _ => rfl) fun _ =>
        keeps_bind ?_ fun _ => keeps_pure _
  unfold noteAdded
  split
  · exact keeps_pure _
  · exact keeps_bind (harmless_emit rfl) fun _ => harmless_emit rfl

theorem harmless_cancelExpect : harmless.Keeps (cancelExpect id : M ρ Unit) :=
  keeps_get fun _ => keeps_bind (harmless_emit rfl) fun _ =>
    harmless_modify fun _ => rfl

theorem harmless_mcpWait (jsonrpcId : Option Json) (call : Json → McpPending) :
    harmless.Keeps (mcpWait jsonrpcId call : M ρ Bool) := by
  refine keeps_get fun b => ?_
  split
  · exact .yields (harmless_emit rfl)
  · exact .yields (harmless_updateMcp _)

theorem harmless_handleHistoryRequest (root : Json) :
    harmless.Keeps (handleHistoryRequest c root : M ρ Unit) := by
  refine keeps_env fun e => keeps_bind (harmless_ask _) fun mem =>
    keeps_get fun b => keeps_bind (harmless_modify fun _ => rfl) fun _ => ?_
  unfold historyAnswer
  split
  · exact harmless_sendToClient ..
  · exact keeps_get fun _ => keeps_bind (harmless_modify fun _ => rfl) fun _ =>
      harmless_emit rfl

theorem harmless_run {op : Op} (h : op.isLooking) (e : Env ρ) (b : Broker ρ) :
    Harmless b (op.run e b) := by
  cases op with
  | addExpect id pattern timeoutS clientId owner => exact (harmless_addExpect ..).rel e b
  | cancelExpect id owner => exact (harmless_cancelExpect id).rel e b
  | cancelMcpExpects => exact harmless_of_guarded rfl
  | expectId => exact (harmless_updateMcp _).rel e b
  | wait jsonrpcId call => exact (harmless_mcpWait ..).rel e b
  | askHistory c root => exact (harmless_handleHistoryRequest c root).rel e b
  | _ => cases h

def looking (e : Env ρ) : Frame (Broker ρ) := does passive Op.isLooking e

theorem harmless_of_looking {e : Env ρ} (h : (looking e).KeepsAt e p) :
    harmless.KeepsAt e p :=
  of_does (G := passive) (fun _ _ hp => hp.2) (fun _ b hlook _ => harmless_run hlook e b) h

theorem work_of_looking {e : Env ρ} (h : (looking e).KeepsAt e p) :
    (work e).KeepsAt e p :=
  h.mono fun _ _ => does_mono (fun _ _ hp => hp.1) fun op hop => by
    cases op with
    | stopFlood | connecting | record => cases hop
    | _ => rfl

theorem looking_of_passive {e : Env ρ} (h : passive.Keeps p) :
    (looking e).KeepsAt e p := does_step h

theorem passive_listenExpectLimited :
    passive.Keeps (listenExpectLimited c : M ρ Bool) := by
  refine keeps_bind (passive_ask _) fun now => ?_
  exact .yields (keeps_inter (plain_updateClient _ fun _ => rfl) (harmless_updateClient ..))

theorem harmless_handleListenExpect (root : Json) :
    harmless.Keeps (handleListenExpect c root : M ρ Unit) := by
  refine keeps_get fun b => keeps_ite (fun _ => harmless_sendToClient ..) fun _ =>
    keeps_ite (fun _ => harmless_sendToClient ..) fun _ => ?_
  split
  · refine keeps_bind (passive_listenExpectLimited c).right fun limited =>
      keeps_ite (fun _ => harmless_sendToClient ..) fun _ => ?_
    refine keeps_bind (harmless_addExpect ..) fun err => ?_
    cases err with
    | none => exact keeps_pure _
    | some err => exact harmless_sendToClient ..
  · exact harmless_sendToClient ..

theorem passive_brokerStatusJson (id : Option Bytes) :
    passive.Keeps (brokerStatusJson id : M ρ Json) :=
  keeps_get fun _ => keeps_bind (passive_ask _) fun _ => keeps_bind (passive_ask _)
    fun _ => .yields (passive_ask _)

theorem passive_handleStatus (root : Json) :
    passive.Keeps (handleStatus c root : M ρ Unit) :=
  keeps_bind (passive_brokerStatusJson _) fun _ => passive_sendToClient ..

theorem passive_handleIncidentsRequest (root : Json) :
    passive.Keeps (handleIncidentsRequest c root : M ρ Unit) :=
  keeps_get fun _ => passive_sendToClient ..

theorem passive_handleAutorespondersRequest (root : Json) :
    passive.Keeps (handleAutorespondersRequest c root : M ρ Unit) :=
  keeps_get fun _ => passive_sendToClient ..

variable (args : Json)

section Tools

variable {e : Env ρ}

theorem looking_op (op : Op) (hP : op.isLooking) (hready : ∀ b : Broker ρ, op.Ready b)
    (h : ∀ b, (p e b).2 = op.run e b) :
    (looking e).KeepsAt e p := does_op op hP hready h

theorem looking_mcpAddExpect (timeoutS : Rat) (failed : String) :
    (looking e).KeepsAt e (mcpAddExpect pattern timeoutS failed) := by
  refine ⟨fun b => ?_⟩
  rw [mcpAddExpect, Proc.bind_apply, Proc.get_apply]
  cases hmcp : b.mcp with
  | none => exact (looking e).refl _
  | some mcp =>
    refine rel_bind ((looking_op .expectId rfl (fun _ => trivial) fun _ => rfl).rel b) fun _ => ?_
    have hsink : (updateMcp (fun mcp => (mcpGenExpectId mcp).2) e b).2.mcp.isSome := by
      simp [updateMcp, hmcp]
    refine rel_bind (closure_atom (Work.op (.addExpect _ pattern timeoutS mcpClientId none) rfl
      ⟨rfl, hsink⟩ rfl)) fun err => ?_
    cases err with
    | none => exact (looking e).refl _
    | some err => exact (looking e).refl _

theorem looking_mcpWait (jsonrpcId : Option Json) (call : Json → McpPending) :
    (looking e).KeepsAt e (mcpWait jsonrpcId call) :=
  looking_op (.wait jsonrpcId call) rfl (fun _ => trivial) fun _ => rfl

theorem mcpWait_full {jsonrpcId : Option Json} {call : Json → McpPending} {b : Broker ρ}
    (h : (mcpWait jsonrpcId call e b).1 = false) :
    (mcpWait jsonrpcId call e b).2.trace.getLast? = some (.mcp .full) := by
  cases hslot : b.mcp.bind fun mcp => mcpAllocPending mcp jsonrpcId call with
  | none => simp [mcpWait, hslot, emit, Broker.noted]
  | some mcp => simp [mcpWait, hslot] at h

theorem keepsAt_mcpWait {F : Frame (Broker ρ)} {jsonrpcId : Option Json} {call : Json → McpPending}
    {k : M ρ Unit} {result : ToolResult} (hwait : F.KeepsAt e (mcpWait jsonrpcId call))
    (hfull : ∀ b : Broker ρ, b.trace.getLast? = some (.mcp .full) → F.rel b (k e b).2) :
    F.KeepsAt e (do
      if ← mcpWait jsonrpcId call then pure none
      else do
        k
        pure result) := by
  refine ⟨fun b => F.trans (hwait.rel b) ?_⟩
  rw [Proc.bind_apply]
  cases hgot : (mcpWait jsonrpcId call e b).1 with
  | true => exact F.refl _
  | false => exact hfull _ (mcpWait_full hgot)

theorem looking_cancelExpect : (looking e).KeepsAt e (cancelExpect id) :=
  looking_op (.cancelExpect id none) rfl (fun _ => trivial) fun _ => rfl

theorem passive_linkOpen : passive.Keeps (linkOpen : M ρ Bool) :=
  keeps_get fun _ => keeps_pure _

theorem passive_toolSerialRead : passive.Keeps (toolSerialRead : M ρ ToolResult) := by
  refine keeps_get fun b => ?_
  split
  · exact keeps_pure _
  · refine keeps_bind (keeps_unless fun _ => ?_) fun text => keeps_pure _
    exact keeps_bind (passive_ask _) fun mem => keeps_if fun _ => .yields (keeps_inter
      (plain_updateMcp fun _ => rfl) (harmless_updateMcp _))

theorem passive_toolStatus (tool : String) : passive.Keeps (toolStatus tool : M ρ ToolResult) :=
  .yields (passive_brokerStatusJson _)

theorem looking_mcpListen (timeoutS : Rat) (jsonrpcId : Option Json)
    (call : Bytes → Json → McpPending) {full : Bytes → M ρ Unit}
    (hfull : ∀ id (b : Broker ρ), b.trace.getLast? = some (.mcp .full) →
      (looking e).rel b (full id e b).2) :
    (looking e).KeepsAt e (mcpListen pattern timeoutS jsonrpcId call full) := by
  refine keepsAt_get fun b => keepsAt_unless fun _ =>
    keepsAt_bind (looking_of_passive passive_linkOpen) fun isOpen =>
      keepsAt_if fun _ => ?_
  refine keepsAt_bind (looking_mcpAddExpect ..) fun added => ?_
  cases added with
  | error reply => exact keepsAt_pure _
  | ok id => exact keepsAt_mcpWait (looking_mcpWait ..) (hfull id)

theorem looking_toolSerialWaitFor (jsonrpcId : Option Json) :
    (looking e).KeepsAt e (toolSerialWaitFor args jsonrpcId) := by
  unfold toolSerialWaitFor
  split
  · exact keepsAt_pure _
  · exact looking_mcpListen _ _ _ _ fun id b _ => (looking_cancelExpect id).rel b

theorem passive_toolSerialOutputHistory :
    passive.Keeps (toolSerialOutputHistory args : M ρ ToolResult) := by
  refine keeps_env fun e => keeps_get fun b => ?_
  split
  · exact keeps_pure _
  · exact keeps_bind (passive_ask _) fun mem => .yields (passive_ask _)

theorem passive_toolSerialGetIncidents :
    passive.Keeps (toolSerialGetIncidents args : M ρ ToolResult) :=
  keeps_bind (passive_ask _) fun _ => keeps_get fun _ => keeps_pure _

theorem looking_toolSerialMonitor (jsonrpcId : Option Json) :
    (looking e).KeepsAt e (toolSerialMonitor args jsonrpcId) :=
  keepsAt_bind (looking_of_passive (passive_ask _)) fun _ => looking_mcpListen _ _ _ _ fun _ _ hfull =>
    closure_atom (.op .cancelMcpExpects rfl hfull rfl)

theorem passive_toolSerialGenerateReport :
    passive.Keeps (toolSerialGenerateReport : M ρ ToolResult) :=
  keeps_bind (passive_ask _) fun _ => keeps_get fun _ => keeps_pure _

end Tools

end Smolmux.Broker
