import Smolmux.Broker.Passive

/-! A client that may not write has no effect on the device: whatever it sends is
answered without a call of the link, and nothing is started or configured. The
tools of the MCP sink give way in the same manner while a client holds the
takeover. -/

namespace Smolmux.Broker
open Protocol Smolmux.Frame

variable {ρ : Type}

variable (a : Addr)

theorem harmless_removeClient : harmless.Keeps (removeClient a : M ρ Unit) := by
  refine keeps_get fun b => ?_
  split
  · exact keeps_pure _
  · exact keeps_bind (harmless_modify fun _ => rfl) fun _ => harmless_emit rfl

theorem harmless_replaceAt (name : Bytes) (i : Nat) :
    harmless.Keeps (replaceAt a name i : M ρ Unit) := by
  refine keeps_get fun b => ?_
  split
  · exact keeps_if fun _ => harmless_removeClient _
  · exact keeps_pure _

theorem harmless_replaceOlder (name : Bytes) (i : Nat) :
    harmless.Keeps (replaceOlder a name i : M ρ Unit) := by
  induction i with
  | zero => exact keeps_pure _
  | succ i ih => exact keeps_bind (harmless_replaceAt a name i) fun _ => ih

theorem harmless_welcome : harmless.Keeps (welcome a : M ρ Unit) := by
  refine keeps_get fun b => ?_
  split
  · exact keeps_pure _
  · exact keeps_bind (keeps_when fun _ => harmless_replaceOlder ..) fun _ =>
      harmless_sendToClient ..

theorem harmless_acceptHello (role : Option Role) :
    harmless.Keeps (acceptHello a role : M ρ Unit) :=
  keeps_bind (harmless_updateClient ..) fun _ => harmless_welcome a

theorem harmless_sendError (id : Option Bytes) (message : String) :
    harmless.Keeps (sendError a id message : M ρ Unit) := harmless_sendToClient a _

theorem harmless_refuseHello : harmless.Keeps (refuseHello a : M ρ Unit) :=
  keeps_bind (harmless_sendError ..) fun _ => keeps_bind (harmless_flushClient _) fun _ =>
    harmless_updateClient ..

theorem harmless_handleHello (c : Client) (root : Json) :
    harmless.Keeps (handleHello c root : M ρ Unit) := by
  refine keeps_get fun b => keeps_ite (fun _ => harmless_sendError ..) fun _ =>
    keeps_ite (fun _ => harmless_refuseHello _) fun _ => ?_
  split
  · exact harmless_sendError ..
  · exact keeps_bind (harmless_updateClient ..) fun _ =>
      keeps_ite (fun _ => harmless_acceptHello ..) fun _ => harmless_sendError ..

theorem harmless_handleTakeover (c : Client) (root : Json) :
    harmless.Keeps (handleTakeover c root : M ρ Unit) := by
  refine keeps_get fun b => keeps_ite (fun _ => harmless_sendError ..) fun _ =>
    keeps_ite (fun _ => harmless_sendError ..) fun _ => ?_
  exact keeps_bind (harmless_modify fun _ => rfl) fun _ => harmless_sendToClient ..

theorem harmless_handleRelease (c : Client) (root : Json) :
    harmless.Keeps (handleRelease c root : M ρ Unit) :=
  keeps_bind (harmless_modify fun _ => rfl) fun _ => harmless_sendToClient ..

variable {b : Broker ρ} {c : Client}

theorem harmless_requireSend (h : b.canSend c.addr = false) (id : Option Bytes) (refusal : String)
    (act : M ρ Unit) (e : Env ρ) :
    Harmless b (requireSend c id refusal act e b).2 := by
  have hrun : requireSend c id refusal act e b = sendError c.addr id refusal e b := by
    simp [requireSend, h]
  rw [hrun]
  exact (harmless_sendError ..).rel e b

theorem harmless_dispatchMessage (h : b.canSend c.addr = false) (type : MsgType) (root : Json)
    (e : Env ρ) :
    Harmless b (dispatchMessage c type root e b).2 := by
  cases type with
  | hello => exact (harmless_handleHello c root).rel e b
  | listenExpect => exact (harmless_handleListenExpect c root).rel e b
  | takeover => exact (harmless_handleTakeover c root).rel e b
  | release => exact (harmless_handleRelease c root).rel e b
  | status => exact (passive_handleStatus c root).right.rel e b
  | historyRequest => exact (harmless_handleHistoryRequest c root).rel e b
  | incidentsRequest => exact (passive_handleIncidentsRequest c root).right.rel e b
  | autorespondersRequest => exact (passive_handleAutorespondersRequest c root).right.rel e b
  | send => exact harmless_requireSend h ..
  | sendExpect => exact harmless_requireSend h ..
  | pinControl => exact harmless_requireSend h ..
  | setBaud => exact harmless_requireSend h ..
  | suspend => exact harmless_requireSend h ..
  | resume => exact harmless_requireSend h ..
  | configureAnomaly => exact harmless_requireSend h ..
  | configureAutoresponder => exact harmless_requireSend h ..
  | interruptAutoboot => exact harmless_requireSend h ..
  | _ => exact (harmless_sendError ..).rel e b

theorem addr_of_clientAt {a : Addr} (h : b.clientAt a = some c) :
    c.addr = a := by
  simpa using List.find?_some h

theorem handleClientMessage_none {a : Addr} (h : b.clientAt a = none) (msg : Msg) (e : Env ρ) : handleClientMessage a msg e b = ((), b) := by
  simp [handleClientMessage, h]

theorem handleClientMessage_some {a : Addr} (h : b.clientAt a = some c) (msg : Msg) (e : Env ρ) :
    handleClientMessage a msg e b =
      (if c.helloReceived = false ∧ msg.type ≠ .hello then sendError a none "hello required"
        else dispatchMessage c msg.type (msg.root.getD .null)) e
        (b.noted (.dispatched c.serial msg)) := by
  simp [handleClientMessage, h, emit]

theorem harmless_handleClientMessage {a : Addr} (h : b.canSend a = false) (msg : Msg) (e : Env ρ) : Harmless b (handleClientMessage a msg e b).2 := by
  cases hc : b.clientAt a with
  | none =>
    rw [handleClientMessage_none hc]
    exact .refl b
  | some c =>
    have haddr : c.addr = a := addr_of_clientAt hc
    subst haddr
    have hnote : Harmless b (b.noted (.dispatched c.serial msg)) := (harmless_emit rfl).rel e b
    have hsend : (b.noted (.dispatched c.serial msg)).canSend c.addr = false := h
    rw [handleClientMessage_some hc, Proc.ite_apply]
    refine hnote.trans ?_
    split_ifs
    · exact (harmless_sendError ..).rel ..
    · exact harmless_dispatchMessage hsend ..

theorem mcpToolIsMutate_of_mem {tool : String} (h : tool ∈ mutateTools) :
    mcpToolIsMutate (ascii tool) :=
  List.any_eq_true.mpr ⟨tool, h, beq_self_eq_true _⟩

theorem looking_runTool {name : Bytes} (h : mcpToolIsMutate name = false) (args : Json)
    (jsonrpcId : Option Json) (e : Env ρ) :
    (looking e).KeepsAt e (runTool name args jsonrpcId) := by
  have hmutate : ∀ tool ∈ mutateTools, name ≠ ascii tool := by
    rintro tool htool rfl
    rw [mcpToolIsMutate_of_mem htool] at h
    cases h
  unfold runTool
  refine keepsAt_ite (fun hname => absurd hname (hmutate _ (by decide))) fun _ => ?_
  refine keepsAt_ite (fun _ => looking_of_passive passive_toolSerialRead) fun _ => ?_
  refine keepsAt_ite (fun hname => absurd hname (hmutate _ (by decide))) fun _ => ?_
  refine keepsAt_ite (fun _ => looking_of_passive (passive_toolStatus _)) fun _ => ?_
  refine keepsAt_ite (fun _ => looking_of_passive (passive_toolStatus _)) fun _ => ?_
  refine keepsAt_ite (fun hname => absurd hname (hmutate _ (by decide))) fun _ => ?_
  refine keepsAt_ite (fun hname => absurd hname (hmutate _ (by decide))) fun _ => ?_
  refine keepsAt_ite (fun hname => absurd hname (hmutate _ (by decide))) fun _ => ?_
  refine keepsAt_ite (fun hname => absurd hname (hmutate _ (by decide))) fun _ => ?_
  refine keepsAt_ite (fun hname => absurd hname (hmutate _ (by decide))) fun _ => ?_
  refine keepsAt_ite (fun hname => absurd hname (hmutate _ (by decide))) fun _ => ?_
  refine keepsAt_ite (fun _ => looking_toolSerialWaitFor ..) fun _ => ?_
  refine keepsAt_ite (fun _ => looking_of_passive (passive_toolSerialOutputHistory _)) fun _ => ?_
  refine keepsAt_ite (fun _ => looking_of_passive (passive_toolSerialGetIncidents _)) fun _ => ?_
  refine keepsAt_ite (fun hname => absurd hname (hmutate _ (by decide))) fun _ => ?_
  refine keepsAt_ite (fun _ => looking_toolSerialMonitor ..) fun _ => ?_
  refine keepsAt_ite (fun _ => looking_of_passive passive_toolSerialGenerateReport) fun _ => ?_
  exact keepsAt_unless fun _ => keepsAt_pure _

theorem mcpToolDispatch_refused (h : b.takeoverClient.isSome) {name : Bytes}
    (hname : mcpToolIsMutate name) (args : Json) (jsonrpcId : Option Json) (e : Env ρ) :
    ∃ text, mcpToolDispatch name args jsonrpcId e b = (toolText text, b) := by
  by_cases henabled : e.mutateEnabled = false
  · exact ⟨_, by simp [mcpToolDispatch, hname, henabled]; rfl⟩
  · exact ⟨_, by simp [mcpToolDispatch, hname, henabled, h]; rfl⟩

theorem harmless_mcpToolDispatch (h : b.takeoverClient.isSome) (name : Bytes) (args : Json)
    (jsonrpcId : Option Json) (e : Env ρ) :
    Harmless b (mcpToolDispatch name args jsonrpcId e b).2 := by
  cases hname : mcpToolIsMutate name with
  | true =>
    obtain ⟨text, hrun⟩ := mcpToolDispatch_refused h hname args jsonrpcId e
    rw [hrun]
    exact .refl b
  | false =>
    have hrun : mcpToolDispatch name args jsonrpcId e b = runTool name args jsonrpcId e b := by
      simp [mcpToolDispatch, hname]
    rw [hrun]
    exact (harmless_of_looking (looking_runTool hname args jsonrpcId e)).rel b

theorem harmless_noteDeferred (id : Option Json) : harmless.Keeps (noteDeferred id : M ρ Unit) := by
  cases id with
  | none => exact keeps_pure _
  | some id => exact harmless_emit rfl

theorem harmless_handleToolsCall (h : b.takeoverClient.isSome) (id : Option Json)
    (params : Json) (e : Env ρ) :
    Harmless b (handleToolsCall id params e b).2 := by
  unfold handleToolsCall
  cases params.getString "name" with
  | none => exact (passive_mcpReply ..).right.rel e b
  | some name =>
    dsimp only
    rw [Proc.bind_apply]
    have hdispatch := harmless_mcpToolDispatch h name ((params.item "arguments").getD (.obj [])) id e
    refine hdispatch.trans ?_
    cases (mcpToolDispatch name ((params.item "arguments").getD (.obj [])) id e b).1 with
    | some reply => exact (passive_mcpReply ..).right.rel e _
    | none => exact (harmless_noteDeferred id).rel e _

/-- Who may not write has no effect on the device, through a message or through a
tool, and every tool that could have one is refused. -/
theorem unauthorised_harmless (e : Env ρ) (b : Broker ρ) :
    (∀ a msg, b.canSend a = false → Harmless b (handleClientMessage a msg e b).2) ∧
      (b.takeoverClient.isSome = true →
        (∀ id params, Harmless b (handleToolsCall id params e b).2) ∧
        ∀ name, (∃ (e' : Env ρ) (b' : Broker ρ) (args : Json) (id : Option Json),
            ¬Harmless b' (runTool name args id e' b').2) →
          ∀ args id, ∃ text, mcpToolDispatch name args id e b = (toolText text, b)) := by
  refine ⟨fun a msg h => harmless_handleClientMessage h msg e, fun h =>
    ⟨fun id params => harmless_handleToolsCall h id params e, ?_⟩⟩
  intro name heffect args id
  cases hname : mcpToolIsMutate name with
  | true => exact mcpToolDispatch_refused h hname args id e
  | false =>
    obtain ⟨e', b', args', id', hnot⟩ := heffect
    exact absurd ((harmless_of_looking (looking_runTool hname args' id' e')).rel b') hnot

def takenBroker : Broker Unit :=
  let controller := fun a : Addr =>
    { plainClient a false with role := .controller, helloReceived := true }
  { plainInit [] with
    clients := [controller 1, controller 2, { plainClient 3 false with helloReceived := true }]
    takeoverClient := some 1 }

theorem unauthorised_harmless_taken :
    let msg : Msg := ⟨.setBaud, some (.obj [("baud", .num 9600)])⟩
    let params : Json := .obj [("name", .str (ascii "serial_suspend"))]
    Harmless takenBroker (handleClientMessage 2 msg plainEnv takenBroker).2 ∧
      Harmless takenBroker (handleClientMessage 3 msg plainEnv takenBroker).2 ∧
      Harmless takenBroker (handleToolsCall none params plainEnv takenBroker).2 ∧
      ∃ text, mcpToolDispatch (ascii "serial_suspend") (.obj []) none plainEnv takenBroker =
        (toolText text, takenBroker) := by
  have h := unauthorised_harmless plainEnv takenBroker
  refine ⟨h.1 2 _ (by decide +kernel), h.1 3 _ (by decide +kernel), (h.2 rfl).1 none _,
    (h.2 rfl).2 _ ⟨plainEnv, plainInit [], .obj [], none, fun hsame => ?_⟩ _ _⟩
  exact absurd hsame.suspended (by decide +kernel)

end Smolmux.Broker
