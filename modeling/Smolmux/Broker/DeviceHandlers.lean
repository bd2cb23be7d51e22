import Smolmux.Broker.Passive

/-! Handlers, tools and link events are sequences of operations and plain steps. -/

namespace Smolmux.Broker
open Protocol Smolmux.Frame

variable {ρ α : Type} {e : Env ρ}

theorem deed_breakCancel : (deed e).KeepsAt e breakCancel :=
  deed_op (.brk .cancel) rfl (fun _ => trivial) fun _ => rfl

theorem deed_brokerDoWrite (data : Bytes) : (deed e).KeepsAt e (brokerDoWrite data) :=
  deed_op (.write data) rfl (fun _ => trivial) fun _ => rfl

theorem deed_setParam (key value : Bytes) : (deed e).KeepsAt e (setParam key value) :=
  deed_op (.param key value) rfl (fun _ => trivial) fun _ => rfl

theorem deed_floodCancel : (deed e).KeepsAt e floodCancel :=
  deed_op .cancelFlood rfl (fun _ => trivial) fun _ => rfl

theorem deed_endExpects (reason patternName : Bytes) :
    (deed e).KeepsAt e (do abortExpects reason patternName; processExpectResults) :=
  deed_op (.endExpects reason patternName) rfl (fun _ => trivial) fun _ => rfl

theorem deed_processExpectResults : (deed e).KeepsAt e processExpectResults :=
  deed_op .collectExpects rfl (fun _ => trivial) fun _ => rfl

theorem deed_brokerDoResume : (deed e).KeepsAt e brokerDoResume :=
  deed_op .resume rfl (fun _ => trivial) fun _ => rfl

theorem deed_ask (f : Env ρ → Nat → α) : (deed e).KeepsAt e (ask f) := deed_of_plain (plain_ask f)

theorem deed_sendError (a : Addr) (id : Option Bytes) (message : String) :
    (deed e).KeepsAt e (sendError a id message) := deed_of_plain (plain_sendError ..)

theorem deed_sendToClient (a : Addr) (msg : Json) : (deed e).KeepsAt e (sendToClient a msg) :=
  deed_of_plain (plain_sendToClient ..)

theorem deed_broadcast (msg : Json) (exclude : Option Addr) :
    (deed e).KeepsAt e (broadcast msg exclude) := deed_of_plain (plain_broadcast ..)

variable (buf : Bytes)

theorem deed_feedAnomaly (ts : Rat) : (deed e).KeepsAt e (feedAnomaly buf ts) := by
  refine keepsAt_env (keepsAt_bind (deed_ask _) fun clock => keepsAt_get fun b =>
    keepsAt_bind (deed_of_plain (plain_modify fun _ => rfl)) fun _ => ?_)
  refine keepsAt_bind (keepsAt_each _ fun inc _ => deed_broadcast ..) fun _ => ?_
  split
  · exact keepsAt_pure _
  · exact deed_endExpects ..

theorem deed_fireRule (fired : Autoresponder.ArFired) : (deed e).KeepsAt e (fireRule fired) :=
  keepsAt_bind (deed_brokerDoWrite _) fun _ =>
    keepsAt_if fun _ => deed_broadcast ..

theorem deed_feedAutoresponder (ts : Rat) :
    (deed e).KeepsAt e (feedAutoresponder buf ts) :=
  keepsAt_env (keepsAt_get fun _ => keepsAt_bind (deed_of_plain (plain_modify fun _ => rfl)) fun _ =>
    keepsAt_each _ fun fired _ => deed_fireRule fired)

theorem linkWork_processLinkChunk (ts : Rat) :
    (linkWork e).KeepsAt e (processLinkChunk buf ts) := by
  refine keepsAt_env (keepsAt_bind (does_op (.feedExpects buf) rfl (fun _ => trivial) fun _ => rfl)
    fun _ => keepsAt_bind (does_op (.feedFlood buf) rfl (fun _ => trivial) fun _ => rfl) fun _ =>
      keepsAt_bind (does_op (.record buf ts) rfl (fun _ => trivial) fun _ => rfl) fun _ => ?_)
  have hmcp : plain.Keeps (updateMcp fun mcp => mcpBufferOutput mcp buf : M ρ Unit) :=
    plain_updateMcp fun mcp => calls_mcpBufferOutput mcp buf
  refine keepsAt_bind (linkWork_of_plain (plain_modify fun _ => rfl)) fun _ =>
    keepsAt_bind (linkWork_of_plain hmcp) fun _ => linkWork_of_deed ?_
  exact keepsAt_bind (deed_broadcast ..) fun _ => keepsAt_bind (deed_feedAnomaly ..) fun _ =>
    keepsAt_bind (deed_op (.feedBoot buf ts) rfl (fun _ => trivial) fun _ => rfl) fun _ =>
      deed_feedAutoresponder ..

theorem linkWork_linkDrain : (linkWork e).KeepsAt e (linkDrain buf) := by
  have hask : ∀ {γ : Type} (f : Env ρ → Nat → γ), (linkWork e).KeepsAt e (ask f) :=
    fun f => linkWork_of_plain (plain_ask f)
  refine keepsAt_env (keepsAt_bind (hask _) fun ts => keepsAt_bind (hask _) fun now =>
    keepsAt_bind (linkWork_of_plain (plain_modify fun _ => rfl)) fun _ =>
      keepsAt_ite (fun _ => ?_) fun _ => linkWork_processLinkChunk ..)
  exact keepsAt_bind (hask _) fun filter =>
    keepsAt_unless fun _ => linkWork_processLinkChunk ..

theorem linkWork_drainLinkFd (left : Nat) (first : Bool) (reads : List LinkRead) :
    (linkWork e).KeepsAt e (drainLinkFd left first reads) := by
  induction left generalizing first reads with
  | zero => exact keepsAt_pure _
  | succ left ih =>
    cases reads with
    | nil => exact keepsAt_pure _
    | cons read reads =>
      cases read with
      | data bytes => exact keepsAt_bind (linkWork_linkDrain bytes) fun _ => ih ..
      | zero avail =>
        cases avail with
        | true => exact ih ..
        | false => exact keepsAt_pure _
      | again => exact keepsAt_pure _
      | gone => exact keepsAt_pure _
      | failed => exact keepsAt_pure _

theorem stage_endBusiness (e : Env ρ) (b : Broker ρ) :
    ((do breakCancel; floodCancel : M ρ Unit) e b).2.stage = b.stage := by
  have hbreak := (moves_run (.brk .cancel) e b).part .stage rfl
  have hflood := (moves_run .cancelFlood e (breakCancel e b).2).part .stage rfl
  exact hflood.trans hbreak

theorem deed_handleLinkDisconnect : (deed e).KeepsAt e handleLinkDisconnect := by
  refine ⟨fun b => rel_ite (fun _ => (deed e).refl b) fun hup => ?_⟩
  have hbefore : (deed e).KeepsAt e (do breakCancel; floodCancel) :=
    keepsAt_bind deed_breakCancel fun _ => deed_floodCancel
  have hlost : ∀ b₁ : Broker ρ, b₁.stage = b.stage →
      (deed e).rel b₁ (linkLost e (stallDisarm e b₁).2).2 := by
    refine fun b₁ hstage => closure_atom (.op .lost rfl ?_ rfl)
    exact (congrArg Stage.linkDisconnected hstage).trans (Bool.eq_false_of_not_eq_true hup)
  have hfence : ∀ b₁ : Broker ρ, b₁.linkDisconnected →
      (deed e).rel b₁ (historyFence historyFenceDown e b₁).2 :=
    fun b₁ hgone => closure_atom (.op (.fence historyFenceDown) rfl hgone rfl)
  have hexpects := deed_endExpects (e := e) (ascii "link_down") (ascii "link_down")
  have hafter : (deed e).KeepsAt e (do
      broadcast (msgLinkDown (← Proc.get).port (ascii "device disconnected")) none) :=
    keepsAt_get fun _ => deed_broadcast ..
  exact (deed e).trans (hbefore.rel b) ((deed e).trans (hlost _ (stage_endBusiness e b))
    ((deed e).trans (hfence _ rfl) ((deed e).trans (hexpects.rel _) (hafter.rel _))))

theorem linkWork_processLinkData (reads : List LinkRead) :
    (linkWork e).KeepsAt e (processLinkData reads) :=
  keepsAt_get fun _ => keepsAt_unless fun _ =>
    keepsAt_bind (linkWork_drainLinkFd ..) fun _ =>
      keepsAt_if fun _ => linkWork_of_deed deed_handleLinkDisconnect

theorem deed_brokerDoSuspend (byName : Bytes) : (deed e).KeepsAt e (brokerDoSuspend byName) := by
  refine keepsAt_get fun b => keepsAt_unless fun _ =>
    keepsAt_bind deed_breakCancel fun _ => keepsAt_bind deed_floodCancel fun _ => ?_
  refine keepsAt_bind (p := do stallDisarm; linkSuspend) (f := fun _ => do
    broadcast (msgSuspended (← Proc.get).port byName) none
    pure 0) (deed_op .suspend rfl (fun _ => trivial) fun _ => rfl) fun _ => ?_
  exact keepsAt_get fun _ => .yields (deed_broadcast ..)

theorem deed_flushLink : (deed e).KeepsAt e flushLink :=
  keepsAt_env (keepsAt_if fun _ => keepsAt_bind (deed_op .flush rfl (fun _ => trivial) fun _ => rfl)
    fun _ => keepsAt_if (fun _ => deed_handleLinkDisconnect))

theorem linkWork_handleLinkEvent (flags : EpollFlags) (reads : List LinkRead) :
    (linkWork e).KeepsAt e (handleLinkEvent flags reads) :=
  keepsAt_bind (keepsAt_when fun _ => linkWork_processLinkData reads) fun _ =>
    keepsAt_get fun _ => linkWork_of_deed (keepsAt_bind
      (keepsAt_when fun _ => deed_handleLinkDisconnect) fun _ =>
        keepsAt_get fun _ => keepsAt_when fun _ => deed_flushLink)

variable {b : Broker ρ} (c : Client)

theorem plain_inputEcho (data sender : Bytes) (exclude : Option Addr) :
    plain.Keeps (inputEcho data sender exclude : M ρ Unit) :=
  keeps_bind (plain_ask _) fun _ => plain_broadcast ..

theorem deed_requireSend (id : Option Bytes) (refusal : String) {act : M ρ Unit}
    (h : (deed e).KeepsAt e act) : (deed e).KeepsAt e (requireSend c id refusal act) :=
  keepsAt_get fun _ => keepsAt_ite (fun _ => h) fun _ => deed_sendError ..

theorem deed_handleSend (root : Json) : (deed e).KeepsAt e (handleSend c root) := by
  refine deed_requireSend _ _ _ ?_
  split
  · exact deed_sendError ..
  · refine keepsAt_ite (fun _ => deed_sendError ..) fun _ => ?_
    split
    · exact deed_sendError ..
    · exact keepsAt_bind (deed_brokerDoWrite _) fun _ =>
        keepsAt_ite (fun _ => deed_of_plain (plain_inputEcho ..)) fun _ => deed_sendError ..

theorem deed_giveUpExpect {c : Client} (hnewest : b.Newest c.serial) (id : Bytes)
    (message : String) (e : Env ρ) :
    (deed e).rel b ((do cancelExpect id; sendError c.addr (some id) message) e b).2 :=
  rel_bind (closure_atom (.op (.cancelExpect id (some c.serial)) rfl hnewest rfl)) fun _ =>
    (deed_sendError ..).rel _

theorem deed_sendExpectData {c : Client} (hnewest : b.Newest c.serial) (id b64 : Bytes)
    (e : Env ρ) : (deed e).rel b (sendExpectData c id b64 e b).2 := by
  refine rel_ite (fun _ => deed_giveUpExpect hnewest ..) fun _ => ?_
  cases Base64.base64Decode b64 with
  | none => exact deed_giveUpExpect hnewest ..
  | some data =>
    have hexpect : (brokerDoWrite data e b).2.expect = b.expect :=
      ((moves_brokerDoWrite (S := (· == .wire)) rfl data).rel e b).part .expect rfl
    have hnewest : (brokerDoWrite data e b).2.Newest c.serial := by
      rw [Broker.Newest, hexpect]
      exact hnewest
    exact rel_bind ((deed_brokerDoWrite data).rel b) fun _ =>
      rel_ite (fun _ => deed_giveUpExpect hnewest ..) fun _ =>
        (deed_of_plain (plain_inputEcho ..)).rel _

theorem deed_addExpect {c : Client} (hc : c.ident ∈ b.idents) (id pattern : Bytes)
    (timeoutS : Rat) (e : Env ρ) :
    (deed e).rel b (addExpect id pattern timeoutS c.id (some c.serial) e b).2 :=
  closure_atom (.op (.addExpect id pattern timeoutS c.id (some c.serial)) rfl
    ⟨c.ident, hc, rfl, rfl⟩ rfl)

theorem newest_addExpect {id pattern clientId : Bytes} {timeoutS : Rat} {serial : Nat}
    (h : (addExpect id pattern timeoutS clientId (some serial) e b).1 = none) :
    (addExpect id pattern timeoutS clientId (some serial) e b).2.Newest serial := by
  have hadds := addsExpect_addExpect id pattern timeoutS clientId (some serial) e b
  generalize addExpect id pattern timeoutS clientId (some serial) e b = r at hadds h ⊢
  cases hadds with
  | refused hrequests hnext err => cases h
  | @added eng deadline _ compiled hrequests hnext =>
    refine ⟨Expect.newRequest id pattern compiled deadline clientId b.expect.next (some serial), ?_,
      hnext.symm, rfl⟩
    change _ ∈ eng.requests
    rw [hrequests]
    exact List.mem_append_right _ List.mem_cons_self

theorem deed_handleSendExpect {c : Client} (hc : c.ident ∈ b.idents) (root : Json) (e : Env ρ) : (deed e).rel b (handleSendExpect c root e b).2 := by
  have hrefuse : ∀ id message b, (deed e).rel b (sendError c.addr id message e b).2 :=
    fun id message b => (deed_sendError c.addr id message).rel b
  refine rel_ite (fun _ => ?_) fun _ => hrefuse ..
  refine rel_ite (fun _ => hrefuse ..) fun _ => rel_ite (fun _ => hrefuse ..) fun _ => ?_
  cases root.getString "pattern" with
  | none => exact hrefuse ..
  | some pattern =>
    cases root.getString "id" with
    | none => exact hrefuse ..
    | some id =>
      refine rel_bind_of (deed_addExpect hc ..) fun err herr => ?_
      cases err with
      | some err => exact hrefuse ..
      | none =>
        cases root.getString "data" with
        | none => exact (deed e).refl _
        | some b64 => exact deed_sendExpectData (newest_addExpect herr) id b64 e

theorem deed_handleListenExpect {c : Client} (hc : c.ident ∈ b.idents) (root : Json) (e : Env ρ) : (deed e).rel b (handleListenExpect c root e b).2 := by
  have hrefuse : ∀ id message b, (deed e).rel b (sendError c.addr id message e b).2 :=
    fun id message b => (deed_sendError c.addr id message).rel b
  refine rel_ite (fun _ => hrefuse ..) fun _ => rel_ite (fun _ => hrefuse ..) fun _ => ?_
  cases (root.getString "pattern").filter (· ≠ []) with
  | none => exact hrefuse ..
  | some pattern =>
    cases root.getString "id" with
    | none => exact hrefuse ..
    | some id =>
      have hlimited := (passive_listenExpectLimited c).left.rel e b
      refine rel_bind (closure_atom (.step hlimited)) fun limited =>
        rel_ite (fun _ => hrefuse ..) fun _ => ?_
      refine rel_bind (deed_addExpect (hlimited.calm.idents ▸ hc) ..) fun err => ?_
      cases err with
      | none => exact (deed e).refl _
      | some err => exact hrefuse ..

theorem deed_handleInterruptAutoboot (root : Json) :
    (deed e).KeepsAt e (handleInterruptAutoboot c root) := by
  refine deed_requireSend _ _ _ ?_
  split
  · exact deed_sendError ..
  · exact keepsAt_bind (deed_op (.startFlood _) rfl (fun _ => trivial) fun _ => rfl) fun _ =>
      keepsAt_if fun _ => deed_sendError ..

theorem deed_schedulePin (id : Option Bytes) (busy : String)
    {schedule : Option BreakDone → M ρ Int}
    (h : (deed e).KeepsAt e (schedule (some (pinBreakDone c id)))) :
    (deed e).KeepsAt e (schedulePin c id busy schedule) := by
  refine keepsAt_bind (deed_ask _) fun mem => keepsAt_ite (fun _ => ?_) fun _ => deed_sendError ..
  exact keepsAt_bind h fun rc => keepsAt_if fun _ => deed_sendError ..

theorem deed_handlePinControl (root : Json) :
    (deed e).KeepsAt e (handlePinControl c root) := by
  refine deed_requireSend _ _ _ ?_
  split
  · refine keepsAt_ite (fun _ => deed_sendError ..) fun _ => keepsAt_ite (fun _ => ?_) fun _ =>
      keepsAt_ite (fun _ => ?_) fun _ => ?_
    · exact deed_schedulePin _ _ _
        (deed_op (.brk (.lineReset _ _ _)) rfl (fun _ => trivial) fun _ => rfl)
    · exact deed_schedulePin _ _ _
        (deed_op (.brk (.schedule _ _ _ _)) rfl (fun _ => trivial) fun _ => rfl)
    · exact keepsAt_bind (deed_setParam ..) fun rc =>
        keepsAt_ite (fun _ => deed_sendError ..) fun _ => deed_sendToClient ..
  · exact deed_sendError ..

theorem deed_handleSetBaud (root : Json) :
    (deed e).KeepsAt e (handleSetBaud c root) := by
  refine deed_requireSend _ _ _ (keepsAt_ite (fun _ => deed_sendError ..) fun _ =>
    keepsAt_bind (deed_setParam ..) fun rc => keepsAt_ite (fun _ => ?_) fun _ => deed_sendError ..)
  exact keepsAt_bind (deed_of_plain (plain_modify fun _ => rfl)) fun _ => deed_sendToClient ..

theorem deed_handleSuspend (root : Json) :
    (deed e).KeepsAt e (handleSuspend c root) :=
  deed_requireSend _ _ _ (keepsAt_bind (deed_brokerDoSuspend _) fun _ =>
    keepsAt_if fun _ => deed_sendError ..)

theorem deed_handleResume (root : Json) : (deed e).KeepsAt e (handleResume c root) := by
  refine deed_requireSend _ _ _ (keepsAt_bind deed_brokerDoResume fun rc =>
    keepsAt_ite (fun _ => deed_sendError ..) fun _ => keepsAt_ite (fun _ => deed_sendError ..)
      fun _ => ?_)
  split
  · exact deed_op (.nameResume _) rfl (fun _ => trivial) fun _ => rfl
  · exact keepsAt_pure _

theorem plain_handleConfigureAnomaly (root : Json) :
    plain.Keeps (handleConfigureAnomaly c root : M ρ Unit) := by
  refine keeps_get fun _ => keeps_ite (fun _ => ?_) fun _ => plain_sendError ..
  split
  · exact plain_sendError ..
  · exact keeps_env fun _ => keeps_get fun _ =>
      keeps_bind (plain_modify fun _ => rfl) fun _ => plain_sendToClient ..

theorem plain_handleConfigureAutoresponder (root : Json) :
    plain.Keeps (handleConfigureAutoresponder c root : M ρ Unit) := by
  refine keeps_get fun _ => keeps_ite (fun _ => ?_) fun _ => plain_sendError ..
  split
  · exact plain_sendError ..
  · refine keeps_ite (fun _ => keeps_get fun _ =>
      keeps_bind (plain_modify fun _ => rfl) fun _ => plain_sendToClient ..) fun _ => ?_
    split
    · exact plain_sendError ..
    · split
      · exact plain_sendError ..
      · refine keeps_env fun e => keeps_get fun b =>
          keeps_ite (fun _ => ?_) fun _ => plain_sendError ..
        exact keeps_bind (plain_modify fun _ => rfl) fun _ => plain_sendToClient ..

theorem deed_dispatchMessage {type : MsgType} (hhello : type ≠ .hello)
    (htakeover : type ≠ .takeover) (hrelease : type ≠ .release) {c : Client}
    (hc : c.ident ∈ b.idents) (root : Json) (e : Env ρ) :
    (deed e).rel b (dispatchMessage c type root e b).2 := by
  cases type with
  | hello => exact absurd rfl hhello
  | takeover => exact absurd rfl htakeover
  | release => exact absurd rfl hrelease
  | listenExpect => exact deed_handleListenExpect hc root e
  | sendExpect => exact deed_handleSendExpect hc root e
  | status => exact (deed_of_plain (passive_handleStatus c root).left).rel b
  | historyRequest => exact closure_atom (.op (.askHistory c root) rfl trivial rfl)
  | incidentsRequest => exact (deed_of_plain (passive_handleIncidentsRequest c root).left).rel b
  | autorespondersRequest =>
    exact (deed_of_plain (passive_handleAutorespondersRequest c root).left).rel b
  | send => exact (deed_handleSend c root).rel b
  | pinControl => exact (deed_handlePinControl c root).rel b
  | setBaud => exact (deed_handleSetBaud c root).rel b
  | suspend => exact (deed_handleSuspend c root).rel b
  | resume => exact (deed_handleResume c root).rel b
  | configureAnomaly => exact (deed_of_plain (plain_handleConfigureAnomaly c root)).rel b
  | configureAutoresponder =>
    exact (deed_of_plain (plain_handleConfigureAutoresponder c root)).rel b
  | interruptAutoboot => exact (deed_handleInterruptAutoboot c root).rel b
  | _ => exact (deed_sendError ..).rel b

variable (args : Json)

theorem work_runCommand (cmd pattern : Bytes) (timeoutMs : Int) (timeoutMode : Bool)
    (jsonrpcId : Option Json) :
    (work e).KeepsAt e (runCommand cmd pattern timeoutMs timeoutMode jsonrpcId) := by
  refine keepsAt_bind (work_of_looking (looking_mcpAddExpect ..)) fun added => ?_
  cases added with
  | error reply => exact keepsAt_pure _
  | ok id =>
    refine keepsAt_bind (work_of_deed (deed_brokerDoWrite _)) fun rc => keepsAt_ite (fun _ =>
      .yields (work_of_looking (looking_cancelExpect id))) fun _ => ?_
    exact keepsAt_bind (work_of_plain (plain_inputEcho ..)) fun _ =>
      keepsAt_mcpWait (work_of_looking (looking_mcpWait ..)) fun _ hfull =>
        closure_atom (.op .cancelMcpExpects rfl hfull rfl)

theorem work_toolSerialSendCommand (jsonrpcId : Option Json) :
    (work e).KeepsAt e (toolSerialSendCommand args jsonrpcId) := by
  refine keepsAt_get fun b => ?_
  split
  · exact keepsAt_pure _
  · refine keepsAt_unless fun _ => ?_
    dsimp only
    split
    · exact keepsAt_pure _
    · split
      · exact keepsAt_pure _
      · exact keepsAt_unless fun _ => keepsAt_unless fun _ => keepsAt_bind (work_of_plain passive_linkOpen.left) fun _ =>
            keepsAt_if fun _ => work_runCommand ..

theorem deed_toolSerialWrite : (deed e).KeepsAt e (toolSerialWrite args) := by
  unfold toolSerialWrite
  split
  · exact keepsAt_pure _
  · exact keepsAt_bind (deed_brokerDoWrite _) fun _ => keepsAt_unless fun _ =>
      .yields (deed_of_plain (plain_inputEcho ..))

theorem plain_toolSerialAddAutoresponder :
    plain.Keeps (toolSerialAddAutoresponder args : M ρ ToolResult) := by
  unfold toolSerialAddAutoresponder
  split
  · exact keeps_env fun _ => keeps_get fun _ =>
      keeps_bind (plain_modify fun _ => rfl) fun _ =>
        keeps_unless fun _ => keeps_pure _
  · exact keeps_pure _

theorem work_mcpScheduleBreak (durationMs : Int) (followup : Bytes) (delayMs : Int)
    (done : BreakDone) :
    (work e).KeepsAt e (mcpScheduleBreak durationMs followup delayMs done) :=
  keepsAt_bind (work_of_plain (plain_ask _)) fun _ => keepsAt_if fun _ => .yields (work_op (.brk (.schedule _ _ _ _)) rfl (fun _ => trivial) fun _ => rfl)

theorem work_toolSerialPinControl (jsonrpcId : Option Json) :
    (work e).KeepsAt e (toolSerialPinControl args jsonrpcId) := by
  unfold toolSerialPinControl
  split
  · exact keepsAt_unless fun _ =>
      keepsAt_ite (fun _ => work_mcpScheduleBreak ..) fun _ =>
        .yields (work_of_deed (deed_setParam ..))
  · exact keepsAt_pure _

theorem work_toolSerialSysrq (jsonrpcId : Option Json) :
    (work e).KeepsAt e (toolSerialSysrq args jsonrpcId) := by
  unfold toolSerialSysrq
  split
  · exact work_mcpScheduleBreak ..
  · exact keepsAt_pure _

theorem deed_toolSerialSuspend : (deed e).KeepsAt e toolSerialSuspend :=
  keepsAt_bind (deed_brokerDoSuspend _) fun _ => keepsAt_get fun _ => keepsAt_pure _

theorem deed_toolSerialResume : (deed e).KeepsAt e toolSerialResume :=
  .yields deed_brokerDoResume

theorem looking_resetWait (pattern : Bytes) (waitMs : Int) (jsonrpcId : Option Json) :
    (looking e).KeepsAt e (resetWait pattern waitMs jsonrpcId) := by
  refine keepsAt_bind (looking_mcpAddExpect ..) fun added => ?_
  cases added with
  | error reply => exact keepsAt_pure _
  | ok id =>
    exact keepsAt_mcpWait (looking_mcpWait ..) fun b _ => (looking_cancelExpect id).rel b

theorem work_toolSerialReset (jsonrpcId : Option Json) :
    (work e).KeepsAt e (toolSerialReset args jsonrpcId) := by
  refine keepsAt_unless fun _ => keepsAt_bind (work_of_plain (plain_ask _))
    fun mem => keepsAt_if fun _ => ?_
  refine keepsAt_bind (work_op (.brk (.lineReset _ _ _)) rfl (fun _ => trivial) fun _ => rfl) fun rc =>
    keepsAt_unless fun _ => ?_
  split
  · exact keepsAt_pure _
  · exact work_of_looking (looking_resetWait ..)

theorem plain_toolSerialAddWatchdog :
    plain.Keeps (toolSerialAddWatchdog args : M ρ ToolResult) := by
  unfold toolSerialAddWatchdog
  dsimp only
  split
  · exact keeps_env fun _ => keeps_get fun _ =>
      keeps_bind (plain_modify fun _ => rfl) fun _ =>
        keeps_unless fun _ => keeps_pure _
  · exact keeps_pure _

theorem work_of_passive {p : M ρ α} (h : passive.Keeps p) : (work e).KeepsAt e p :=
  work_of_plain h.left

theorem work_runTool (name : Bytes) (args : Json) (jsonrpcId : Option Json) :
    (work e).KeepsAt e (runTool name args jsonrpcId) := by
  unfold runTool
  refine keepsAt_ite (fun _ => work_toolSerialSendCommand ..) fun _ => ?_
  refine keepsAt_ite (fun _ => work_of_passive passive_toolSerialRead) fun _ => ?_
  refine keepsAt_ite (fun _ => work_of_deed (deed_toolSerialWrite _)) fun _ => ?_
  refine keepsAt_ite (fun _ => work_of_passive (passive_toolStatus _)) fun _ => ?_
  refine keepsAt_ite (fun _ => work_of_passive (passive_toolStatus _)) fun _ => ?_
  refine keepsAt_ite (fun _ => work_of_plain (plain_toolSerialAddAutoresponder _)) fun _ => ?_
  refine keepsAt_ite (fun _ => work_toolSerialPinControl ..) fun _ => ?_
  refine keepsAt_ite (fun _ => work_toolSerialReset ..) fun _ => ?_
  refine keepsAt_ite (fun _ => work_toolSerialSysrq ..) fun _ => ?_
  refine keepsAt_ite (fun _ => work_of_deed deed_toolSerialSuspend) fun _ => ?_
  refine keepsAt_ite (fun _ => work_of_deed deed_toolSerialResume) fun _ => ?_
  refine keepsAt_ite (fun _ => work_of_looking (looking_toolSerialWaitFor ..)) fun _ => ?_
  refine keepsAt_ite (fun _ => work_of_passive (passive_toolSerialOutputHistory _)) fun _ => ?_
  refine keepsAt_ite (fun _ => work_of_passive (passive_toolSerialGetIncidents _)) fun _ => ?_
  refine keepsAt_ite (fun _ => work_of_plain (plain_toolSerialAddWatchdog _)) fun _ => ?_
  refine keepsAt_ite (fun _ => work_of_looking (looking_toolSerialMonitor ..)) fun _ => ?_
  refine keepsAt_ite (fun _ => work_of_passive passive_toolSerialGenerateReport) fun _ => ?_
  exact keepsAt_unless fun _ => keepsAt_pure _

theorem work_handleToolsCall (id : Option Json) (params : Json) :
    (work e).KeepsAt e (handleToolsCall id params) := by
  unfold handleToolsCall
  split
  · exact work_of_plain (plain_mcpReply ..)
  · refine keepsAt_bind ?_ fun reply => ?_
    · exact keepsAt_env (keepsAt_get fun _ => keepsAt_unless fun _ =>
        keepsAt_unless fun _ => work_runTool ..)
    · cases reply with
      | some reply => exact work_of_plain (plain_mcpReply ..)
      | none => exact work_op (.defer id) rfl (fun _ => trivial) fun _ => rfl

theorem deed_processHistory : (deed e).KeepsAt e processHistory :=
  deed_op .answerHistory rfl (fun _ => trivial) fun _ => rfl

theorem deed_startTurn : (deed e).KeepsAt e startTurn :=
  keepsAt_get fun _ => keepsAt_bind (keepsAt_when fun _ => deed_processExpectResults) fun _ =>
    keepsAt_get fun _ => keepsAt_bind (keepsAt_when fun _ => deed_processHistory)
      fun _ => keepsAt_bind (deed_op .reconnect rfl (fun _ => trivial) fun _ => rfl) fun _ =>
        deed_op .deadline rfl (fun _ => trivial) fun _ => rfl

theorem plain_checkLinkHealth (now : Rat) : plain.Keeps (checkLinkHealth now : M ρ Unit) := by
  refine keeps_env fun e => plain_modify fun b => ?_
  split_ifs
  · rfl
  · dsimp only
    split_ifs
    · rfl
    · rfl
    · rfl

end Smolmux.Broker
