import Smolmux.Broker.DeviceHandlers
import Smolmux.Broker.WriteAuthorisation

/-! What can happen to the clients of the broker. The whole event loop is made of
these acts, of registrations and of the events of clients, so what they all keep is
kept in every run. -/

namespace Smolmux.Broker
open Protocol Smolmux.Client Smolmux.Frame

variable {ρ α : Type}

def carriesToken (token : Bytes) (msg : Msg) : Bool :=
  msg.type = .hello && (msg.root.getD .null).getString "token" == some token

def Event.authenticates (token : Bytes) (serial : Nat) : Event → Bool
  | .dispatched s msg => s == serial && carriesToken token msg
  | _ => false

def Authenticated (token : Bytes) (trace : List Event) (serial : Nat) : Prop :=
  ∃ ev ∈ trace, ev.authenticates token serial = true

instance (token : Bytes) (trace : List Event) (serial : Nat) :
    Decidable (Authenticated token trace serial) :=
  inferInstanceAs (Decidable (∃ ev ∈ trace, ev.authenticates token serial = true))

theorem Authenticated.mono {token : Bytes} {t u : List Event} {serial : Nat}
    (h : Authenticated token t serial) (htu : t ⊆ u) : Authenticated token u serial := by
  obtain ⟨ev, hmem, hev⟩ := h
  exact ⟨ev, htu hmem, hev⟩

/-- One thing that happens to the clients or the device, with what is known when
it does. -/
inductive Act (e : Env ρ) (b b' : Broker ρ) : Prop where
  | deed (h : Work plain Op.isDeed e b b')
  | tools (id : Option Json) (params : Json) (h : b' = (handleToolsCall id params e b).2)
  | dispatched (c : Client) (hc : c ∈ b.clients) (msg : Msg)
      (h : b' = b.noted (.dispatched c.serial msg))
  | renamed (c : Client) (hc : b.clientAt c.addr = some c) (hhello : c.helloReceived = false)
      (f : Bytes → Bytes)
      (h : b' = (updateClient c.addr (fun c => { c with name := f c.name }) e b).2)
  | admitted (c : Client) (hc : b.clientAt c.addr = some c) (hhello : c.helloReceived = false)
      (hauth : c.requiresAuth = true → b.authToken ≠ [] →
        Authenticated b.authToken b.trace c.serial)
      (role : Option Role) (h : b' = (acceptHello c.addr role e b).2)
  | removed (a : Addr) (h : b' = (removeClient a e b).2)
  | taken (c : Client) (hc : b.clientAt c.addr = some c) (hhello : c.helloReceived = true)
      (hrole : c.role = .controller)
      (hfree : b.takeoverClient = none ∨ b.takeoverClient = some c.addr)
      (h : b' = { b with takeoverClient := some c.addr })
  | released (a : Addr)
      (h : b' = { b with
        takeoverClient := if b.takeoverClient = some a then none else b.takeoverClient })

def act (e : Env ρ) : Frame (Broker ρ) := closure (Act e)

theorem rel_handleToolsCall {F : Frame (Broker ρ)} {e : Env ρ}
    (h : ∀ b b', Work plain Op.inTurn e b b' → F.rel b b') (id : Option Json) (params : Json)
    (b : Broker ρ) : F.rel b (handleToolsCall id params e b).2 :=
  closure_le F h ((work_handleToolsCall id params).rel b)

theorem calm_handleToolsCall (id : Option Json) (params : Json) (e : Env ρ) (b : Broker ρ) :
    Calm (fun _ => True) b (handleToolsCall id params e b).2 :=
  rel_handleToolsCall (F := ⟨Calm fun _ => True, .refl _, .trans⟩) (fun _ _ => Work.calm) id params b

theorem calm_replugged (b : Broker ρ) : Calm (fun _ => True) b b.replugged :=
  (moves_replugged b).calm.mono fun _ _ => trivial

theorem calm_connecting (flags : EpollFlags) (e : Env ρ) (b : Broker ρ) :
    Calm (fun _ => True) b (handleLinkConnecting flags e b).2 :=
  (moves_run (.connecting flags) e b).calm.mono fun _ _ => trivial

theorem calm_record (buf : Bytes) (ts : Rat) (e : Env ρ) (b : Broker ρ) :
    Calm (fun _ => True) b (recordOutput buf ts e b).2 :=
  (moves_run (.record buf ts) e b).calm.mono fun _ _ => trivial

theorem calm_stopFlood (e : Env ρ) (b : Broker ρ) :
    Calm (fun _ => True) b (updateFlood Flood.stopped e b).2 :=
  (moves_run .stopFlood e b).calm.mono fun _ _ => trivial

variable {e : Env ρ}

variable {b : Broker ρ}

theorem act_of_deed_rel {b' : Broker ρ} (h : (deed e).rel b b') : (act e).rel b b' :=
  closure_le (act e) (fun _ _ hatom => closure_atom (.deed hatom)) h

theorem act_of_deed {p : M ρ α} (h : (deed e).KeepsAt e p) : (act e).KeepsAt e p :=
  h.mono fun _ _ => act_of_deed_rel

theorem act_of_plain {p : M ρ α} (h : plain.Keeps p) : (act e).KeepsAt e p :=
  act_of_deed (deed_of_plain h)

variable (a : Addr)

theorem act_removeClient : (act e).KeepsAt e (removeClient a) :=
  ⟨fun _ => closure_atom (.removed a rfl)⟩

variable {c : Client} {root : Json}

theorem mem_of_clientAt {a : Addr} (h : b.clientAt a = some c) :
    c ∈ b.clients := List.mem_of_find?_eq_some h

theorem ident_mem {a : Addr} (h : b.clientAt a = some c) :
    c.ident ∈ b.idents := List.mem_map_of_mem (mem_of_clientAt h)

theorem clientAt_updateClient (b : Broker ρ) (a : Addr) {f : Client → Client}
    (hf : ∀ c, (f c).addr = c.addr) (e : Env ρ) (a' : Addr) :
    (updateClient a f e b).2.clientAt a' =
      (b.clientAt a').map fun c => if c.addr = a then f c else c := by
  have hcomp : ((·.addr == a') ∘ fun c : Client => if c.addr = a then f c else c) =
      (·.addr == a') := by
    funext c
    rw [Function.comp_apply]
    split_ifs
    · rw [hf]
    · rfl
  change (b.clients.map _).find? _ = _
  rw [List.find?_map, hcomp]
  rfl

theorem token_of_tokenAccepted (h : tokenAccepted b c root)
    (hrequires : c.requiresAuth = true) (htoken : b.authToken ≠ []) : root.getString "token" = some b.authToken := by
  rw [tokenAccepted, if_pos ⟨hrequires, htoken⟩] at h
  cases hget : root.getString "token" with
  | none => simp [hget] at h
  | some token =>
    rw [hget] at h
    rw [(ctStrEqual_iff token b.authToken).mp h]

theorem plain_refuseHello : plain.Keeps (refuseHello a : M ρ Unit) :=
  keeps_bind (plain_sendError ..) fun _ => keeps_bind (plain_flushClient _) fun _ =>
    plain_updateClient _ fun _ => rfl

theorem act_sendError (id : Option Bytes) (message : String) :
    (act e).KeepsAt e (sendError a id message) := act_of_plain (plain_sendError ..)

theorem act_handleHello (hc : b.clientAt c.addr = some c)
    (hauth : root.getString "token" = some b.authToken →
      Authenticated b.authToken b.trace c.serial) (e : Env ρ) :
    (act e).rel b (handleHello c root e b).2 := by
  rw [handleHello, Proc.bind_apply, Proc.get_apply]
  refine rel_ite (fun _ => (act_sendError ..).rel b) fun hhello =>
    rel_ite (fun _ => (act_of_plain (plain_refuseHello _)).rel b) fun htoken => ?_
  cases helloRole root with
  | none => exact (act_sendError ..).rel b
  | some role =>
    have hhello : c.helloReceived = false := by simpa using hhello
    have htoken : tokenAccepted b c root := by simpa using htoken
    have hrenamed := closure_atom (Act.renamed c hc hhello
      (fun name => (root.getString "name").elim name (stored 64)) (e := e) rfl)
    refine (act e).trans hrenamed (rel_ite (fun _ => ?_) fun _ =>
      (act_sendError ..).rel _)
    refine closure_atom (.admitted
      { c with name := (root.getString "name").elim c.name (stored 64) } ?_ hhello ?_ role rfl)
    · rw [clientAt_updateClient, hc]
      · simp
      · exact fun _ => rfl
    · intro hrequires hset
      exact hauth (token_of_tokenAccepted htoken hrequires hset)

theorem act_handleTakeover (hc : b.clientAt c.addr = some c) (hhello : c.helloReceived)
    (root : Json) (e : Env ρ) :
    (act e).rel b (handleTakeover c root e b).2 := by
  rw [handleTakeover, Proc.bind_apply, Proc.get_apply]
  refine rel_ite (fun _ => (act_sendError ..).rel b) fun hrole =>
    rel_ite (fun _ => (act_sendError ..).rel b) fun hfree => ?_
  have hrole : c.role = .controller := by
    cases h : c.role with
    | observer => exact absurd h hrole
    | controller => rfl
  have hfree : b.takeoverClient = none ∨ b.takeoverClient = some c.addr := by
    cases h : b.takeoverClient with
    | none => exact .inl rfl
    | some t => simpa [h] using hfree
  have htaken := closure_atom (Act.taken (e := e) c hc hhello hrole hfree rfl)
  exact (act e).trans htaken ((act_of_plain (plain_sendToClient ..)).rel _)

theorem act_handleRelease (c : Client) (root : Json) :
    (act e).KeepsAt e (handleRelease c root) :=
  keepsAt_bind ⟨fun _ => closure_atom (.released c.addr rfl)⟩ fun _ =>
    act_of_plain (plain_sendToClient ..)

theorem act_dispatchMessage (hc : b.clientAt c.addr = some c) {type : MsgType}
    (hhello : type ≠ .hello → c.helloReceived)
    (hauth : type = .hello → root.getString "token" = some b.authToken →
      Authenticated b.authToken b.trace c.serial) (e : Env ρ) :
    (act e).rel b (dispatchMessage c type root e b).2 := by
  by_cases h₁ : type = .hello
  · subst h₁
    exact act_handleHello hc (hauth rfl) e
  · by_cases h₂ : type = .takeover
    · subst h₂
      exact act_handleTakeover hc (hhello h₁) root e
    · by_cases h₃ : type = .release
      · subst h₃
        exact (act_handleRelease c root).rel b
      · exact act_of_deed_rel (deed_dispatchMessage h₁ h₂ h₃ (ident_mem hc) root e)

theorem act_handleClientMessage (msg : Msg) :
    (act e).KeepsAt e (handleClientMessage a msg) := by
  refine ⟨fun b => ?_⟩
  cases hc : b.clientAt a with
  | none =>
    rw [handleClientMessage_none hc]
    exact (act e).refl b
  | some c =>
    have haddr : c.addr = a := addr_of_clientAt hc
    subst haddr
    have hnoted := closure_atom (Act.dispatched (e := e) c (mem_of_clientAt hc) msg rfl)
    have hc' : (b.noted (.dispatched c.serial msg)).clientAt c.addr = some c := hc
    rw [handleClientMessage_some hc]
    refine (act e).trans hnoted (rel_ite (fun _ => (act_sendError ..).rel _) fun h => ?_)
    refine act_dispatchMessage hc' (fun hne => ?_) (fun htype htoken => ?_) e
    · cases hhello : c.helloReceived with
      | true => rfl
      | false => exact absurd ⟨hhello, hne⟩ h
    · exact ⟨.dispatched c.serial msg, by simp [Broker.noted], by
        simpa [Event.authenticates, carriesToken, htype] using htoken⟩

theorem act_reply (id : Option Json) (reply : McpReply) :
    (act e).KeepsAt e (emit (.mcpReply id reply)) := act_of_plain (plain_mcpReply ..)

theorem act_mcpDispatchMessage (msg : Json) : (act e).KeepsAt e (mcpDispatchMessage msg) := by
  unfold mcpDispatchMessage
  dsimp only
  split
  · exact keepsAt_if fun _ => act_reply ..
  · refine keepsAt_ite (fun _ => ?_) fun _ => keepsAt_unless fun _ =>
      keepsAt_ite (fun _ => act_reply ..) fun _ => keepsAt_ite (fun _ => ?_) fun _ => ?_
    · exact keepsAt_bind (act_reply ..) fun _ => act_of_plain (plain_updateMcp fun _ => rfl)
    · exact ⟨fun b => closure_atom (.tools _ _ rfl)⟩
    · exact keepsAt_ite (fun _ => act_reply ..) fun _ => keepsAt_ite (fun _ => act_reply ..) fun _ =>
        keepsAt_if fun _ => act_reply ..

theorem act_mcpLine (line : Bytes) : (act e).KeepsAt e (mcpLine line) := by
  refine keepsAt_env ?_
  split
  · exact act_mcpDispatchMessage _
  · exact act_reply ..

theorem plain_mcpReadRoom (mcp : McpSink) : plain.Keeps (mcpReadRoom mcp : M ρ (Option Nat)) := by
  refine keeps_unless fun _ => keeps_ite (fun _ => ?_) fun _ => ?_
  · exact .yields (plain_updateMcp fun _ => rfl)
  · exact keeps_bind (plain_ask _) fun _ => keeps_if fun _ => .yields (plain_updateMcp fun _ => rfl)

theorem act_mcpOnReadable (read : McpRead) : (act e).KeepsAt e (mcpOnReadable read) := by
  refine keepsAt_get fun b => ?_
  split
  · exact keepsAt_pure _
  · refine keepsAt_bind (act_of_plain (plain_mcpReadRoom _)) fun room => ?_
    cases room with
    | none => exact keepsAt_pure _
    | some room =>
      cases read with
      | eof => exact act_of_plain (plain_modify fun _ => rfl)
      | failed => exact keepsAt_pure _
      | data bytes =>
        exact keepsAt_bind (keepsAt_each _ fun line _ => act_mcpLine line) fun _ =>
          act_of_plain (plain_updateMcp fun _ => rfl)

section Loop

theorem plain_feedClient (read : Bytes × ReadOutcome) :
    plain.Keeps (feedClient a read : M ρ (List Msg)) := by
  refine keeps_env fun e => keeps_get fun b => ?_
  split
  · exact keeps_pure _
  · exact .yields (plain_updateClient a fun _ => rfl)

theorem act_handleUnlessGone (msg : Msg) :
    (act e).KeepsAt e (handleUnlessGone a msg) :=
  keepsAt_get fun _ => keepsAt_unless fun _ => act_handleClientMessage a msg

theorem act_readClient (reads : Nat → Bytes × ReadOutcome) (left k : Nat) :
    (act e).KeepsAt e (readClient a reads left k) := by
  induction left generalizing k with
  | zero => exact keepsAt_pure _
  | succ left ih =>
    refine keepsAt_bind (act_of_plain (plain_feedClient ..)) fun msgs =>
      keepsAt_bind (keepsAt_each _ fun msg _ => act_handleUnlessGone a msg) fun _ =>
        keepsAt_get fun b => keepsAt_ite (fun _ => ?_) fun _ =>
          keepsAt_if (fun _ => ih _)
    exact .yields (act_removeClient a)

theorem plain_watchWrites : plain.Keeps (watchWrites a : M ρ Unit) :=
  plain_updateClient a fun _ => rfl

theorem act_finishClientEvent (flags : EpollFlags) :
    (act e).KeepsAt e (finishClientEvent a flags) := by
  refine keepsAt_ite (fun _ => act_removeClient a) fun _ => keepsAt_get fun b => keepsAt_if fun _ =>
    keepsAt_ite (fun _ => ?_) fun _ => act_of_plain (plain_watchWrites a)
  refine keepsAt_bind (act_of_plain (plain_flushClient a)) fun result => ?_
  cases result with
  | done =>
    exact act_of_plain (keeps_bind (plain_updateClient a fun _ => rfl) fun _ => plain_watchWrites a)
  | pending => exact act_of_plain (plain_watchWrites a)
  | error => exact act_removeClient a

theorem act_processClientEvent (input : ClientInput) :
    (act e).KeepsAt e (processClientEvent a input) :=
  keepsAt_bind (keepsAt_if fun _ => act_readClient ..) fun _ =>
    keepsAt_if fun _ => act_finishClientEvent ..

theorem act_flushClientQueues (left i : Nat) : (act e).KeepsAt e (flushClientQueues left i) := by
  induction left generalizing i with
  | zero => exact keepsAt_pure _
  | succ left ih =>
    refine keepsAt_get fun b => ?_
    split
    · exact keepsAt_pure _
    · refine keepsAt_ite (fun _ => keepsAt_bind (act_of_plain (plain_flushClient _)) fun result => ?_)
        fun _ => ih _
      cases result with
      | error => exact keepsAt_bind (act_removeClient _) fun _ => ih _
      | done => exact ih _
      | pending => exact ih _

theorem act_dropIfStale (now : Rat) (peerGone : Addr → Bool) (i : Nat) :
    (act e).KeepsAt e (dropIfStale now peerGone i) := by
  refine keepsAt_get fun b => ?_
  split
  · exact keepsAt_pure _
  · exact keepsAt_if fun _ => act_removeClient _

theorem act_dropStaleClients (now : Rat) (peerGone : Addr → Bool) (i : Nat) :
    (act e).KeepsAt e (dropStaleClients now peerGone i) := by
  induction i with
  | zero => exact keepsAt_pure _
  | succ i ih => exact keepsAt_bind (act_dropIfStale ..) fun _ => ih

theorem act_endTurn (peerGone : Addr → Bool) : (act e).KeepsAt e (endTurn peerGone) := by
  refine keepsAt_get fun b => keepsAt_bind (keepsAt_when fun _ => act_flushClientQueues ..)
    fun _ => keepsAt_bind (act_of_plain (plain_ask _)) fun now => keepsAt_get fun b =>
      keepsAt_if fun _ => ?_
  exact keepsAt_bind (act_of_plain (plain_modify fun _ => rfl)) fun _ =>
    keepsAt_bind (act_dropStaleClients ..) fun _ => act_of_plain (plain_checkLinkHealth _)

def LoopEvent.isLink : LoopEvent → Bool
  | .link .. => true
  | _ => false

def Step.atDesk : Step → Bool
  | .event ev => !ev.isLink
  | .shutdown | .replug => false
  | _ => true

theorem act_handleEvent {ev : LoopEvent} (hclient : ∀ addr serial input, ev ≠ .client addr serial input)
    (hlisten : ∀ reg, ev ≠ .listen reg) (hpipe : ∀ regs, ev ≠ .pipe regs)
    (htcp : ∀ regs, ev ≠ .tcp regs) (hlink : ev.isLink = false) :
    (act e).KeepsAt e (handleEvent ev) := by
  cases ev with
  | listen reg => exact absurd rfl (hlisten reg)
  | pipe regs => exact absurd rfl (hpipe regs)
  | tcp regs => exact absurd rfl (htcp regs)
  | client addr serial input => exact absurd rfl (hclient addr serial input)
  | link flags reads => cases hlink
  | breakTimer =>
    exact act_of_deed (deed_op (.brk .timer) rfl (fun _ => trivial) fun _ => rfl)
  | floodTimer => exact act_of_deed (deed_op .floodTimer rfl (fun _ => trivial) fun _ => rfl)
  | stallTimer => exact act_of_deed (deed_op .stallTimer rfl (fun _ => trivial) fun _ => rfl)
  | linkOut flags =>
    exact keepsAt_get fun _ => keepsAt_if (fun _ => act_of_deed deed_flushLink)
  | mcp read => exact keepsAt_get fun _ => act_mcpOnReadable read

/-- What a turn keeps that has no events of the link: it is in the frame when acts,
registrations and the events of clients are. -/
structure DeskFrame (e : Env ρ) (F : Frame (Broker ρ)) : Prop where
  act : ∀ b b', Act e b b' → F.rel b b'
  register : ∀ reg, F.KeepsAt e (brokerRegisterClient reg)
  applied : ∀ (b : Broker ρ) (c : Client) (reported : Nat), b.clientAt c.addr = some c →
    F.rel b (b.noted (.applied reported c.serial))

/-- What every turn of the loop keeps; a connect is looked at while it is under
way, and the output of the device is recorded. -/
structure TurnFrame (e : Env ρ) (F : Frame (Broker ρ)) : Prop extends DeskFrame e F where
  connecting : ∀ flags (b : Broker ρ), b.linkConnecting = true → b.suspended = false →
    F.rel b (handleLinkConnecting flags e b).2
  record : ∀ buf ts, F.KeepsAt e (recordOutput buf ts)

/-- What every step of the loop keeps, the shutdown with its end of the flood and
changes of the device included. -/
structure LoopFrame (e : Env ρ) (F : Frame (Broker ρ)) : Prop extends TurnFrame e F where
  stop : F.KeepsAt e (updateFlood Flood.stopped)
  replug : ∀ b : Broker ρ, F.rel b b.replugged

variable {F : Frame (Broker ρ)}

namespace DeskFrame

theorem loop (hF : DeskFrame e F)
    (hcalm : ∀ b b' : Broker ρ, Calm (fun _ => True) b b' → F.rel b b') : LoopFrame e F where
  toDeskFrame := hF
  connecting flags b _ _ := hcalm _ _ (calm_connecting flags e b)
  record buf ts := ⟨fun b => hcalm _ _ (calm_record buf ts e b)⟩
  stop := ⟨fun b => hcalm _ _ (calm_stopFlood e b)⟩
  replug b := hcalm _ _ (calm_replugged b)

theorem keeps_of_act (hF : DeskFrame e F) {p : M ρ α} (h : (Broker.act e).KeepsAt e p) :
    F.KeepsAt e p := h.mono fun _ _ => closure_le F hF.act

/-- The end of a broker keeps what every act of it keeps, and what the last of its
clients and its link may be taken away from. -/
theorem brokerDestroy (hF : DeskFrame e F)
    (hmoves : ∀ b b' : Broker ρ, (moves fun s => s == .wire || s == .boot).rel b b' → F.rel b b')
    (hclear : ∀ b : Broker ρ, F.rel b
      { b with clients := [], historyPending := History.historyPendingClear }) :
    F.KeepsAt e brokerDestroy :=
  keepsAt_bind (hF.keeps_of_act (act_of_deed deed_breakCancel)) fun _ =>
    keepsAt_bind (hF.keeps_of_act (act_of_deed deed_floodCancel)) fun _ =>
      keepsAt_bind (((moves_stallDisarm rfl).at e).mono hmoves) fun _ => keepsAt_bind ⟨hclear⟩
        fun _ => .yields (((moves_callLink _ rfl).at e).mono hmoves)

theorem handleClientEvent (hF : DeskFrame e F) (addr : Addr) (serial : Nat) (input : ClientInput) :
    F.KeepsAt e (Broker.handleClientEvent addr serial input) := by
  refine ⟨fun b => ?_⟩
  cases hc : b.clientAt addr with
  | none =>
    have hrun : Broker.handleClientEvent addr serial input e b = ((), b) := by
      simp [Broker.handleClientEvent, hc]
    rw [hrun]
    exact F.refl b
  | some c =>
    have haddr : c.addr = addr := addr_of_clientAt hc
    subst haddr
    have hrun : Broker.handleClientEvent c.addr serial input e b =
        processClientEvent c.addr input e (b.noted (.applied serial c.serial)) := by
      simp [Broker.handleClientEvent, hc, emit]
    rw [hrun]
    exact F.trans (hF.applied b c serial hc) ((hF.keeps_of_act (act_processClientEvent ..)).rel _)

theorem handleEvent (hF : DeskFrame e F) {ev : LoopEvent} (hlink : ev.isLink = false) :
    F.KeepsAt e (handleEvent ev) := by
  cases ev with
  | listen reg => exact keepsAt_get fun _ => hF.register _
  | pipe regs => exact keepsAt_get fun _ => keepsAt_each _ fun reg _ => hF.register reg
  | tcp regs => exact keepsAt_get fun _ => keepsAt_each _ fun reg _ => hF.register _
  | client addr serial input => exact keepsAt_get fun _ => hF.handleClientEvent ..
  | link flags reads => cases hlink
  | _ => exact hF.keeps_of_act (act_handleEvent (by simp) (by simp) (by simp) (by simp) rfl)

theorem step (hF : DeskFrame e F) {s : Step} (hs : s.atDesk) : F.KeepsAt e (Broker.step s) := by
  cases s with
  | startTurn => exact hF.keeps_of_act (act_of_deed deed_startTurn)
  | event ev => exact hF.handleEvent (Bool.not_eq_true' _ ▸ hs)
  | message addr msg => exact hF.keeps_of_act (act_handleClientMessage addr msg)
  | endTurn peerGone => exact hF.keeps_of_act (act_endTurn peerGone)
  | shutdown => cases hs
  | replug => cases hs

theorem shutdown (hF : DeskFrame e F) (b : Broker ρ)
    (h : ∀ b', b'.flood = b.flood → F.rel b' (updateFlood Flood.stopped e b').2) :
    F.rel b (shutdown e b).2 := by
  have hbreak := (hF.keeps_of_act (act_of_deed deed_breakCancel)).rel b
  have htimer := (hF.keeps_of_act (act_of_deed (deed_op (.brk .dropTimer) rfl (fun _ => trivial)
    fun _ => rfl))).rel (breakCancel e b).2 (p := updateBreak fun m => { m with timer := false })
  have hflood : (breakCancel e b).2.flood = b.flood :=
    (moves_run (.brk .cancel) e b).part .flood rfl
  have hend := (hF.keeps_of_act (act_of_plain (plain_modify (f := fun b : Broker ρ =>
    { b with stallTimer := false }) fun _ => rfl))).rel
  exact F.trans hbreak (F.trans htimer (F.trans (h _ hflood) (hend _)))

end DeskFrame

namespace TurnFrame

theorem mono {G : Frame (Broker ρ)} (hF : TurnFrame e F) (h : ∀ b b', F.rel b b' → G.rel b b') :
    TurnFrame e G where
  act b b' hact := h b b' (hF.act b b' hact)
  register reg := (hF.register reg).mono h
  applied b c reported hc := h _ _ (hF.applied b c reported hc)
  connecting flags b hconnecting hsuspended := h _ _ (hF.connecting flags b hconnecting hsuspended)
  record buf ts := (hF.record buf ts).mono h

theorem inter {G : Frame (Broker ρ)} (hF : TurnFrame e F) (hG : TurnFrame e G) :
    TurnFrame e (F.inter G) where
  act b b' h := ⟨hF.act b b' h, hG.act b b' h⟩
  register reg := ⟨fun b => ⟨(hF.register reg).rel b, (hG.register reg).rel b⟩⟩
  applied b c reported hc := ⟨hF.applied b c reported hc, hG.applied b c reported hc⟩
  connecting flags b hconnecting hsuspended := ⟨hF.connecting flags b hconnecting hsuspended,
    hG.connecting flags b hconnecting hsuspended⟩
  record buf ts := ⟨fun b => ⟨(hF.record buf ts).rel b, (hG.record buf ts).rel b⟩⟩

theorem keeps_of_linkWork (hF : TurnFrame e F) {p : M ρ α} (h : (linkWork e).KeepsAt e p) :
    F.KeepsAt e p := by
  refine h.mono fun _ _ => closure_le F fun b b' hatom => ?_
  cases hatom with
  | step h => exact hF.act _ _ (.deed (.step h))
  | op op hop hready h =>
    subst h
    cases op with
    | record buf ts => exact (hF.record buf ts).rel b
    | _ => exact hF.act _ _ (.deed (.op _ hop hready rfl))

theorem handleLink (hF : TurnFrame e F) (flags : EpollFlags) (reads : List LinkRead) :
    F.KeepsAt e (handleEvent (.link flags reads)) := by
  refine ⟨fun b => rel_ite (fun h => ?_) fun _ => rel_ite (fun _ => ?_) fun _ => F.refl b⟩
  · exact hF.connecting flags b h.1 h.2
  · exact (hF.keeps_of_linkWork (linkWork_handleLinkEvent flags reads)).rel b

theorem step (hF : TurnFrame e F) {s : Step} (hs : s ≠ .shutdown) (hs' : s ≠ .replug) :
    F.KeepsAt e (step s) := by
  cases s with
  | event ev =>
    cases ev with
    | link flags reads => exact hF.handleLink flags reads
    | _ => exact hF.toDeskFrame.step rfl
  | shutdown => exact absurd rfl hs
  | replug => exact absurd rfl hs'
  | _ => exact hF.toDeskFrame.step rfl

theorem step_of_stop (hF : TurnFrame e F) (hstop : F.KeepsAt e (updateFlood Flood.stopped)) {s : Step}
    (hs : s ≠ .replug) : F.KeepsAt e (Broker.step s) := by
  by_cases hshut : s = .shutdown
  · subst hshut
    exact ⟨fun b => hF.shutdown b fun b' _ => hstop.rel b'⟩
  · exact hF.step hshut hs

end TurnFrame

namespace LoopFrame

theorem step (hF : LoopFrame e F) (s : Step) : F.KeepsAt e (step s) := by
  by_cases hs : s = .replug
  · subst hs
    exact ⟨hF.replug⟩
  · exact hF.step_of_stop hF.stop hs

theorem runSteps (hF : LoopFrame e F) (b : Broker ρ) (steps : List Step) :
    F.rel b (runSteps e b steps) := (keepsAt_each steps fun s _ => hF.step s).rel b

end LoopFrame

def alongSteps (e : Env ρ) (P : Broker ρ → Step → Bool) : Broker ρ → List Step → Bool
  | _, [] => true
  | b, s :: steps => P b s && alongSteps e P (Broker.step s e b).2 steps

theorem rel_alongSteps {P : Broker ρ → Step → Bool}
    (hstep : ∀ b s, P b s → F.rel b (Broker.step s e b).2) {steps : List Step}
    (h : alongSteps e P b steps) : F.rel b (runSteps e b steps) := by
  induction steps generalizing b with
  | nil => exact F.refl b
  | cons s steps ih =>
    simp only [alongSteps, Bool.and_eq_true] at h
    exact F.trans (hstep b s h.1) (ih h.2)

end Loop

end Smolmux.Broker
