import Smolmux.Broker.Takeover

/-! What a `send_expect` that fails leaves behind. The expect is registered before its
data are looked at, and a failure takes it back with a cancel that goes by the id of the
message, over the expects of all clients. -/

namespace Smolmux.Broker
open Expect Smolmux.Frame List Base64 Protocol

variable {ρ α : Type}

def Event.isError : Event → Bool
  | .sent _ false msg => msg.getString "type" == some (ascii "error")
  | _ => false

def mute : Frame (Broker ρ) where
  rel b b' := b'.expect = b.expect ∧
    Grows (fun ev : Event => ev.isError = false) b.trace b'.trace
  refl b := ⟨rfl, .refl _ _⟩
  trans h h' := ⟨h'.1.trans h.1, h.2.trans h'.2⟩

theorem mute_modify {f : Broker ρ → Broker ρ}
    (h : ∀ b, (f b).expect = b.expect ∧ (f b).trace = b.trace) :
    mute.Keeps (Proc.modify f : M ρ Unit) := by
  refine ⟨fun _ b => ⟨(h b).1, ?_⟩⟩
  rw [Proc.modify_apply, (h b).2]
  exact .refl _ _

theorem mute_ask (f : Env ρ → Nat → α) : mute.Keeps (ask f) := ⟨fun _ _ => ⟨rfl, .refl _ _⟩⟩

theorem mute_emit {ev : Event} (h : ev.isError = false) : mute.Keeps (emit ev : M ρ Unit) :=
  ⟨fun _ _ => ⟨rfl, .single (P := fun ev : Event => ev.isError = false) h _⟩⟩

theorem mute_callLink (op : LinkOp) : mute.Keeps (callLink op : M ρ Int) :=
  keeps_env fun _ => keeps_get fun _ => keeps_bind (mute_ask _) fun _ =>
    keeps_bind (mute_modify fun _ => ⟨rfl, rfl⟩) fun _ =>
      .yields (mute_emit rfl)

theorem mute_linkEpollCtl (op : EpollOp) (fd : Int) (interest : Interest) :
    mute.Keeps (linkEpollCtl op fd interest : M ρ Int) := by
  refine keeps_bind (mute_ask _) fun _ => keeps_get fun _ =>
    keeps_bind (mute_modify fun b => ?_) fun _ => .yields (mute_emit rfl)
  split
  · exact ⟨rfl, rfl⟩
  · exact ⟨rfl, rfl⟩

theorem mute_updateWriteEpoll (fd : Int) (pending : Bool) :
    mute.Keeps (updateWriteEpoll fd pending : M ρ Unit) :=
  keeps_ite (fun _ => keeps_bind (mute_linkEpollCtl ..) fun _ => keeps_when fun _ =>
    .yields (mute_linkEpollCtl ..)) fun _ =>
      .yields (mute_linkEpollCtl ..)

theorem mute_brokerUpdateLinkEpoll : mute.Keeps (brokerUpdateLinkEpoll : M ρ Unit) :=
  keeps_get fun _ => keeps_unless fun _ =>
    keeps_env fun _ =>
      keeps_bind (keeps_env fun _ => keeps_get fun _ => keeps_pure _) fun _ =>
        keeps_bind (keeps_when fun _ => .yields (mute_linkEpollCtl ..))
          fun _ => keeps_when fun _ => mute_updateWriteEpoll ..

theorem mute_brokerDoWrite (data : Bytes) : mute.Keeps (brokerDoWrite data : M ρ Int) :=
  keeps_get fun _ => keeps_unless fun _ =>
    keeps_unless fun _ => keeps_bind (mute_callLink _) fun _ =>
      keeps_unless fun _ =>
        .yields mute_brokerUpdateLinkEpoll

theorem mute_broadcast (msg : Json) (exclude : Option Addr) :
    mute.Keeps (broadcast msg exclude : M ρ Unit) := by
  refine keeps_bind (mute_ask _) fun _ => keeps_if fun _ => ?_
  refine keeps_get fun b => keeps_each _ fun c _ => ?_
  refine keeps_unless fun _ => keeps_env fun _ =>
    keeps_bind (mute_ask _) fun _ => keeps_bind (mute_emit rfl) fun _ => ?_
  exact mute_modify fun _ => ⟨rfl, rfl⟩

theorem mute_inputEcho (data sender : Bytes) (exclude : Option Addr) :
    mute.Keeps (inputEcho data sender exclude : M ρ Unit) :=
  keeps_bind (mute_ask _) fun _ => mute_broadcast ..

/-- A `send_expect` that is registered and then fails: its data are too long or no base64, or the
link does not take them. -/
structure TakesBack (e : Env ρ) (b : Broker ρ) (c : Client) (root : Json)
    (eid pattern b64 : Bytes) : Prop where
  allowed : b.canSend c.addr = true
  running : b.suspended = false
  linked : b.linkDisconnected = false
  named : root.getString "id" = some eid
  asks : root.getString "pattern" = some pattern
  registers : (expectAdd e.regex (e.mem b.queries) (e.mem (b.queries + 1)) b.expect eid pattern
    (clampTimeout (root.getInt "timeout_ms" defaultExpectTimeoutMs) / 1000) c.id
    (e.mono (b.queries + 2)) (some c.serial)).2 = none
  data : root.getString "data" = some b64
  fails : maxSendB64Len < b64.length ∨ base64Decode b64 = none ∨ b.link.fd < 0 ∨
    e.rc (b.queries + 3) < 0

section Undoing

variable {e : Env ρ} {b : Broker ρ} {c c' : Client} {root : Json}

def Answered (b b' : Broker ρ) : Prop :=
  ∃ ev ∈ b'.trace.drop b.trace.length, ev.isError = true

theorem not_answered_of_grows {b b' : Broker ρ}
    (h : Grows (fun ev : Event => ev.isError = false) b.trace b'.trace) : ¬ Answered b b' := by
  obtain ⟨evs, htrace, hevs⟩ := h
  rintro ⟨ev, hev, herror⟩
  rw [htrace, drop_left] at hev
  simp [hevs ev hev] at herror

theorem requests_sendError (a : Addr) (id : Option Bytes) (message : String) (b : Broker ρ) :
    (sendError a id message e b).2.expect = b.expect :=
  ((plain_sendError a id message).rel e b).part .expect rfl

theorem sendError_answers {b₀ : Broker ρ} {a : Addr} {id : Option Bytes} {message : String}
    {evs : List Event} (htrace : b.trace = b₀.trace ++ evs) (hc : b.clientAt a = some c) :
    Answered b₀ (sendError a id message e b).2 := by
  refine ⟨.sent c.serial false (msgError id (ascii message)), ?_, by cases id <;> rfl⟩
  rw [sendError, trace_sendToClient hc, htrace, append_assoc, drop_left]
  exact mem_append_right _ mem_cons_self

/-- The cancel by id, over the requests with the new one among them. -/
def Swept (b b' : Broker ρ) (eid : Bytes) : Prop :=
  ∃ req, req.id = stored 64 eid ∧
    b'.expect.requests.Perm ((b.expect.requests ++ [req]).filter fun r => !(r.id == eid))

theorem Swept.perm_iff {b b' : Broker ρ} {eid : Bytes} (h : Swept b b' eid) :
    b'.expect.requests.Perm b.expect.requests ↔
      eid.length < 64 ∧ ∀ req ∈ b.expect.requests, req.id ≠ eid := by
  obtain ⟨req, hreq, hafter⟩ := h
  constructor
  · intro hperm
    have hsame := hafter.symm.trans hperm
    have hfree : ∀ r ∈ b.expect.requests, r.id ≠ eid := by
      intro r hr
      simpa using (mem_filter.mp (hsame.mem_iff.mpr hr)).2
    refine ⟨?_, hfree⟩
    -- the new request is gone, so it was found by the id of the message
    by_contra! hlong
    have hnew : (!(req.id == eid)) = true := by
      rw [hreq]
      simpa using fun heq => by
        have := congrArg length heq
        rw [stored, length_take] at this
        omega
    have hold : b.expect.requests.filter (fun r => !(r.id == eid)) = b.expect.requests :=
      filter_eq_self.mpr fun r hr => by simpa using hfree r hr
    have hlength := hsame.length_eq
    rw [filter_append, hold, filter_singleton, hnew] at hlength
    simp at hlength
  · rintro ⟨hfits, hfree⟩
    have hnew : req.id = eid := hreq.trans (stored_fits hfits)
    have hold : b.expect.requests.filter (fun r => !(r.id == eid)) = b.expect.requests :=
      filter_eq_self.mpr fun r hr => by simpa using hfree r hr
    rw [filter_append, hold, filter_singleton, hnew] at hafter
    simpa using hafter

theorem rollback_spec {b₀ : Broker ρ} {req : ExpectRequest ρ} {eid : Bytes} {a : Addr}
    {message : String} {evs : List Event} (hreq : req.id = stored 64 eid)
    (hrequests : b.expect.requests = b₀.expect.requests ++ [req])
    (htrace : b.trace = b₀.trace ++ evs) (hc : b.clientAt a = some c) :
    let after := ((do cancelExpect eid; sendError a (some eid) message : M ρ Unit) e b).2
    Answered b₀ after ∧ Swept b₀ after eid := by
  have hcancel : (cancelExpect eid e b).2.trace =
      b₀.trace ++ (evs ++ [.expect (.withdrawn (b.expect.next - 1) eid)]) := by
    rw [← append_assoc, ← htrace]
    rfl
  refine ⟨sendError_answers (b := (cancelExpect eid e b).2) hcancel hc, req, hreq, ?_⟩
  rw [Proc.bind_apply, requests_sendError, ← hrequests]
  exact sweep_perm ..

/-- The state in which the data are sent: one request more, and three answers of the
environment used. -/
structure Registered (b₀ b : Broker ρ) (eid : Bytes) : Prop where
  request : ∃ req, req.id = stored 64 eid ∧ b.expect.requests = b₀.expect.requests ++ [req]
  trace : Grows (fun ev : Event => ev.isError = false) b₀.trace b.trace
  queries : b.queries = b₀.queries + 3
  rest : (b.suspended, b.linkDisconnected, b.link, b.clients) =
    (b₀.suspended, b₀.linkDisconnected, b₀.link, b₀.clients)

theorem registered_addExpect {eid pattern clientId : Bytes} {timeoutS : Rat} {owner : Option Nat}
    (h : (addExpect eid pattern timeoutS clientId owner e b).1 = none) :
    Registered b (addExpect eid pattern timeoutS clientId owner e b).2 eid := by
  have hadds := addsExpect_addExpect eid pattern timeoutS clientId owner e b
  generalize addExpect eid pattern timeoutS clientId owner e b = r at h hadds ⊢
  cases hadds with
  | refused hrequests hnext err => cases h
  | added hdeadline compiled hrequests hnext =>
    exact ⟨⟨_, rfl, hrequests⟩, ⟨_, append_assoc .., by simp [Event.isError]⟩, rfl, rfl⟩

theorem refused_addExpect {eid pattern clientId : Bytes} {timeoutS : Rat} {owner : Option Nat}
    {err : ExpectError} (h : (addExpect eid pattern timeoutS clientId owner e b).1 = some err) :
    (addExpect eid pattern timeoutS clientId owner e b).2.expect.requests = b.expect.requests := by
  have hadds := addsExpect_addExpect eid pattern timeoutS clientId owner e b
  generalize addExpect eid pattern timeoutS clientId owner e b = r at h hadds ⊢
  cases hadds with
  | refused hrequests hnext err => exact hrequests
  | added hdeadline compiled hrequests hnext => cases h

theorem doWrite_fails_iff {data : Bytes} (hrun : b.suspended = false)
    (hlink : b.linkDisconnected = false) :
    (brokerDoWrite data e b).1 < 0 ↔ b.link.fd < 0 ∨ e.rc b.queries < 0 := by
  have hcall : (callLink (.writeData data) e b).1 =
      if b.link.fd < 0 then -1 else e.rc b.queries := by
    simp only [callLink, callLinkAs, Proc.bind_apply, Proc.env_apply, Proc.get_apply, Proc.pure_apply,
      ask, LinkOp.needsOpen, true_and]
    rfl
  have hwrite : (brokerDoWrite data e b).1 =
      if (callLink (.writeData data) e b).1 < 0 then -3 else 0 := by
    simp only [brokerDoWrite, Proc.bind_apply, Proc.get_apply, hrun, hlink, Bool.false_eq_true,
      if_false]
    split_ifs <;> rfl
  rw [hwrite, hcall]
  split_ifs <;> simp_all

theorem mute_spec {p : M ρ α} (hp : mute.Keeps p) (b : Broker ρ) :
    (p e b).2.expect = b.expect ∧
      Grows (fun ev : Event => ev.isError = false) b.trace (p e b).2.trace := hp.rel e b

theorem sendExpectData_spec {b₀ : Broker ρ} {eid : Bytes} (b64 : Bytes)
    (h : Registered b₀ b eid) (hrun : b₀.suspended = false) (hlink : b₀.linkDisconnected = false)
    (hc : b₀.clientAt c.addr = some c') :
    let after := (sendExpectData c eid b64 e b).2
    if maxSendB64Len < b64.length ∨ base64Decode b64 = none ∨ b₀.link.fd < 0 ∨
        e.rc (b₀.queries + 3) < 0 then Answered b₀ after ∧ Swept b₀ after eid
    else ¬ Answered b₀ after := by
  obtain ⟨⟨req, hreq, hrequests⟩, hgrows, hqueries, hrest⟩ := h
  obtain ⟨hsusp, hdisc, hstate, hclients⟩ : b.suspended = b₀.suspended ∧
      b.linkDisconnected = b₀.linkDisconnected ∧ b.link = b₀.link ∧ b.clients = b₀.clients := by
    simpa using hrest
  have hthere : b.clientAt c.addr = some c' := by rwa [Broker.clientAt, hclients]
  obtain ⟨evs, htrace, -⟩ := id hgrows
  unfold sendExpectData
  by_cases hlong : maxSendB64Len < b64.length
  · simp only [hlong, true_or, if_true]
    exact rollback_spec hreq hrequests htrace hthere
  cases hdecode : base64Decode b64 with
  | none =>
    simp only [hlong, false_or, true_or, if_true, if_false]
    exact rollback_spec hreq hrequests htrace hthere
  | some data =>
    have hwrite : (brokerDoWrite data e b).1 < 0 ↔ b.link.fd < 0 ∨ e.rc b.queries < 0 :=
      doWrite_fails_iff (hsusp.trans hrun) (hdisc.trans hlink)
    rw [hstate, hqueries] at hwrite
    obtain ⟨hexpect, hmute⟩ := mute_spec (e := e) (mute_brokerDoWrite data) b
    obtain ⟨evs', htrace', -⟩ := hgrows.trans hmute
    simp only [hlong, false_or, if_false, reduceCtorEq, ← hwrite, Proc.bind_apply]
    split_ifs with hfails
    · have hmoves := (moves_brokerDoWrite (S := fun s => s == .wire) rfl data).rel e b
      obtain ⟨c'', hc'', -⟩ := clientAt_of_idents hmoves.calm.idents hthere
      exact rollback_spec hreq (by rw [hexpect, hrequests]) htrace' hc''
    · exact not_answered_of_grows
        ((hgrows.trans hmute).trans (mute_spec (mute_inputEcho data c.name (some c.addr)) _).2)

theorem addExpect_fst (eid pattern : Bytes) (timeoutS : Rat) (clientId : Bytes)
    (owner : Option Nat) :
    (addExpect eid pattern timeoutS clientId owner e b).1 =
      (expectAdd e.regex (e.mem b.queries) (e.mem (b.queries + 1)) b.expect eid pattern timeoutS
        clientId (e.mono (b.queries + 2)) owner).2 := rfl

theorem handleSendExpect_registers {eid pattern : Bytes} (hsend : b.canSend c.addr = true)
    (hrun : b.suspended = false) (hlink : b.linkDisconnected = false)
    (hid : root.getString "id" = some eid) (hpattern : root.getString "pattern" = some pattern) :
    let timeoutS : Rat := clampTimeout (root.getInt "timeout_ms" defaultExpectTimeoutMs) / 1000
    let added := addExpect eid pattern timeoutS c.id (some c.serial) e b
    (handleSendExpect c root e b).2 =
      match added.1, root.getString "data" with
      | some err, _ => (sendError c.addr (some eid) (expectAddErrstr err) e added.2).2
      | none, none => added.2
      | none, some b64 => (sendExpectData c eid b64 e added.2).2 := by
  simp only [handleSendExpect, requireSend, Proc.bind_apply, Proc.get_apply, hsend, hrun, hlink, hid,
    hpattern, if_true, Bool.false_eq_true, if_false]
  split <;> split <;> simp_all

theorem handleSendExpect_refused (h : ¬ (b.canSend c.addr = true ∧ b.suspended = false ∧
    b.linkDisconnected = false ∧ (root.getString "pattern").isSome ∧ (root.getString "id").isSome)) :
    ∃ text, (handleSendExpect c root e b).2 =
      (sendError c.addr (root.getString "id") text e b).2 := by
  by_cases hsend : b.canSend c.addr = true
  · by_cases hrun : b.suspended = true
    · exact ⟨"serial port is suspended", by simp [handleSendExpect, requireSend, hsend, hrun]⟩
    by_cases hlink : b.linkDisconnected = true
    · exact ⟨"serial port disconnected", by simp [handleSendExpect, requireSend, hsend, hrun, hlink]⟩
    refine ⟨"missing id or pattern", ?_⟩
    cases hpattern : root.getString "pattern" with
    | none => simp [handleSendExpect, requireSend, hsend, hrun, hlink, hpattern]
    | some pattern =>
      cases hid : root.getString "id" with
      | none => simp [handleSendExpect, requireSend, hsend, hrun, hlink, hpattern, hid]
      | some eid => simp_all
  · exact ⟨"not authorized to send", by simp [handleSendExpect, requireSend, hsend]⟩

theorem clientAt_of_canSend {a : Addr} (h : b.canSend a = true) : ∃ c, b.clientAt a = some c := by
  unfold canSend at h
  cases hc : b.clientAt a with
  | none => simp [hc] at h
  | some c => exact ⟨c, rfl⟩

theorem takesBack_spec {eid pattern b64 : Bytes} (h : TakesBack e b c root eid pattern b64) :
    Answered b (handleSendExpect c root e b).2 ∧ Swept b (handleSendExpect c root e b).2 eid := by
  have hnone := h.registers
  rw [← addExpect_fst] at hnone
  obtain ⟨c', hc'⟩ := clientAt_of_canSend h.allowed
  have hspec := sendExpectData_spec (e := e) (c := c) b64 (registered_addExpect hnone)
    h.running h.linked hc'
  rw [if_pos h.fails] at hspec
  rw [handleSendExpect_registers h.allowed h.running h.linked h.named h.asks, h.data, hnone]
  exact hspec

theorem kept_spec (h : ∀ eid pattern b64, ¬ TakesBack e b c root eid pattern b64)
    (herror : Answered b (handleSendExpect c root e b).2) :
    (handleSendExpect c root e b).2.expect.requests = b.expect.requests := by
  by_cases hreach : b.canSend c.addr = true ∧ b.suspended = false ∧ b.linkDisconnected = false ∧
      (root.getString "pattern").isSome ∧ (root.getString "id").isSome
  · obtain ⟨hsend, hrun, hlink, hpattern, hid⟩ := hreach
    obtain ⟨pattern, hpattern⟩ := Option.isSome_iff_exists.mp hpattern
    obtain ⟨eid, hid⟩ := Option.isSome_iff_exists.mp hid
    rw [handleSendExpect_registers hsend hrun hlink hid hpattern] at herror ⊢
    generalize htimeout : (clampTimeout (root.getInt "timeout_ms" defaultExpectTimeoutMs) / 1000 : Rat)
      = timeoutS at herror ⊢
    cases hadded : (addExpect eid pattern timeoutS c.id (some c.serial) e b).1 with
    | some err =>
      simp only [requests_sendError]
      exact refused_addExpect hadded
    | none =>
      have hreg := registered_addExpect hadded
      cases hdata : root.getString "data" with
      | none =>
        simp only [hadded, hdata] at herror
        exact absurd herror (not_answered_of_grows hreg.trace)
      | some b64 =>
        obtain ⟨c', hc'⟩ := clientAt_of_canSend hsend
        have hspec := sendExpectData_spec (e := e) (c := c) b64 hreg hrun hlink hc'
        rw [if_neg fun hfails => h eid pattern b64 ⟨hsend, hrun, hlink, hid, hpattern,
          by rw [htimeout, ← addExpect_fst]; exact hadded, hdata, hfails⟩] at hspec
        simp only [hadded, hdata] at herror
        exact absurd herror hspec
  · obtain ⟨text, htext⟩ := handleSendExpect_refused (e := e) hreach
    rw [htext, requests_sendError]

end Undoing

/-- A `send_expect` that is answered with an error leaves the pending expects as they were, each
with all that is kept of it, and none of its own, just when it was not registered, or its id is
shorter than 64 bytes and no pending expect has the same one. -/
theorem failed_send_expect_is_undone (e : Env ρ) (b : Broker ρ) (c : Client) (root : Json) :
    let after := (handleSendExpect c root e b).2
    ((∃ ev ∈ after.trace.drop b.trace.length, ev.isError = true) →
      after.expect.requests.Perm b.expect.requests) ↔
      ∀ eid pattern b64, TakesBack e b c root eid pattern b64 →
        eid.length < 64 ∧ ∀ req ∈ b.expect.requests, req.id ≠ eid := by
  constructor
  · intro h eid pattern b64 hback
    obtain ⟨herror, hswept⟩ := takesBack_spec hback
    exact hswept.perm_iff.mp (h herror)
  · intro h herror
    by_cases hback : ∃ eid pattern b64, TakesBack e b c root eid pattern b64
    · obtain ⟨eid, pattern, b64, hback⟩ := hback
      exact (takesBack_spec hback).2.perm_iff.mpr (h eid pattern b64 hback)
    · push Not at hback
      rw [kept_spec hback herror]

def listenedBroker : Broker Unit :=
  runSteps plainEnv (plainInit [])
    [.event (.listen (plainReg 1)), .event (.listen (plainReg 2)), .message 1 (helloMsg "a" []),
      .message 2 (helloMsg "b" []), .message 1 ⟨.listenExpect, some (.obj
        [("id", .str (ascii "boot")), ("pattern", .str (ascii "login:"))])⟩]

def badSendExpect (id : Bytes) : Json :=
  .obj [("id", .str id), ("pattern", .str (ascii "login:")), ("data", .str (ascii "!"))]

def afterBadSendExpect (id : Bytes) (c : Client) : Broker Unit :=
  (handleSendExpect c (badSendExpect id) plainEnv listenedBroker).2

def Refused (id : Bytes) (c : Client) : Prop :=
  c.addr = 2 ∧ ∃ ev ∈ (afterBadSendExpect id c).trace.drop listenedBroker.trace.length,
    ev.isError = true

instance (id : Bytes) (c : Client) : Decidable (Refused id c) :=
  inferInstanceAs (Decidable (_ ∧ _))

/-- The cancel takes away the expect of another client that has the same id, and leaves
the new one when its id does not fit. -/
theorem failed_send_expect_reaches_others :
    listenedBroker.expect.requests.map (·.owner) = [some 0] ∧
      (∃ c ∈ listenedBroker.clients, Refused (ascii "boot") c ∧
        (afterBadSendExpect (ascii "boot") c).expect.requests.map (·.owner) = []) ∧
      ∃ c ∈ listenedBroker.clients, Refused (List.replicate 64 97) c ∧
        (afterBadSendExpect (List.replicate 64 97) c).expect.requests.map (·.owner) =
          [some 0, some 1] := by
  decide +kernel

end Smolmux.Broker
