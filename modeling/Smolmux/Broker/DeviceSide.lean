import Smolmux.Broker.Quiet

/-! Which sectors the procedures on the device side of the broker touch. -/

namespace Smolmux.Broker
open Smolmux.Frame

variable {ρ α : Type} {S : Sector → Bool}

theorem moves_linkWriteFd (fd : Int) : (moves S).Keeps (linkWriteFd fd : M ρ Int) :=
  keeps_env fun _ => keeps_get fun _ => keeps_pure _

theorem moves_epollDo (hw : S .wire) (op : EpollOp) (fd : Int) (interest : Interest) :
    (moves S).Keeps (do let _ ← linkEpollCtl op fd interest; pure () : M ρ Unit) :=
  .yields (moves_linkEpollCtl _ _ _ hw)

theorem moves_updateWriteEpoll (hw : S .wire) (fd : Int) (pending : Bool) :
    (moves S).Keeps (updateWriteEpoll fd pending : M ρ Unit) := by
  refine keeps_ite (fun _ => ?_) fun _ => moves_epollDo hw ..
  exact keeps_bind (moves_linkEpollCtl _ _ _ hw) fun _ => keeps_when fun _ => moves_epollDo hw ..

theorem moves_brokerUpdateLinkEpoll (hw : S .wire) :
    (moves S).Keeps (brokerUpdateLinkEpoll : M ρ Unit) := by
  refine keeps_get fun b => keeps_unless fun _ => ?_
  refine keeps_env fun e => keeps_bind (moves_linkWriteFd _) fun writeFd => ?_
  exact keeps_bind (keeps_when fun _ => moves_epollDo hw ..) fun _ =>
    keeps_when fun _ => moves_updateWriteEpoll hw ..

theorem moves_brokerDoWrite (hw : S .wire) (data : Bytes) :
    (moves S).Keeps (brokerDoWrite data : M ρ Int) := by
  refine keeps_get fun b => keeps_unless fun _ =>
    keeps_unless fun _ => keeps_bind (moves_callLink _ hw) fun rc => ?_
  exact keeps_unless fun _ =>
    .yields (moves_brokerUpdateLinkEpoll hw)

theorem moves_flushQueue (hw : S .wire) : (moves S).Keeps (flushQueue : M ρ Int) :=
  keeps_bind (moves_callLink _ hw) fun _ =>
    .yields (keeps_when fun _ => moves_brokerUpdateLinkEpoll hw)

theorem plain_timerEnsure : plain.Keeps (timerEnsure : M ρ Bool) :=
  keeps_bind (plain_ask _) fun _ => keeps_unless fun _ =>
    .yields (plain_epollCtl ..)

section Traffic

def LinkOp.isMinor : LinkOp → Bool
  | .setParam .. | .sendBreak _ => true
  | _ => false

/-- What the BREAK machine and the flood do to the link: frames that have steps in
other sectors, minor operations of the link and writes. -/
structure Traffic (e : Env ρ) (O : Sector → Bool) (F : Frame (Broker ρ)) : Prop where
  other : ∀ b b', (moves O).rel b b' → F.rel b b'
  call : ∀ op : LinkOp, op.isMinor = true → F.KeepsAt e (callLink op)
  callAs : ∀ (op : LinkOp) (ev : Int → Event) (s : Sector), op.isMinor = true → O s = true →
    (∀ rc, (ev rc).sector = some s) → (∀ rc idents, CalmEvent idents (ev rc)) →
      F.KeepsAt e (callLinkAs op ev)
  write : ∀ data, F.KeepsAt e (brokerDoWrite data)

theorem traffic_moves {O : Sector → Bool} {e : Env ρ} (hO : ∀ s, O s → S s) (hw : S .wire) :
    Traffic e O (moves S) where
  other _ _ h := h.mono hO
  call op _ := (moves_callLink op hw).at e
  callAs op ev s _ hs hev hcalm := by
    refine (moves_callLinkAs op hw hcalm fun rc u hu => ?_).at e
    rw [hev rc] at hu
    cases hu
    exact hO s hs
  write data := (moves_brokerDoWrite hw data).at e

variable {e : Env ρ} {O : Sector → Bool} {F : Frame (Broker ρ)}

theorem Traffic.keeps (t : Traffic e O F) {p : M ρ α} (h : (moves O).Keeps p) : F.KeepsAt e p :=
  (h.at e).mono t.other

theorem Traffic.plain (t : Traffic e O F) {p : M ρ α} (h : plain.Keeps p) : F.KeepsAt e p :=
  t.keeps (moves_of_plain h)

theorem Traffic.ask (t : Traffic e O F) (f : Env ρ → Nat → α) : F.KeepsAt e (Broker.ask f) :=
  t.plain (plain_ask f)

end Traffic

section Flooding

theorem moves_updateFlood (hf : S .flood) (f : Flood ρ → Flood ρ) :
    (moves S).Keeps (updateFlood f) := by
  refine moves_modify .flood hf (fun _ => rfl) fun _ t ht => ?_
  cases t with
  | flood => exact absurd rfl ht
  | _ => rfl

theorem moves_floodNote (hf : S .flood) (note : FloodNote) :
    (moves S).Keeps (emit (.flood note) : M ρ Unit) := moves_note rfl (fun _ => trivial) hf

/-- Frames that have the steps of a flood but for its writes; none of them changes the key. -/
structure FloodMoves (e : Env ρ) (F : Frame (Broker ρ)) : Prop where
  plain : ∀ {α : Type} {p : M ρ α}, plain.Keeps p → F.KeepsAt e p
  call : ∀ op : LinkOp, op.isMinor = true → F.KeepsAt e (callLink op)
  deassert : ∀ ticket pin value, F.KeepsAt e (floodDeassert ticket pin value)
  note : ∀ note, F.KeepsAt e (emit (.flood note))
  report : ∀ ticket msg, F.KeepsAt e (emit (.reply (.flood ticket) msg))
  update : ∀ f : Flood ρ → Flood ρ, (∀ fl, (f fl).key = fl.key) → F.KeepsAt e (updateFlood f)

namespace FloodMoves

variable {e : Env ρ} {F : Frame (Broker ρ)} (r : FloodMoves e F)

include r

theorem releaseReset : F.KeepsAt e floodReleaseReset :=
  keepsAt_get fun _ => keepsAt_if fun _ => keepsAt_bind (r.deassert ..) fun _ =>
    r.update _ fun _ => rfl

theorem timerEnsure : F.KeepsAt e floodTimerEnsure :=
  keepsAt_get fun _ => keepsAt_unless fun _ =>
    keepsAt_bind (r.plain plain_timerEnsure) fun _ => .yields (r.update _ fun _ => rfl)

theorem assertReset (req : FloodRequest) (ticket : Nat) :
    F.KeepsAt e (floodAssertReset req ticket) := by
  unfold floodAssertReset
  split
  · exact keepsAt_pure _
  · exact keepsAt_bind (r.call _ rfl) fun rc => keepsAt_ite
      (fun _ => .yields (r.update _ fun _ => rfl)) fun _ =>
        keepsAt_bind (r.note _) fun _ => .yields (r.update _ fun _ => rfl)

theorem finish (isMatched : Bool) (reason : String) :
    F.KeepsAt e (floodFinish isMatched reason) := by
  refine keepsAt_get fun b => keepsAt_if fun _ => ?_
  exact keepsAt_bind (r.update _ fun _ => rfl) fun _ => keepsAt_bind r.releaseReset fun _ =>
    keepsAt_bind (r.update _ fun _ => rfl) fun _ => keepsAt_bind (r.plain (plain_ask _)) fun _ =>
      keepsAt_get fun _ => keepsAt_bind (r.note _) fun _ => keepsAt_bind (r.report ..) fun _ =>
        r.plain (plain_broadcast ..)

end FloodMoves

variable {e : Env ρ} {O : Sector → Bool} {F : Frame (Broker ρ)} (t : Traffic e O F)
  (hf : O .flood = true)

include t hf

theorem floodMoves_of_traffic : FloodMoves e F where
  plain h := t.plain h
  call := t.call
  deassert _ _ _ := t.callAs _ _ .flood rfl hf (fun _ => rfl) fun _ _ => trivial
  note _ := t.keeps (moves_floodNote hf _)
  report _ _ := t.keeps (moves_reply hf _)
  update f _ := t.keeps (moves_updateFlood hf f)

theorem traffic_floodRequest (req : FloodRequest) (ticket : Nat) :
    F.KeepsAt e (floodRequest req ticket) := by
  have r := floodMoves_of_traffic t hf
  refine keepsAt_env <| keepsAt_get fun b => keepsAt_unless fun _ => keepsAt_unless fun _ =>
    keepsAt_unless fun _ => keepsAt_unless fun _ => ?_
  split
  · exact keepsAt_pure _
  · refine keepsAt_bind r.timerEnsure fun made => keepsAt_if fun _ => keepsAt_bind (t.ask _)
      fun start => keepsAt_bind (t.keeps (moves_updateFlood hf _)) fun _ =>
        keepsAt_bind (r.assertReset req ticket) fun held => keepsAt_if fun _ => ?_
    exact keepsAt_bind (t.ask _) fun _ => keepsAt_ite
      (fun _ => keepsAt_bind r.releaseReset fun _ => .yields (r.update _ fun _ => rfl)) fun _ =>
        keepsAt_get fun _ => keepsAt_bind (t.write _) fun _ =>
          .yields (keepsAt_when fun _ => r.update _ fun _ => rfl)

theorem traffic_floodFeed (buf : Bytes) : F.KeepsAt e (floodFeed buf : M ρ Unit) := by
  have r := floodMoves_of_traffic t hf
  refine keepsAt_env <| keepsAt_get fun b => keepsAt_bind (r.note _) fun _ => ?_
  dsimp only
  split
  · exact keepsAt_pure _
  · exact keepsAt_unless fun _ => keepsAt_bind (r.update _ fun _ => rfl) fun _ =>
      keepsAt_if fun _ => r.finish ..

theorem traffic_handleFloodTimer : F.KeepsAt e (handleFloodTimer : M ρ Unit) := by
  have r := floodMoves_of_traffic t hf
  refine keepsAt_get fun b => keepsAt_if fun _ => keepsAt_bind (keepsAt_if fun _ => t.ask _)
    fun now => keepsAt_bind (keepsAt_when fun _ => r.releaseReset) fun _ => ?_
  exact keepsAt_bind (t.ask _) fun _ => keepsAt_ite (fun _ => r.finish ..) fun _ =>
    keepsAt_bind (t.write _) fun _ => keepsAt_ite (fun _ => r.finish ..) fun _ =>
      r.update _ fun _ => rfl

theorem traffic_brokerStartFlood (r : FloodRequest) :
    F.KeepsAt e (brokerStartFlood r : M ρ Int) :=
  keepsAt_get fun _ => keepsAt_bind (t.keeps (moves_updateFlood hf _)) fun _ =>
    keepsAt_bind (t.keeps (moves_floodNote hf _)) fun _ => keepsAt_bind (t.keeps (moves_asked hf _))
      fun _ => keepsAt_bind (traffic_floodRequest t hf r _) fun _ =>
        .yields (t.keeps (moves_floodNote hf _))

omit t hf

end Flooding

section Booting

variable (hb : S .boot = true)
include hb

theorem moves_setBoot (f : Broker ρ → BootStage.BootTracker ρ × Bool) : (moves S).Keeps
    (Proc.modify fun b => { b with boot := (f b).1, stallNotified := (f b).2 } : M ρ Unit) := by
  refine moves_modify .boot hb (fun _ => rfl) fun _ t ht => ?_
  cases t with
  | boot => exact absurd rfl ht
  | _ => rfl

theorem moves_bootNote (note : BootNote) : (moves S).Keeps (emit (.boot note) : M ρ Unit) :=
  moves_note rfl (fun _ => trivial) hb

theorem moves_stallDisarm : (moves S).Keeps (stallDisarm : M ρ Unit) :=
  moves_setBoot hb fun b => (b.boot, false)

theorem moves_stallArm : (moves S).Keeps (stallArm : M ρ Unit) := by
  refine keeps_get fun b => keeps_unless fun _ => ?_
  refine keeps_bind (keeps_unless fun _ => moves_of_plain plain_timerEnsure)
    fun made => ?_
  exact keeps_bind (moves_of_plain (plain_modify fun _ => rfl)) fun _ =>
    keeps_if fun _ => moves_stallDisarm hb

theorem moves_handleStallTimer : (moves S).Keeps (handleStallTimer : M ρ Unit) :=
  keeps_get fun _ => keeps_bind (moves_bootNote hb _) fun _ =>
    keeps_unless fun _ => keeps_unless fun _ =>
      keeps_bind (moves_setBoot hb fun b => (b.boot, true)) fun _ =>
        keeps_bind (moves_bootNote hb _) fun _ => moves_broadcast ..

theorem moves_announceStage (i : Nat) : (moves S).Keeps (announceStage i : M ρ Unit) := by
  refine keeps_get fun b => ?_
  split
  · exact keeps_pure _
  · next st _ =>
    exact keeps_if fun _ => keeps_bind (moves_setBoot hb fun b => ({ b.boot with
      stages := b.boot.stages.set i { st with announced := true } }, b.stallNotified)) fun _ =>
        keeps_bind (moves_bootNote hb _) fun _ => moves_broadcast ..

theorem moves_feedBoot (buf : Bytes) (ts : Rat) : (moves S).Keeps (feedBoot buf ts : M ρ Unit) := by
  refine keeps_env fun e => keeps_get fun b =>
    keeps_bind (moves_setBoot hb fun b' => ((BootStage.bootFeed e.regex b.boot buf ts).2,
      b'.stallNotified)) fun _ => keeps_bind (keeps_when fun _ => moves_bootNote hb _) fun _ =>
        keeps_if fun _ => ?_
  exact keeps_bind (keeps_each _ fun i _ => moves_announceStage hb i) fun _ =>
    keeps_ite (fun _ => moves_stallDisarm hb) fun _ => moves_stallArm hb

end Booting

theorem moves_setExpect (hx : S .expect) (f : Broker ρ → Expect.ExpectEngine ρ) :
    (moves S).Keeps (Proc.modify fun b => { b with expect := f b } : M ρ Unit) := by
  refine moves_modify .expect hx (fun _ => rfl) fun _ t ht => ?_
  cases t with
  | expect => exact absurd rfl ht
  | _ => rfl

theorem moves_expectNote (hx : S .expect) (note : ExpectNote) :
    (moves S).Keeps (emit (.expect note) : M ρ Unit) := moves_note rfl (fun _ => trivial) hx

theorem moves_noteAdded (hx : S .expect) (ticket : Nat) (owner : Option Nat) (id : Bytes)
    (deadline : Rat) (err : Option Expect.ExpectError) :
    (moves S).Keeps (noteAdded ticket owner id deadline err : M ρ Unit) := by
  cases err with
  | some err => exact keeps_pure _
  | none => exact keeps_bind (moves_expectNote hx _) fun _ => moves_asked hx _

theorem moves_addExpect (hx : S .expect) (id pattern : Bytes) (timeoutS : Rat)
    (clientId : Bytes) (owner : Option Nat) :
    (moves S).Keeps (addExpect id pattern timeoutS clientId owner :
      M ρ (Option Expect.ExpectError)) := by
  refine keeps_env fun e => keeps_bind (moves_ask _) fun growMem =>
    keeps_bind (moves_ask _) fun bufMem => keeps_bind (moves_ask _) fun now =>
      keeps_get fun b => ?_
  exact keeps_bind (moves_setExpect hx _) fun _ =>
    .yields (moves_noteAdded hx ..)

/-- What is left of an attempt to add an expect: the table is as it was, or there is one more
in it and two notes say so. -/
inductive AddsExpect (id pattern : Bytes) (timeoutS : Rat) (clientId : Bytes) (owner : Option Nat)
    (e : Env ρ) (b : Broker ρ) : Option Expect.ExpectError × Broker ρ → Prop
  | refused {eng : Expect.ExpectEngine ρ} (hrequests : eng.requests = b.expect.requests)
      (hnext : eng.next = b.expect.next) (err : Expect.ExpectError) :
      AddsExpect id pattern timeoutS clientId owner e b
        (some err, { b with queries := b.queries + 3, expect := eng })
  | added {eng : Expect.ExpectEngine ρ} {deadline : Rat}
      (hdeadline : deadline = e.mono (b.queries + 2) + timeoutS) (compiled : ρ)
      (hrequests : eng.requests = b.expect.requests ++
        [Expect.newRequest id pattern compiled deadline clientId b.expect.next owner])
      (hnext : eng.next = b.expect.next + 1) :
      AddsExpect id pattern timeoutS clientId owner e b
        (none, (Broker.noted { b with queries := b.queries + 3, expect := eng }
          (.expect (.added b.expect.next owner (stored 64 id) deadline))).noted
            (.asked (.expect b.expect.next) (some id)))

theorem addsExpect_addExpect (id pattern : Bytes) (timeoutS : Rat) (clientId : Bytes)
    (owner : Option Nat) (e : Env ρ) (b : Broker ρ) :
    AddsExpect id pattern timeoutS clientId owner e b
      (addExpect id pattern timeoutS clientId owner e b) := by
  have hadds := Expect.adds_expectAdd e.regex (e.mem b.queries) (e.mem (b.queries + 1)) b.expect id
    pattern timeoutS clientId (e.mono (b.queries + 2)) owner
  unfold addExpect
  simp only [Proc.bind_apply, Proc.env_apply, Proc.get_apply, Proc.modify_apply, Proc.pure_apply, ask,
    nowMonotonic]
  generalize Expect.expectAdd e.regex (e.mem b.queries) (e.mem (b.queries + 1)) b.expect id pattern
    timeoutS clientId (e.mono (b.queries + 2)) owner = r at hadds ⊢
  cases hadds with
  | refused hrequests hnext err => exact .refused hrequests hnext err
  | added compiled _ hrequests hnext => exact .added rfl compiled hrequests hnext

theorem moves_cancelExpect (hx : S .expect) (id : Bytes) :
    (moves S).Keeps (cancelExpect id : M ρ Unit) :=
  keeps_get fun _ => keeps_bind (moves_expectNote hx _) fun _ => moves_setExpect hx _

theorem moves_updateMcp (hc : S .calls) (f : McpSink → McpSink) :
    (moves S).Keeps (updateMcp f : M ρ Unit) := by
  refine moves_modify .calls hc (fun _ => ?_) fun _ t ht => ?_
  · simp only [Broker.core, Option.isSome_map]
  cases t with
  | calls => exact absurd rfl ht
  | _ => rfl

theorem plain_updateMcp {f : McpSink → McpSink} (h : ∀ mcp, (f mcp).calls = mcp.calls) :
    plain.Keeps (updateMcp f : M ρ Unit) := by
  refine plain_modify fun b => ?_
  have hcalls : (b.mcp.map f).map McpSink.calls = b.mcp.map McpSink.calls := by
    rw [Option.map_map]
    exact Option.map_congr fun mcp _ => h mcp
  simp only [Broker.offStage, Broker.stage, Broker.core, hcalls, Option.isSome_map]

theorem calls_mcpBufferOutput (mcp : McpSink) (data : Bytes) :
    (mcpBufferOutput mcp data).calls = mcp.calls := by
  unfold mcpBufferOutput
  dsimp only
  split
  · rfl
  · rfl

theorem plain_mcpReply (id : Option Json) (reply : McpReply) :
    plain.Keeps (emit (.mcpReply id reply) : M ρ Unit) := plain_emit (fun _ => trivial) rfl

theorem moves_mcpNote (hc : S .calls) (note : McpNote) :
    (moves S).Keeps (emit (.mcp note) : M ρ Unit) := moves_note rfl (fun _ => trivial) hc

theorem moves_noteAnswered (hc : S .calls) (id : Option Json) :
    (moves S).Keeps (noteAnswered id : M ρ Unit) := by
  cases id with
  | none => exact keeps_pure _
  | some id => exact moves_mcpNote hc _

theorem moves_noteDeferred (hc : S .calls) (id : Option Json) :
    (moves S).Keeps (noteDeferred id : M ρ Unit) := by
  cases id with
  | none => exact keeps_pure _
  | some id => exact moves_mcpNote hc _

theorem moves_mcpWait (hc : S .calls) (jsonrpcId : Option Json)
    (call : Json → McpPending) : (moves S).Keeps (mcpWait jsonrpcId call : M ρ Bool) := by
  refine keeps_get fun b => ?_
  split
  · exact .yields (moves_mcpNote hc _)
  · exact .yields (moves_updateMcp hc _)

theorem moves_mcpOnExpectResult (hc : S .calls) (mcp : McpSink) (r : Expect.ExpectResult) :
    (moves S).Keeps (mcpOnExpectResult mcp r : M ρ Unit) := by
  refine keeps_get fun b => ?_
  split
  · exact keeps_pure _
  · split
    · exact keeps_bind (moves_updateMcp hc _) fun _ => keeps_bind (moves_noteAnswered hc _) fun _ =>
        moves_of_plain (plain_mcpReply ..)
    · exact keeps_pure _

theorem moves_toOwner (hx : S .expect) (r : Expect.ExpectResult) (b : Broker ρ) :
    (moves S).Keeps (deliverExpectResult.toOwner r b) := by
  unfold deliverExpectResult.toOwner
  split
  · exact keeps_pure _
  · exact keeps_bind (moves_expectNote hx _) fun _ => keeps_bind (moves_reply hx _) fun _ =>
      moves_of_plain (plain_sendToClient ..)

theorem moves_deliverExpectResult (hx : S .expect) (hc : S .calls)
    (r : Expect.ExpectResult) : (moves S).Keeps (deliverExpectResult r : M ρ Unit) := by
  refine keeps_get fun b => ?_
  split
  · exact keeps_ite (fun _ => keeps_bind (moves_expectNote hx _) fun _ =>
      moves_mcpOnExpectResult hc ..) fun _ => moves_toOwner hx ..
  · exact moves_toOwner hx ..

theorem moves_processExpectResults (hx : S .expect) (hc : S .calls) :
    (moves S).Keeps (processExpectResults : M ρ Unit) :=
  keeps_bind (moves_ask _) fun _ => keeps_get fun _ =>
    keeps_bind (moves_setExpect hx _) fun _ => keeps_bind (moves_expectNote hx _) fun _ =>
      keeps_each _ fun r _ => moves_deliverExpectResult hx hc r

def collected (b : Broker ρ) (now : Rat) (count : Nat)
    (left : List (Expect.ExpectRequest ρ)) : Broker ρ :=
  Broker.noted { b with queries := b.queries + 1, expect := { b.expect with requests := left } }
    (.expect (.collected now count))

/-- Requests that are done leave the table, all of them if there is room for more results,
and then the results are delivered. -/
theorem processExpectResults_eq (e : Env ρ) (b : Broker ρ) :
    let left := (Expect.collectFrom (e.mono b.queries) b.expect.requests.length 16 0
      b.expect.requests).2
    ∃ done, (done ++ left).Perm b.expect.requests ∧
      (done.length < 16 → ∀ req ∈ left, Expect.requestDone (e.mono b.queries) req = false) ∧
      (processExpectResults e b).2 = (Proc.each deliverExpectResult (done.map Expect.resultOf) e
        (b.collected (e.mono b.queries) done.length left)).2 := by
  intro left
  obtain ⟨done, hresults, hperm, -⟩ := Expect.collectFrom_perm (e.mono b.queries)
    b.expect.requests.length 16 0 b.expect.requests
  have hlength := congrArg List.length hresults
  rw [List.length_map] at hlength
  refine ⟨done, hperm, fun hroom => ?_, ?_⟩
  · exact Expect.collectFrom_complete (Nat.le_of_eq (Nat.zero_add _).symm) (hlength ▸ hroom)
  · rw [← hlength, ← hresults]
    rfl

theorem moves_setPages (hp : S .pages) (f : Broker ρ → History.HistoryPending × Nat) :
    (moves S).Keeps (Proc.modify fun b =>
      { b with historyPending := (f b).1, historyTicket := (f b).2 } : M ρ Unit) := by
  refine moves_modify .pages hp (fun _ => rfl) fun _ t ht => ?_
  cases t with
  | pages => exact absurd rfl ht
  | _ => rfl

theorem moves_historyAnswer (hp : S .pages) (c : Client) (id : Option Bytes)
    (answer : Option Json) : (moves S).Keeps (historyAnswer c id answer : M ρ Unit) := by
  cases answer with
  | some answer => exact moves_of_plain (plain_sendToClient ..)
  | none =>
    exact keeps_get fun _ =>
      keeps_bind (moves_setPages hp fun b => (b.historyPending, _)) fun _ => moves_asked hp _

theorem moves_handleHistoryRequest (hp : S .pages) (c : Client) (root : Json) :
    (moves S).Keeps (handleHistoryRequest c root : M ρ Unit) :=
  keeps_env fun _ => keeps_bind (moves_ask _) fun _ => keeps_get fun _ =>
    keeps_bind (moves_setPages hp fun b => (_, b.historyTicket)) fun _ =>
      moves_historyAnswer hp ..

theorem moves_sendPage (hp : S .pages) (page : Option (Bytes × Json)) :
    (moves S).Keeps (sendPage page : M ρ Unit) := by
  cases page with
  | none => exact keeps_pure _
  | some page =>
    refine keeps_get fun b => ?_
    split
    · exact keeps_pure _
    · exact keeps_bind (moves_reply hp _) fun _ => moves_of_plain (plain_sendToClient ..)

theorem moves_processHistory (hp : S .pages) : (moves S).Keeps (processHistory : M ρ Unit) :=
  keeps_get fun _ => keeps_bind (moves_setPages hp fun b => (_, b.historyTicket))
    fun _ => moves_sendPage hp _

theorem moves_historyAppend (hh : S .history) (data : Bytes) (ts : Rat) :
    (moves S).Keeps (historyAppend data ts : M ρ Unit) := by
  refine keeps_bind (moves_ask _) fun _ => keeps_bind (moves_ask _) fun _ =>
    keeps_bind (moves_ask _) fun _ => moves_modify .history hh (fun _ => rfl) fun _ t ht => ?_
  cases t with
  | history => exact absurd rfl ht
  | _ => rfl

theorem moves_historyFence (hh : S .history) (line : Bytes) :
    (moves S).Keeps (historyFence line : M ρ Unit) :=
  keeps_bind (moves_ask _) fun _ => moves_historyAppend hh ..

theorem moves_recordOutput (hh : S .history) (buf : Bytes) (ts : Rat) :
    (moves S).Keeps (recordOutput buf ts : M ρ Unit) :=
  keeps_bind (moves_historyAppend hh buf ts) fun _ => moves_note rfl (fun _ => trivial) hh

section Connecting

theorem plain_brokerIdentityBlocksReopen :
    plain.Keeps (brokerIdentityBlocksReopen : M ρ Bool) :=
  keeps_env fun _ => keeps_get fun _ =>
    keeps_unless fun _ => keeps_pure _

theorem plain_linkScheduleRetry : plain.Keeps (linkScheduleRetry : M ρ Unit) :=
  keeps_bind (plain_ask _) fun _ => plain_modify fun _ => rfl

theorem moves_stageNote (hs : S .stage) (note : ResumeNote) :
    (moves S).Keeps (emit (.resume note) : M ρ Unit) := moves_note rfl (fun _ => trivial) hs

theorem moves_unwatchLink (hw : S .wire) : (moves S).Keeps (unwatchLink : M ρ Unit) := by
  refine keeps_get fun b => keeps_bind (moves_linkWriteFd _) fun writeFd => ?_
  exact keeps_bind (keeps_when fun _ => moves_epollDo hw ..) fun _ =>
    keeps_when fun _ => moves_epollDo hw ..

theorem moves_watchFd (hw : S .wire) (fd : Int) (interest : Interest) :
    (moves S).Keeps (watchFd fd interest : M ρ Unit) :=
  keeps_bind (moves_linkEpollCtl _ _ _ hw) fun _ => keeps_when fun _ => moves_epollDo hw ..

theorem moves_watchLink (hw : S .wire) : (moves S).Keeps (watchLink : M ρ Unit) :=
  keeps_get fun _ => keeps_when fun _ => keeps_bind (moves_watchFd hw ..) fun _ =>
    keeps_bind (moves_linkWriteFd _) fun _ => keeps_bind (keeps_when fun _ => moves_epollDo hw ..)
      fun _ => moves_brokerUpdateLinkEpoll hw

variable (hs : S .stage = true) (hw : S .wire = true)
include hs hw

theorem moves_linkLost : (moves S).Keeps (linkLost : M ρ Unit) :=
  keeps_bind (moves_unwatchLink hw) fun _ => keeps_bind (moves_callLink _ hw) fun _ =>
    keeps_bind (moves_ask _) fun _ => moves_setStage hs fun _ => rfl

theorem moves_linkSuspend (hx : S .expect) : (moves S).Keeps (linkSuspend : M ρ Unit) := by
  refine keeps_bind (moves_unwatchLink hw) fun _ => keeps_get fun b =>
    keeps_bind (moves_stageNote hs _) fun _ => keeps_bind ?_ fun _ =>
      .yields (moves_callLink _ hw)
  have hcancel := moves_setExpect (ρ := ρ) hx fun b => Expect.expectCancelAll b.expect
  have hstage := moves_setStage (ρ := ρ) hs
    (f := fun b => { b with suspended := true, linkConnecting := false }) fun _ => rfl
  exact ⟨fun e b => (moves S).trans (hcancel.rel e b) (hstage.rel e _)⟩

theorem moves_linkWatchConnecting (resume : Option Nat) :
    (moves S).Keeps (linkWatchConnecting resume : M ρ Unit) :=
  keeps_get fun _ => keeps_bind (keeps_when fun _ => moves_watchFd hw ..) fun _ =>
    keeps_bind (moves_ask _) fun _ => moves_setStage hs fun _ => rfl

theorem moves_resumeLater : (moves S).Keeps (resumeLater : M ρ Int) :=
  keeps_get fun _ => keeps_bind (moves_setStage hs fun _ => rfl) fun _ =>
    keeps_bind (moves_stageNote hs _) fun _ =>
      .yields (moves_linkWatchConnecting hs hw _)

theorem moves_linkConnectGiveUp : (moves S).Keeps (linkConnectGiveUp : M ρ Unit) := by
  refine keeps_bind (moves_setStage hs fun _ => rfl) fun _ => keeps_bind (moves_callLink _ hw)
    fun _ => keeps_bind (moves_setStage hs fun _ => rfl) fun _ => keeps_get fun b =>
      keeps_bind (keeps_when fun _ => ?_) fun _ => moves_of_plain plain_linkScheduleRetry
  exact keeps_bind (moves_stageNote hs _) fun _ => keeps_bind (moves_broadcast ..) fun _ =>
    moves_setStage hs fun _ => rfl

omit hw in
theorem moves_brokerRecordIdentity : (moves S).Keeps (brokerRecordIdentity : M ρ Unit) := by
  refine keeps_env fun e => keeps_get fun b =>
    keeps_unless fun _ =>
      keeps_bind (moves_setStage hs fun _ => rfl) fun _ => ?_
  exact keeps_ite (fun _ => moves_setStage hs fun _ => rfl) fun _ =>
    keeps_bind (moves_ask _) fun byId => moves_setStage hs fun _ => rfl

omit hw in
theorem moves_announceUp : (moves S).Keeps (announceUp : M ρ Unit) :=
  keeps_get fun _ => keeps_ite (fun _ => keeps_bind (moves_stageNote hs _) fun _ =>
    keeps_bind (moves_broadcast ..) fun _ => moves_setStage hs fun _ => rfl) fun _ =>
      moves_broadcast ..

end Connecting

section Opening

def linkSide : Sector → Bool := fun s => s == .stage || s == .wire

structure Opening (e : Env ρ) (F : Frame (Broker ρ)) : Prop where
  wire : ∀ b b', (moves (· == .wire)).rel b b' → F.rel b b'
  entered : F.KeepsAt e (emit (.resume .entered))
  later : F.KeepsAt e resumeLater
  watch : ∀ owner, F.KeepsAt e (linkWatchConnecting owner)
  giveUp : F.KeepsAt e linkConnectGiveUp
  bringUp : ∀ up, F.KeepsAt e (linkBringUp up)
  now : F.KeepsAt e resumeNow

variable {e : Env ρ} {F : Frame (Broker ρ)}

theorem opening_of_moves
    (other : ∀ b b', (moves fun s => linkSide s || s == .boot).rel b b' → F.rel b b')
    (fence : ∀ line, F.KeepsAt e (historyFence line)) : Opening e F := by
  have hside : ∀ {α : Type} {p : M ρ α}, (moves fun s => linkSide s || s == .boot).Keeps p →
      F.KeepsAt e p := fun h => (h.at e).mono other
  have hset : ∀ {f : Broker ρ → Broker ρ}, (∀ b, (f b).offStage = b.offStage) →
      F.KeepsAt e (Proc.modify f) := fun h => hside (moves_setStage rfl h)
  have hup : ∀ up, F.KeepsAt e (linkBringUp up) := by
    refine fun up => keepsAt_env (keepsAt_bind (hside (moves_watchLink rfl)) fun _ =>
      keepsAt_bind (hside (moves_ask _)) fun now => keepsAt_bind (hside (moves_ask _)) fun upTs =>
        keepsAt_bind ⟨fun b => ?_⟩ fun _ => keepsAt_bind (hside (moves_bootNote rfl _)) fun _ =>
          keepsAt_get fun b => keepsAt_bind (hside (moves_note rfl (fun _ => trivial) rfl)) fun _ => ?_)
    · have hboot := (hside (moves_setBoot rfl fun b =>
        (BootStage.bootRestart b.boot, b.stallNotified))).rel b
      exact F.trans hboot ((hset (f := fun b => { b with
        linkConnecting := false
        linkDisconnected := false
        lastLinkRxTime := now
        linkHealthy := false
        linkUpTs := upTs
        bytesRxSinceLinkUp := 0 }) fun _ => rfl).rel _)
    refine keepsAt_bind (hside (moves_stallDisarm rfl)) fun _ => keepsAt_bind (hset fun _ => rfl)
      fun _ => keepsAt_bind (fence _) fun _ =>
        keepsAt_bind (hside (moves_brokerRecordIdentity rfl)) fun _ => ?_
    exact keepsAt_if fun _ => hside (moves_announceUp rfl)
  refine ⟨fun b b' h => other b b' (h.mono fun s hs => ?_), hside (moves_stageNote rfl _),
    hside (moves_resumeLater rfl rfl), fun owner => hside (moves_linkWatchConnecting rfl rfl owner),
    hside (moves_linkConnectGiveUp rfl rfl), hup, ?_⟩
  · cases s with
    | wire => rfl
    | _ => cases hs
  · exact keepsAt_bind (hset fun _ => rfl) fun _ => keepsAt_bind (hup _) fun _ => keepsAt_get
      fun _ => .yields (hside (moves_broadcast ..))

theorem opening_moves (hs : S .stage) (hw : S .wire) (hh : S .history)
    (hb : S .boot) (e : Env ρ) : Opening e (moves S) := by
  refine opening_of_moves (fun _ _ h => h.mono fun s hside => ?_) fun line =>
    (moves_historyFence hh line).at e
  cases s with
  | stage => exact hs
  | wire => exact hw
  | boot => exact hb
  | _ => cases hside

namespace Opening

theorem plain (o : Opening e F) {p : M ρ α} (h : plain.Keeps p) : F.KeepsAt e p :=
  ((moves_of_plain h).at e).mono o.wire

theorem callLink (o : Opening e F) (op : LinkOp) : F.KeepsAt e (callLink op) :=
  ((moves_callLink op rfl).at e).mono o.wire

theorem brokerDoResume (o : Opening e F) : F.KeepsAt e brokerDoResume := by
  refine keepsAt_env (keepsAt_bind o.entered fun _ => keepsAt_get fun b =>
    keepsAt_unless fun _ =>
      keepsAt_bind (o.plain plain_brokerIdentityBlocksReopen) fun blocked =>
        keepsAt_unless fun _ => keepsAt_ite (fun _ => ?_) fun _ => ?_)
  · exact keepsAt_bind (o.callLink _) fun rc => keepsAt_unless fun _ =>
      keepsAt_ite (fun _ => o.later) fun _ => o.now
  · exact keepsAt_bind (o.callLink _) fun rc =>
      keepsAt_unless fun _ => o.now

theorem handleLinkConnecting (o : Opening e F) (ev : EpollFlags) :
    F.KeepsAt e (handleLinkConnecting ev) := by
  refine keepsAt_env (keepsAt_ite (fun _ => o.giveUp) fun _ =>
    keepsAt_if fun _ => ?_)
  refine keepsAt_bind (keepsAt_if fun _ => o.callLink _) fun rc => ?_
  exact keepsAt_ite (fun _ => o.bringUp _) fun _ =>
    keepsAt_if fun _ => o.giveUp

theorem attemptReconnect (o : Opening e F) : F.KeepsAt e attemptReconnect := by
  refine keepsAt_env (keepsAt_get fun b => keepsAt_unless fun _ =>
    keepsAt_unless fun _ => keepsAt_bind (o.plain (plain_ask _)) fun now =>
      keepsAt_unless fun _ =>
        keepsAt_bind (o.plain plain_brokerIdentityBlocksReopen) fun blocked =>
          keepsAt_ite (fun _ => ?_) fun _ => keepsAt_ite (fun _ => ?_) fun _ => ?_)
  · exact keepsAt_bind (o.plain (plain_ask _)) fun _ => o.plain (plain_modify fun _ => rfl)
  · exact keepsAt_bind (o.callLink _) fun rc => keepsAt_ite (fun _ => o.bringUp _) fun _ =>
      keepsAt_ite (fun _ => o.watch _) fun _ =>
        o.plain plain_linkScheduleRetry
  · exact keepsAt_bind (o.callLink _) fun rc => keepsAt_ite (fun _ => o.bringUp _) fun _ =>
      o.plain plain_linkScheduleRetry

end Opening

end Opening

section Breaking

theorem keeps_answerDone {F : Frame (Broker ρ)} {ticket : Nat} {done : BreakDone} {rc : Int}
    (hcalls : ∀ p : M ρ Unit, (moves (· == .calls)).Keeps p → F.Keeps p)
    (hreply : ∀ ctx, done = .pin ctx → F.Keeps (emit (.reply (.pin ticket) (pinReply ctx.msgId rc)))) :
    F.Keeps (answerDone ticket done rc) := by
  have hanswer : ∀ id reply, F.Keeps (do noteAnswered id; emit (.mcpReply id reply)) :=
    fun id reply => hcalls _ (keeps_bind (moves_noteAnswered rfl id) fun _ =>
      moves_of_plain (plain_mcpReply ..))
  cases done with
  | pin ctx =>
    refine keeps_get fun b => ?_
    split
    · exact keeps_pure _
    · exact keeps_bind (hreply ctx rfl) fun _ => hcalls _ (moves_of_plain (plain_sendToClient ..))
  | mcpBreak id key => exact hanswer id _
  | mcpReset id pin holdMs =>
    cases id with
    | none => exact keeps_pure _
    | some id => exact hanswer (some id) _

theorem moves_answerDone (hb : S .brk) (hc : S .calls) (ticket : Nat)
    (done : BreakDone) (rc : Int) : (moves S).Keeps (answerDone ticket done rc : M ρ Unit) := by
  refine keeps_answerDone (fun p h => h.mono fun _ _ => Moves.mono fun s hs => ?_) fun _ _ =>
    moves_reply hb _
  cases s with
  | calls => exact hc
  | _ => cases hs

theorem moves_noteAsked (hb : S .brk) (ticket : Nat) (done : Option BreakDone) :
    (moves S).Keeps (noteAsked ticket done : M ρ Unit) := by
  unfold noteAsked
  split
  · exact moves_asked hb _
  · exact keeps_pure _

theorem plain_breakPause (delayMs : Int) : plain.Keeps (breakPause delayMs : M ρ Int) :=
  keeps_if fun _ => plain_ask _

theorem moves_updateBreak (hb : S .brk) (f : BreakMachine → BreakMachine) :
    (moves S).Keeps (updateBreak f : M ρ Unit) := by
  refine moves_modify .brk hb (fun _ => rfl) fun _ t ht => ?_
  cases t with
  | brk => exact absurd rfl ht
  | _ => rfl

variable {e : Env ρ} {O : Sector → Bool} {F : Frame (Broker ρ)} (t : Traffic e O F)
  (hb : O .brk = true) (hc : O .calls = true) (ticket : Nat) (pin : Bytes) (done : Option BreakDone)

include t

theorem traffic_writeFollowup (data : Bytes) : F.KeepsAt e (writeFollowup data : M ρ Int) :=
  .yields (t.write data)

include hb

theorem traffic_updateBreak (f : BreakMachine → BreakMachine) :
    F.KeepsAt e (updateBreak f : M ρ Unit) := t.keeps (moves_updateBreak hb f)

theorem traffic_asserted : F.KeepsAt e (emit (.asserted ticket pin) : M ρ Unit) :=
  t.keeps (moves_note rfl (fun _ => trivial) hb)

theorem traffic_deassert : F.KeepsAt e (deassert ticket pin : M ρ Int) :=
  t.callAs _ _ .brk rfl hb (fun _ => rfl) fun _ _ => trivial

theorem traffic_breakTimerEnsure : F.KeepsAt e (breakTimerEnsure : M ρ Bool) :=
  keepsAt_get fun _ => keepsAt_unless fun _ => keepsAt_bind (t.plain plain_timerEnsure) fun _ =>
    .yields (traffic_updateBreak t hb _)

theorem traffic_holdLine (ms : Int) (start : BreakMachine → BreakMachine) :
    F.KeepsAt e (holdLine ticket pin ms start : M ρ Int) :=
  keepsAt_bind (traffic_updateBreak t hb _) fun _ => keepsAt_bind (t.ask _) fun _ =>
    keepsAt_if fun _ => keepsAt_bind (traffic_deassert t hb ..) fun _ =>
      .yields (traffic_updateBreak t hb _)

theorem traffic_holdBreak (durationMs : Int) (followup : Bytes) (delayMs : Int) :
    F.KeepsAt e (holdBreak ticket durationMs followup delayMs done : M ρ Int) :=
  keepsAt_bind (traffic_asserted t hb ..) fun _ => keepsAt_bind (traffic_breakTimerEnsure t hb)
    fun _ => keepsAt_ite (fun _ => traffic_holdLine t hb ..) fun _ =>
      .yields (traffic_deassert t hb ..)

theorem traffic_lineResetRequest (holdMs : Int) :
    F.KeepsAt e (lineResetRequest pin holdMs done ticket : M ρ Int) :=
  keepsAt_get fun _ => keepsAt_unless fun _ => keepsAt_unless fun _ => keepsAt_unless fun _ =>
    keepsAt_bind (t.call _ rfl) fun _ => keepsAt_unless fun _ =>
      keepsAt_bind (traffic_breakTimerEnsure t hb) fun _ => keepsAt_if fun _ =>
        keepsAt_bind (t.call _ rfl) fun _ => keepsAt_unless fun _ =>
          keepsAt_bind (traffic_asserted t hb ..) fun _ => traffic_holdLine t hb ..

theorem traffic_ticketed {request : Nat → M ρ Int} (h : ∀ ticket, F.KeepsAt e (request ticket)) :
    F.KeepsAt e (ticketed done request) := by
  have hnote : ∀ {ev : Event}, ev.sector = some .brk → (∀ idents, CalmEvent idents ev) →
      F.KeepsAt e (emit ev : M ρ Unit) := fun hev hcalm => t.keeps (moves_note hev hcalm hb)
  refine keepsAt_get fun b => keepsAt_bind (traffic_updateBreak t hb _) fun _ =>
    keepsAt_bind (hnote rfl fun _ => trivial) fun _ =>
      keepsAt_bind (t.keeps (moves_noteAsked hb ..)) fun _ => keepsAt_bind (h _) fun rc =>
        .yields ?_
  split
  · exact hnote rfl fun _ => trivial
  · exact hnote rfl fun _ => trivial

include hc

theorem traffic_runDone? (rc : Int) : F.KeepsAt e (runDone? ticket done rc : M ρ Unit) := by
  cases done with
  | none => exact keepsAt_pure _
  | some done =>
    exact keepsAt_bind (t.keeps (moves_note rfl (fun _ => trivial) hb)) fun _ =>
      t.keeps (moves_answerDone hb hc ticket done rc)

theorem traffic_breakComplete (rc : Int) : F.KeepsAt e (breakComplete rc : M ρ Unit) :=
  keepsAt_get fun _ => keepsAt_bind (traffic_updateBreak t hb _) fun _ =>
    traffic_runDone? t hb hc ..

theorem traffic_breakFollowup (data : Bytes) : F.KeepsAt e (breakFollowup data : M ρ Unit) :=
  keepsAt_bind (traffic_writeFollowup t data) fun _ => traffic_breakComplete t hb hc _

theorem traffic_breakRequest (durationMs : Int) (followup : Bytes) (delayMs : Int) :
    F.KeepsAt e (breakRequest durationMs followup delayMs done ticket : M ρ Int) := by
  refine keepsAt_get fun b => keepsAt_unless fun _ => keepsAt_unless fun _ =>
    keepsAt_unless fun _ => keepsAt_bind (traffic_updateBreak t hb _) fun _ =>
      keepsAt_bind (t.call _ rfl) fun rc => keepsAt_ite (fun _ => ?_) fun _ =>
        traffic_holdBreak t hb ..
  exact keepsAt_bind (keepsAt_bind (t.call _ rfl) fun _ => keepsAt_if fun _ =>
    traffic_writeFollowup t followup) fun _ => .yields (traffic_runDone? t hb hc ..)

theorem traffic_brokerScheduleBreak (durationMs : Int) (followup : Bytes) (delayMs : Int) :
    F.KeepsAt e (brokerScheduleBreak durationMs followup delayMs done : M ρ Int) :=
  traffic_ticketed t hb _ fun _ => traffic_breakRequest t hb hc ..

theorem traffic_breakCancel : F.KeepsAt e (breakCancel : M ρ Unit) := by
  refine keepsAt_get fun b => ?_
  dsimp only
  split
  · exact keepsAt_pure _
  · exact keepsAt_bind (traffic_deassert t hb ..) fun _ => traffic_breakComplete t hb hc _
  · exact traffic_breakComplete t hb hc _

theorem traffic_handleBreakTimer : F.KeepsAt e (handleBreakTimer : M ρ Unit) := by
  refine keepsAt_get fun b => ?_
  dsimp only
  split
  · refine keepsAt_bind (keepsAt_bind (traffic_deassert t hb ..) fun _ => keepsAt_if fun _ =>
      traffic_deassert t hb ..) fun rc => keepsAt_ite (fun _ => ?_) fun _ =>
        traffic_breakComplete t hb hc _
    exact keepsAt_bind (t.plain (plain_breakPause _)) fun _ => keepsAt_ite
      (fun _ => traffic_updateBreak t hb _) fun _ => traffic_breakFollowup t hb hc _
  · exact traffic_breakFollowup t hb hc _
  · exact keepsAt_pure _

end Breaking

end Smolmux.Broker
