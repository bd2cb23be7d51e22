import Smolmux.Broker.DeviceSide

/-! The operations that touch a sector of the broker. Whatever the broker does with
its device is a sequence of these operations and of plain steps, so that a rule for
a sector only has to look at the operations that touch it. -/

namespace Smolmux.Broker
open Smolmux.Frame

variable {ρ α : Type}

inductive BreakOp where
  | schedule (durationMs : Int) (followup : Bytes) (delayMs : Int) (done : Option BreakDone)
  | lineReset (pin : Bytes) (holdMs : Int) (done : Option BreakDone)
  | cancel
  | timer
  | dropTimer

def BreakOp.run : BreakOp → Env ρ → Broker ρ → Broker ρ
  | .schedule durationMs followup delayMs done, e, b =>
    (brokerScheduleBreak durationMs followup delayMs done e b).2
  | .lineReset pin holdMs done, e, b => (brokerScheduleLineReset pin holdMs done e b).2
  | .cancel, e, b => (breakCancel e b).2
  | .timer, e, b => (handleBreakTimer e b).2
  | .dropTimer, _, b => { b with brk := { b.brk with timer := false } }

def checkConnectDeadline : M ρ Unit := do
  let b ← Proc.get
  if b.linkConnecting then do
    let now ← nowMonotonic
    if b.linkConnectDeadline < now then linkConnectGiveUp else pure ()
  else pure ()

def endExpects (reason patternName : Bytes) : M ρ Unit := do
  abortExpects reason patternName
  processExpectResults

inductive Op where
  | brk (op : BreakOp)
  | write (data : Bytes)
  | param (key value : Bytes)
  | flush
  | startFlood (r : FloodRequest)
  | feedFlood (buf : Bytes)
  | floodTimer
  | cancelFlood
  | stopFlood
  | addExpect (id pattern : Bytes) (timeoutS : Rat) (clientId : Bytes) (owner : Option Nat)
  | cancelExpect (id : Bytes) (owner : Option Nat)
  | cancelMcpExpects
  | feedExpects (buf : Bytes)
  | endExpects (reason patternName : Bytes)
  | collectExpects
  | expectId
  | wait (jsonrpcId : Option Json) (call : Json → McpPending)
  | defer (id : Option Json)
  | fence (line : Bytes)
  | record (buf : Bytes) (ts : Rat)
  | askHistory (c : Client) (root : Json)
  | answerHistory
  | suspend
  | resume
  | nameResume (rid : Bytes)
  | lost
  | reconnect
  | connecting (flags : EpollFlags)
  | deadline
  | feedBoot (buf : Bytes) (ts : Rat)
  | stallTimer

def Flood.stopped (fl : Flood ρ) : Flood ρ :=
  { fl with active := false, stopRe := none, timer := false }

def Op.run : Op → Env ρ → Broker ρ → Broker ρ
  | .brk op, e, b => op.run e b
  | .write data, e, b => (brokerDoWrite data e b).2
  | .param key value, e, b => (setParam key value e b).2
  | .flush, e, b => (flushQueue e b).2
  | .startFlood r, e, b => (brokerStartFlood r e b).2
  | .feedFlood buf, e, b => (floodFeed buf e b).2
  | .floodTimer, e, b => (handleFloodTimer e b).2
  | .cancelFlood, e, b => (floodCancel e b).2
  | .stopFlood, e, b => (updateFlood Flood.stopped e b).2
  | .addExpect id pattern timeoutS clientId owner, e, b =>
    (Broker.addExpect id pattern timeoutS clientId owner e b).2
  | .cancelExpect id _, e, b => (Broker.cancelExpect id e b).2
  | .cancelMcpExpects, _, b =>
    { b with expect := Expect.expectCancelClient b.expect mcpClientId }
  | .feedExpects buf, e, b => { b with expect := Expect.expectFeed e.regex b.expect buf }
  | .endExpects reason patternName, e, b => (Broker.endExpects reason patternName e b).2
  | .collectExpects, e, b => (processExpectResults e b).2
  | .expectId, e, b => (updateMcp (fun mcp => (mcpGenExpectId mcp).2) e b).2
  | .wait jsonrpcId call, e, b => (mcpWait jsonrpcId call e b).2
  | .defer id, e, b => (noteDeferred id e b).2
  | .fence line, e, b => (historyFence line e b).2
  | .record buf ts, e, b => (recordOutput buf ts e b).2
  | .askHistory c root, e, b => (handleHistoryRequest c root e b).2
  | .answerHistory, e, b => (processHistory e b).2
  | .suspend, e, b => (linkSuspend e (stallDisarm e b).2).2
  | .resume, e, b => (brokerDoResume e b).2
  | .nameResume rid, e, b => (Broker.nameResume rid e b).2
  | .lost, e, b => (linkLost e (stallDisarm e b).2).2
  | .reconnect, e, b => (attemptReconnect e b).2
  | .connecting flags, e, b => (handleLinkConnecting flags e b).2
  | .deadline, e, b => (checkConnectDeadline e b).2
  | .feedBoot buf ts, e, b => (Broker.feedBoot buf ts e b).2
  | .stallTimer, e, b => (handleStallTimer e b).2

def Newest (b : Broker ρ) (serial : Nat) : Prop :=
  ∃ req ∈ b.expect.requests, req.ticket + 1 = b.expect.next ∧ req.owner = some serial

/-- What is known when an operation runs: who an expect is for, also when it is withdrawn, that
there was no slot for a call when all expects of the sink are given up, that a link that is
lost was there, that it is gone when this is written to the history, and that a connect is
under way when it is looked at. -/
def Op.Ready : Op → Broker ρ → Prop
  | .addExpect _ _ _ clientId none, b => clientId = mcpClientId ∧ b.mcp.isSome = true
  | .addExpect _ _ _ clientId (some serial), b => ∃ x ∈ b.idents, x.id = clientId ∧ x.serial = serial
  | .cancelExpect _ (some serial), b => b.Newest serial
  | .cancelMcpExpects, b => b.trace.getLast? = some (.mcp .full)
  | .connecting _, b => b.linkConnecting = true ∧ b.suspended = false
  | .lost, b => b.linkDisconnected = false
  | .fence _, b => b.linkDisconnected = true
  | _, _ => True

def BreakDone.isMcp : BreakDone → Bool
  | .pin .. => false
  | .mcpBreak .. | .mcpReset .. => true

def Op.byTool : Op → Bool
  | .brk (.schedule _ _ _ done) | .brk (.lineReset _ _ done) => done.any BreakDone.isMcp
  | .addExpect _ _ _ _ owner | .cancelExpect _ owner => owner.isNone
  | .cancelMcpExpects | .expectId | .wait .. | .defer _ => true
  | _ => false

/-- Operations that a turn runs whatever its events are; the end of a flood is left to
the shutdown, and the look at a connect and the record of output to the events of the
link. -/
def Op.inTurn : Op → Bool
  | .stopFlood | .connecting _ | .record .. => false
  | _ => true

def Op.isDeed (op : Op) : Bool := op.inTurn && !op.byTool

def Op.onLink : Op → Bool
  | .record .. => true
  | op => op.isDeed

def Op.isLooking : Op → Bool
  | .addExpect .. | .cancelExpect .. | .cancelMcpExpects | .expectId | .wait .. => true
  | .askHistory .. => true
  | _ => false

def Op.touches : Op → Sector → Bool
  | .brk _ => fun s => s == .brk || s == .wire || s == .calls
  | .write _ | .param .. | .flush => fun s => s == .wire
  | .startFlood _ | .feedFlood _ | .floodTimer | .cancelFlood => fun s => s == .flood || s == .wire
  | .stopFlood => fun s => s == .flood
  | .addExpect .. | .cancelExpect .. | .cancelMcpExpects | .feedExpects _ => fun s => s == .expect
  | .endExpects .. | .collectExpects => fun s => s == .expect || s == .calls
  | .expectId | .wait .. | .defer _ => fun s => s == .calls
  | .fence _ | .record .. => fun s => s == .history
  | .askHistory .. | .answerHistory => fun s => s == .pages
  | .suspend => fun s => s == .stage || s == .wire || s == .expect || s == .boot
  | .resume | .reconnect | .connecting _ =>
    fun s => s == .stage || s == .wire || s == .history || s == .boot
  | .lost => fun s => s == .stage || s == .wire || s == .boot
  | .deadline => fun s => s == .stage || s == .wire
  | .nameResume _ => fun s => s == .stage
  | .feedBoot .. | .stallTimer => fun s => s == .boot

theorem moves_nameResume {S : Sector → Bool} (hs : S .stage) (rid : Bytes) :
    (moves S).Keeps (nameResume rid : M ρ Unit) :=
  keeps_get fun _ => keeps_when fun _ =>
    keeps_bind (moves_setStage hs fun _ => rfl) fun _ => moves_stageNote hs _

theorem moves_checkConnectDeadline {S : Sector → Bool} (hs : S .stage) (hw : S .wire) :
    (moves S).Keeps (checkConnectDeadline : M ρ Unit) :=
  keeps_get fun _ => keeps_if fun _ => keeps_bind (moves_ask _) fun _ =>
    keeps_if (fun _ => moves_linkConnectGiveUp hs hw)

def Op.isTraffic : Op → Bool
  | .brk _ | .startFlood _ | .feedFlood _ | .floodTimer | .cancelFlood => true
  | _ => false

theorem traffic_run {F : Frame (Broker ρ)} {e : Env ρ} {op : Op} {b : Broker ρ} (hop : op.isTraffic)
    (t : Traffic e (fun s => op.touches s && s != .wire) F) : F.rel b (op.run e b) := by
  cases op with
  | brk op =>
    cases op with
    | schedule durationMs followup delayMs done =>
      exact (traffic_brokerScheduleBreak t rfl rfl ..).rel b
    | lineReset pin holdMs done =>
      exact (traffic_ticketed t rfl done fun _ => traffic_lineResetRequest t rfl ..).rel b
    | cancel => exact (traffic_breakCancel t rfl rfl).rel b
    | timer => exact (traffic_handleBreakTimer t rfl rfl).rel b
    | dropTimer => exact (traffic_updateBreak t rfl fun m => { m with timer := false }).rel b
  | startFlood r => exact (traffic_brokerStartFlood t rfl r).rel b
  | feedFlood buf => exact (traffic_floodFeed t rfl buf).rel b
  | floodTimer => exact (traffic_handleFloodTimer t rfl).rel b
  | cancelFlood => exact ((floodMoves_of_traffic t rfl).finish ..).rel b
  | _ => cases hop

variable (op : Op)

theorem moves_run (e : Env ρ) (b : Broker ρ) :
    (moves op.touches).rel b (op.run e b) := by
  cases op with
  | brk | startFlood | feedFlood | floodTimer | cancelFlood =>
    exact traffic_run rfl (traffic_moves (fun _ hs => (Bool.and_eq_true_iff.mp hs).1) rfl)
  | write data => exact (moves_brokerDoWrite rfl data).rel e b
  | param key value => exact (moves_callLink _ rfl).rel e b
  | flush => exact (moves_flushQueue rfl).rel e b
  | stopFlood => exact (moves_updateFlood rfl _).rel e b
  | addExpect id pattern timeoutS clientId owner => exact (moves_addExpect rfl ..).rel e b
  | cancelExpect id owner => exact (moves_cancelExpect rfl id).rel e b
  | cancelMcpExpects =>
    exact (moves_setExpect rfl fun b => Expect.expectCancelClient b.expect mcpClientId).rel e b
  | feedExpects buf =>
    exact (moves_setExpect rfl fun b => Expect.expectFeed e.regex b.expect buf).rel e b
  | endExpects reason patternName =>
    exact (keeps_bind (moves_setExpect rfl _) fun _ => moves_processExpectResults rfl rfl).rel e b
  | collectExpects => exact (moves_processExpectResults rfl rfl).rel e b
  | expectId => exact (moves_updateMcp rfl _).rel e b
  | wait jsonrpcId call => exact (moves_mcpWait rfl ..).rel e b
  | defer id => exact (moves_noteDeferred rfl id).rel e b
  | fence line => exact (moves_historyFence rfl line).rel e b
  | record buf ts => exact (moves_recordOutput rfl buf ts).rel e b
  | askHistory c root => exact (moves_handleHistoryRequest rfl c root).rel e b
  | answerHistory => exact (moves_processHistory rfl).rel e b
  | suspend =>
    exact (keeps_bind (moves_stallDisarm rfl) fun _ => moves_linkSuspend rfl rfl rfl).rel e b
  | resume => exact (opening_moves rfl rfl rfl rfl e).brokerDoResume.rel b
  | nameResume rid => exact (moves_nameResume rfl rid).rel e b
  | lost => exact (keeps_bind (moves_stallDisarm rfl) fun _ => moves_linkLost rfl rfl).rel e b
  | reconnect => exact (opening_moves rfl rfl rfl rfl e).attemptReconnect.rel b
  | connecting flags => exact ((opening_moves rfl rfl rfl rfl e).handleLinkConnecting flags).rel b
  | deadline => exact (moves_checkConnectDeadline rfl rfl).rel e b
  | feedBoot buf ts => exact (moves_feedBoot rfl buf ts).rel e b
  | stallTimer => exact (moves_handleStallTimer rfl).rel e b

def replugged (b : Broker ρ) : Broker ρ := { b with epoch := b.epoch + 1 }

theorem moves_replugged (b : Broker ρ) : Moves (fun s => s == .stage) b b.replugged :=
  moves_of_core rfl fun s hs => by
    cases s with
    | stage => cases hs
    | _ => rfl

/-- One operation that is allowed, or a step of a frame. -/
inductive Work (F : Frame (Broker ρ)) (P : Op → Bool) (e : Env ρ) (b b' : Broker ρ) : Prop where
  | step (h : F.rel b b')
  | op (op : Op) (hP : P op = true) (hready : op.Ready b) (h : b' = op.run e b)

def does (F : Frame (Broker ρ)) (P : Op → Bool) (e : Env ρ) : Frame (Broker ρ) := closure (Work F P e)

/-- Sequences of plain steps and of the operations of a turn, of those that are run at
any time, and of those of an event of the link. -/
def work (e : Env ρ) : Frame (Broker ρ) := does plain Op.inTurn e
def deed (e : Env ρ) : Frame (Broker ρ) := does plain Op.isDeed e
def linkWork (e : Env ρ) : Frame (Broker ρ) := does plain Op.onLink e

variable {p : M ρ α}

section Rules

variable {F G : Frame (Broker ρ)} {P Q : Op → Bool} {e : Env ρ} {b b' : Broker ρ}

theorem Work.mono (hF : ∀ b b', F.rel b b' → G.rel b b') (hP : ∀ op, P op → Q op)
    (h : Work F P e b b') : Work G Q e b b' := by
  cases h with
  | step h => exact .step (hF _ _ h)
  | op op hop hready h => exact .op op (hP op hop) hready h

theorem does_mono (hF : ∀ b b', F.rel b b' → G.rel b b') (hP : ∀ op, P op → Q op)
    (h : (does F P e).rel b b') : (does G Q e).rel b b' :=
  closure_le _ (fun _ _ hatom => closure_atom (hatom.mono hF hP)) h

theorem does_step (h : F.Keeps p) : (does F P e).KeepsAt e p :=
  ⟨fun b => closure_atom (.step (h.rel e b))⟩

theorem does_op (hP : P op) (hready : ∀ b : Broker ρ, op.Ready b)
    (h : ∀ b, (p e b).2 = op.run e b) : (does F P e).KeepsAt e p :=
  ⟨fun b => closure_atom (.op op hP (hready b) (h b))⟩

theorem deed_of_plain (h : plain.Keeps p) : (deed e).KeepsAt e p := does_step h

theorem deed_op (hP : op.isDeed) (hready : ∀ b : Broker ρ, op.Ready b)
    (h : ∀ b, (p e b).2 = op.run e b) :
    (deed e).KeepsAt e p := does_op op hP hready h

theorem work_of_deed (h : (deed e).KeepsAt e p) : (work e).KeepsAt e p :=
  h.mono fun _ _ => does_mono (fun _ _ h => h) fun _ hop => (Bool.and_eq_true_iff.mp hop).1

theorem onLink_of_isDeed {op : Op} (h : op.isDeed) : op.onLink := by
  cases op with
  | record buf ts => rfl
  | _ => exact h

theorem linkWork_of_deed (h : (deed e).KeepsAt e p) : (linkWork e).KeepsAt e p :=
  h.mono fun _ _ => does_mono (fun _ _ h => h) fun _ => onLink_of_isDeed

theorem linkWork_of_plain (h : plain.Keeps p) : (linkWork e).KeepsAt e p := does_step h

theorem work_of_plain (h : plain.Keeps p) : (work e).KeepsAt e p := does_step h

theorem work_op (hP : op.inTurn) (hready : ∀ b : Broker ρ, op.Ready b)
    (h : ∀ b, (p e b).2 = op.run e b) :
    (work e).KeepsAt e p := does_op op hP hready h

theorem of_does (hF : ∀ b b', G.rel b b' → F.rel b b')
    (hop : ∀ op b, P op → op.Ready b → F.rel b (op.run e b)) (h : (does G P e).KeepsAt e p) : F.KeepsAt e p := by
  refine h.mono fun _ _ => closure_le F fun b b' hatom => ?_
  cases hatom with
  | step h => exact hF _ _ h
  | op op hP hready h => exact h ▸ hop op b hP hready

theorem Work.calm (h : Work plain P e b b') : Calm (fun _ => True) b b' := by
  cases h with
  | step h => exact h.calm.mono fun _ _ => trivial
  | op op hP hready h => exact h ▸ (moves_run op e b).calm.mono fun _ _ => trivial

theorem calm_of_does (h : (does plain P e).KeepsAt e p) (b : Broker ρ) :
    Calm (fun _ => True) b (p e b).2 :=
  closure_le ⟨Calm fun _ => True, .refl _, .trans⟩ (fun _ _ => Work.calm) (h.rel b)

end Rules

end Smolmux.Broker
