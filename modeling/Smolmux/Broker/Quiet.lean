import Smolmux.Broker.EventLoop
import Smolmux.Trace

/-! What the parts of the broker that deal with the device leave alone. The state
and the trace have sectors, such as the BREAK machine, the flood or the expects,
and a procedure is in a frame that says which of them it may touch. No such
procedure changes who the clients are or who holds the takeover, and the lines it
broadcasts reach only clients that have said hello. -/

namespace Smolmux.Broker
open Protocol Smolmux.Client Smolmux.Frame List

variable {ρ α : Type}

structure Ident where
  addr : Addr
  serial : Nat
  id : Bytes
  name : Bytes
  role : Role
  helloReceived : Bool
  requiresAuth : Bool
  deriving DecidableEq

def Client.ident (c : Client) : Ident :=
  ⟨c.addr, c.serial, c.id, c.name, c.role, c.helloReceived, c.requiresAuth⟩

def idents (b : Broker ρ) : List Ident := b.clients.map Client.ident

def Event.isLedger : Event → Bool
  | .requested _ | .asserted .. | .deasserted .. | .accepted .. | .rejected _ | .callback .. => true
  | _ => false

/-- Events of a broker whose clients are `idents` that do not tell of a change
among them; a broadcast line goes to one that has said hello. -/
def CalmEvent (idents : List Ident) : Event → Prop
  | .sent serial true _ => ∃ c ∈ idents, c.serial = serial ∧ c.helloReceived = true
  | .registered .. | .removed _ | .dispatched .. | .applied .. => False
  | _ => True

structure Calm (P : Event → Prop) (b b' : Broker ρ) : Prop where
  idents : b'.idents = b.idents
  takeover : b'.takeoverClient = b.takeoverClient
  registrations : b'.registrations = b.registrations
  authToken : b'.authToken = b.authToken
  trace : Grows (fun ev => CalmEvent b.idents ev ∧ P ev) b.trace b'.trace

theorem Calm.refl (P : Event → Prop) (b : Broker ρ) : Calm P b b := ⟨rfl, rfl, rfl, rfl, .refl ..⟩

theorem Calm.trans {P : Event → Prop} {b₁ b₂ b₃ : Broker ρ} (h : Calm P b₁ b₂)
    (h' : Calm P b₂ b₃) : Calm P b₁ b₃ where
  idents := h'.idents.trans h.idents
  takeover := h'.takeover.trans h.takeover
  registrations := h'.registrations.trans h.registrations
  authToken := h'.authToken.trans h.authToken
  trace := h.trace.trans (h.idents ▸ h'.trace)

variable {b b' : Broker ρ}

theorem Calm.mono {P Q : Event → Prop} (hPQ : ∀ ev, P ev → Q ev) (h : Calm P b b') : Calm Q b b' :=
  ⟨h.idents, h.takeover, h.registrations, h.authToken,
    h.trace.mono fun ev hev => ⟨hev.1, hPQ ev hev.2⟩⟩

/-- The sectors of the state that have rules of their own. The stage is how far
the link is from being up, the wire is the link itself and what is watched of it,
the calls are those of MCP tools that wait, and the pages are the slot of the history
request that is answered; the boot is its tracker and whether a stall was told. -/
inductive Sector where
  | brk | flood | expect | calls | history | stage | wire | pages | boot
  deriving DecidableEq

structure Stage where
  suspended : Bool
  linkConnecting : Bool
  linkDisconnected : Bool
  pendingResumeAck : Bool
  pendingResumeId : Bytes
  resumeTicket : Nat
  resumeNext : Nat
  connectOwner : Option Nat
  connectDeadline : Rat
  port : Bytes
  identityWeakById : Bool
  identityByPath : Bytes
  epoch : Nat

def stage (b : Broker ρ) : Stage :=
  ⟨b.suspended, b.linkConnecting, b.linkDisconnected, b.pendingResumeAck, b.pendingResumeId,
    b.resumeTicket, b.resumeNext, b.connectOwner, b.linkConnectDeadline, b.port,
    b.identityWeakById, b.identityByPath, b.epoch⟩

def McpSink.calls (mcp : McpSink) : List (Option McpPending) × Nat :=
  (mcp.pending, mcp.nextExpectSeq)

def Sector.Part (ρ : Type) : Sector → Type
  | .brk => BreakMachine
  | .flood => Flood ρ
  | .expect => Expect.ExpectEngine ρ
  | .calls => Option (List (Option McpPending) × Nat)
  | .history => RingBuffer.Ring Rat
  | .stage => Stage
  | .wire => LinkState × (Int → Option Interest)
  | .pages => History.HistoryPending × Nat
  | .boot => BootStage.BootTracker ρ × Bool

def part (b : Broker ρ) : (s : Sector) → s.Part ρ
  | .brk => b.brk
  | .flood => b.flood
  | .expect => b.expect
  | .calls => b.mcp.map McpSink.calls
  | .history => b.history
  | .stage => b.stage
  | .wire => (b.link, b.watched)
  | .pages => (b.historyPending, b.historyTicket)
  | .boot => (b.boot, b.stallNotified)

def Waiting.sector : Waiting → Sector
  | .expect _ => .expect
  | .pin _ => .brk
  | .flood _ => .flood
  | .resume _ => .stage
  | .history _ => .pages

def Event.sector : Event → Option Sector
  | .requested _ | .asserted .. | .deasserted .. | .accepted .. | .rejected _ | .callback .. =>
    some .brk
  | .flood _ => some .flood
  | .expect _ => some .expect
  | .mcp _ => some .calls
  | .boot _ => some .boot
  | .recorded _ => some .history
  | .resume _ | .linkUp _ => some .stage
  | .link .. => some .wire
  | .asked request _ | .reply request _ => some request.sector
  | _ => none

/-- Only the sectors of `S` are touched, and the MCP sink does not come or go. -/
structure Moves (S : Sector → Bool) (b b' : Broker ρ) : Prop where
  calm : Calm (fun ev => ∀ s, ev.sector = some s → S s = true) b b'
  numbers : b'.nextClientNum = b.nextClientNum ∧ b'.attempts = b.attempts
  forward : b.queries ≤ b'.queries
  part : ∀ s, S s = false → b'.part s = b.part s
  sink : b'.mcp.isSome = b.mcp.isSome

def moves (S : Sector → Bool) : Frame (Broker ρ) where
  rel := Moves S
  refl b := ⟨.refl _ b, ⟨rfl, rfl⟩, Nat.le_refl _, fun _ _ => rfl, rfl⟩
  trans h h' := ⟨h.calm.trans h'.calm, ⟨h'.numbers.1.trans h.numbers.1, h'.numbers.2.trans
    h.numbers.2⟩, h.forward.trans h'.forward, fun s hs => (h'.part s hs).trans (h.part s hs),
    h'.sink.trans h.sink⟩

def plain : Frame (Broker ρ) := moves fun _ => false

theorem Moves.mono {S T : Sector → Bool} (hST : ∀ s, S s → T s) (h : Moves S b b') : Moves T b b' where
  calm := h.calm.mono fun _ hev s hs => hST s (hev s hs)
  numbers := h.numbers
  forward := h.forward
  part s hs := h.part s (by
    cases hS : S s with
    | false => rfl
    | true => rw [hST s hS] at hs; cases hs)
  sink := h.sink

theorem moves_of_plain {S : Sector → Bool} {p : M ρ α} (h : plain.Keeps p) : (moves S).Keeps p :=
  h.mono fun _ _ => Moves.mono fun _ hs => Bool.noConfusion hs

variable {ev : Event}

variable {f : Broker ρ → Broker ρ} (a : Addr) (msg : Json) (op : LinkOp)

section Primitives

variable {S : Sector → Bool}

def core (b : Broker ρ) :=
  (b.clients, b.takeoverClient, b.registrations, b.authToken, b.trace, b.nextClientNum, b.attempts,
    b.queries, b.mcp.isSome)

theorem moves_of_core (h : b'.core = b.core) (hpart : ∀ s, S s = false → b'.part s = b.part s) : Moves S b b' := by
  simp only [Broker.core, Prod.mk.injEq] at h
  obtain ⟨hclients, htakeover, hreg, htoken, htrace, hnum, hattempts, hqueries, hsink⟩ := h
  refine ⟨⟨?_, htakeover, hreg, htoken, ?_⟩, ⟨hnum, hattempts⟩, Nat.le_of_eq hqueries.symm, hpart,
    hsink⟩
  · rw [Broker.idents, Broker.idents, hclients]
  · rw [htrace]
    exact .refl ..

theorem moves_modify (s : Sector) (hS : S s) (hcore : ∀ b, (f b).core = b.core)
    (hpart : ∀ b t, t ≠ s → (f b).part t = b.part t) :
    (moves S).Keeps (Proc.modify f : M ρ Unit) := by
  refine ⟨fun _ b => moves_of_core (hcore b) fun t ht => hpart b t ?_⟩
  rintro rfl
  rw [hS] at ht
  cases ht

def offStage (b : Broker ρ) :=
  (b.core, b.brk, b.flood, b.expect, b.mcp.map McpSink.calls, b.history, b.link, b.watched,
    b.historyPending, b.historyTicket, b.boot, b.stallNotified)

theorem part_of_offStage (h : b'.offStage = b.offStage) {t : Sector} (ht : t ≠ .stage) : b'.part t = b.part t := by
  simp only [Broker.offStage, Prod.mk.injEq] at h
  obtain ⟨-, hbrk, hflood, hexpect, hcalls, hhistory, hlink, hwatched, hpending, hticket,
    hboot, hnotified⟩ := h
  cases t with
  | brk => exact hbrk
  | flood => exact hflood
  | expect => exact hexpect
  | calls => exact hcalls
  | history => exact hhistory
  | wire => exact Prod.ext hlink hwatched
  | pages => exact Prod.ext hpending hticket
  | boot => exact Prod.ext hboot hnotified
  | stage => exact absurd rfl ht

theorem moves_setStage (hS : S .stage) (h : ∀ b, (f b).offStage = b.offStage) : (moves S).Keeps (Proc.modify f : M ρ Unit) :=
  moves_modify .stage hS (fun b => congrArg Prod.fst (h b)) fun b _ => part_of_offStage (h b)

theorem plain_modify (h : ∀ b, ((f b).offStage, (f b).stage) = (b.offStage, b.stage)) :
    plain.Keeps (Proc.modify f : M ρ Unit) := by
  refine ⟨fun _ b => moves_of_core (congrArg (·.1.1) (h b)) fun t _ => ?_⟩
  by_cases ht : t = .stage
  · subst ht
    exact congrArg Prod.snd (h b)
  · exact part_of_offStage (congrArg Prod.fst (h b)) ht

theorem moves_noted (ev : Event) (hcalm : CalmEvent b.idents ev)
    (h : ∀ s, ev.sector = some s → S s) : Moves S b (b.noted ev) :=
  ⟨⟨rfl, rfl, rfl, rfl, .single ⟨hcalm, h⟩ _⟩, ⟨rfl, rfl⟩, Nat.le_refl _,
    fun s _ => by cases s <;> rfl, rfl⟩

theorem moves_emit (hcalm : ∀ idents, CalmEvent idents ev)
    (h : ∀ s, ev.sector = some s → S s) : (moves S).Keeps (emit ev : M ρ Unit) :=
  ⟨fun _ _ => moves_noted ev (hcalm _) h⟩

theorem moves_note {s : Sector} (hsector : ev.sector = some s)
    (hcalm : ∀ idents, CalmEvent idents ev) (hS : S s) :
    (moves S).Keeps (emit ev : M ρ Unit) := by
  refine moves_emit hcalm fun t ht => ?_
  rw [hsector] at ht
  cases ht
  exact hS

theorem plain_emit (hcalm : ∀ idents, CalmEvent idents ev) (h : ev.sector = none) : plain.Keeps (emit ev : M ρ Unit) :=
  moves_emit hcalm fun _ hs => by rw [h] at hs; cases hs

theorem moves_asked {request : Waiting} (h : S request.sector) (id : Option Bytes) :
    (moves S).Keeps (emit (.asked request id) : M ρ Unit) := moves_note rfl (fun _ => trivial) h

theorem moves_reply {request : Waiting} (h : S request.sector) (msg : Json) :
    (moves S).Keeps (emit (.reply request msg) : M ρ Unit) := moves_note rfl (fun _ => trivial) h

theorem plain_ask (f : Env ρ → Nat → α) : plain.Keeps (ask f) :=
  ⟨fun _ b => ⟨⟨rfl, rfl, rfl, rfl, .refl ..⟩, ⟨rfl, rfl⟩, Nat.le_succ _,
    fun s _ => by cases s <;> rfl, rfl⟩⟩

theorem idents_updateClient (b : Broker ρ) (a : Addr) {f : Client → Client}
    (hf : ∀ c, (f c).ident = c.ident) :
    (b.clients.map fun c => if c.addr = a then f c else c).map Client.ident = b.idents := by
  rw [Broker.idents, map_map]
  refine map_congr_left fun c _ => ?_
  rw [Function.comp_apply]
  split_ifs
  · exact hf c
  · rfl

theorem plain_updateClient {f : Client → Client} (hf : ∀ c, (f c).ident = c.ident) :
    plain.Keeps (updateClient a f : M ρ Unit) :=
  ⟨fun _ b => ⟨⟨idents_updateClient b a hf, rfl, rfl, rfl, .refl ..⟩, ⟨rfl, rfl⟩, Nat.le_refl _,
    fun s _ => by cases s <;> rfl, rfl⟩⟩

theorem plain_epollCtl (op : EpollOp) (fd : Int) (interest : Interest) :
    plain.Keeps (epollCtl op fd interest : M ρ Int) :=
  keeps_bind (plain_ask _) fun _ =>
    .yields (plain_emit (fun _ => trivial) rfl)

theorem plain_sendToClient : plain.Keeps (sendToClient a msg : M ρ Unit) := by
  refine keeps_env fun e => keeps_bind (plain_ask _) fun mem =>
    keeps_get fun b => ?_
  split
  · exact keeps_pure _
  · exact keeps_bind (plain_emit (fun _ => trivial) rfl) fun _ =>
      plain_updateClient a fun _ => rfl

theorem trace_sendToClient {b : Broker ρ} {a : Addr} {c : Client} (h : b.clientAt a = some c)
    (msg : Json) (e : Env ρ) :
    (sendToClient a msg e b).2.trace = b.trace ++ [.sent c.serial false msg] := by
  have hat : Broker.clientAt { b with queries := b.queries + 1 } a = some c := h
  simp only [sendToClient, Proc.bind_apply, Proc.env_apply, Proc.get_apply, ask, hat]
  rfl

theorem clientAt_of_idents {b b₁ : Broker ρ} {a : Addr} {c : Client} (h : b₁.idents = b.idents)
    (hc : b.clientAt a = some c) :
    ∃ c', b₁.clientAt a = some c' ∧ c'.serial = c.serial := by
  have hfind : ∀ b : Broker ρ, b.idents.find? (·.addr == a) = (b.clientAt a).map Client.ident :=
    fun b => find?_map ..
  have hsame : (b₁.clientAt a).map Client.ident = some c.ident := by
    rw [← hfind, h, hfind, hc, Option.map_some]
  obtain ⟨c', hc', hident⟩ := Option.map_eq_some_iff.mp hsame
  exact ⟨c', hc', congrArg Ident.serial hident⟩

theorem plain_sendError (id : Option Bytes) (message : String) :
    plain.Keeps (sendError a id message : M ρ Unit) := plain_sendToClient a _

theorem plain_flushClient : plain.Keeps (flushClient a : M ρ FlushResult) := by
  refine keeps_bind (plain_ask _) fun results => keeps_get fun b => ?_
  split
  · exact keeps_pure _
  · exact .yields (plain_updateClient a fun _ => rfl)

theorem plain_sendShared (exclude : Option Addr) (c : Client) (e : Env ρ)
    (hc : c.ident ∈ b.idents) : plain.rel b (sendShared msg exclude c e b).2 := by
  unfold sendShared
  rw [Proc.ite_apply]
  split_ifs with h
  · exact plain.refl b
  · push Not at h
    have hhello : c.helloReceived := by simpa using h.2
    have hasked := (plain_ask Env.mem).rel e b
    refine plain.trans hasked (plain.trans (moves_noted (.sent c.serial true msg)
      ⟨c.ident, hc, rfl, hhello⟩ nofun) ?_)
    exact (plain_updateClient c.addr (f := fun c => { c with queue := (clientSendShared e.codec
      (ask Env.mem e b).1 c.queue (msgEncode e.codec msg)).1 }) fun _ => rfl).rel e _

theorem plain_shareAll (exclude : Option Addr) (e : Env ρ) (cs : List Client)
    (hcs : ∀ c ∈ cs, c.ident ∈ b.idents) :
    plain.rel b (Proc.each (sendShared msg exclude) cs e b).2 := by
  induction cs generalizing b with
  | nil => exact plain.refl b
  | cons c cs ih =>
    rw [Proc.each_cons]
    have hstep := plain_sendShared msg exclude c e (hcs c mem_cons_self)
    refine plain.trans hstep (ih fun d hd => ?_)
    rw [hstep.calm.idents]
    exact hcs d (mem_cons_of_mem c hd)

theorem plain_broadcast (exclude : Option Addr) :
    plain.Keeps (broadcast msg exclude : M ρ Unit) := by
  refine keeps_bind (plain_ask _) fun line => keeps_if fun _ => ?_
  exact ⟨fun e b => plain_shareAll msg exclude e b.clients fun c hc => mem_map_of_mem hc⟩

theorem moves_ask (f : Env ρ → Nat → α) : (moves S).Keeps (ask f) := moves_of_plain (plain_ask f)

theorem moves_broadcast (exclude : Option Addr) :
    (moves S).Keeps (broadcast msg exclude : M ρ Unit) := moves_of_plain (plain_broadcast ..)

theorem moves_afterLink (hwire : S .wire) (e : Env ρ) (op : LinkOp) (rc : Int) :
    (moves S).Keeps (Proc.modify (·.afterLink e op rc) : M ρ Unit) := by
  refine moves_modify .wire hwire (fun _ => rfl) fun _ t ht => ?_
  cases t with
  | wire => exact absurd rfl ht
  | _ => rfl

theorem moves_callLinkAs {ev : Int → Event} (hwire : S .wire)
    (hcalm : ∀ rc idents, CalmEvent idents (ev rc))
    (hev : ∀ rc s, (ev rc).sector = some s → S s) :
    (moves S).Keeps (callLinkAs op ev : M ρ Int) :=
  keeps_env fun e => keeps_get fun _ => keeps_bind (moves_ask _)
    fun _ => keeps_bind (moves_afterLink hwire e op _) fun _ =>
      .yields (moves_emit (hcalm _) (hev _))

theorem moves_callLink (hwire : S .wire) :
    (moves S).Keeps (callLink op : M ρ Int) := by
  refine moves_callLinkAs op hwire (fun _ _ => trivial) fun rc s hs => ?_
  cases hs
  exact hwire

theorem moves_linkEpollCtl (op : EpollOp) (fd : Int) (interest : Interest)
    (hwire : S .wire) : (moves S).Keeps (linkEpollCtl op fd interest : M ρ Int) := by
  refine keeps_bind (moves_ask _) fun room => keeps_get fun b => keeps_bind
    (moves_modify .wire hwire (fun b => ?_) fun b t ht => ?_) fun _ =>
      .yields (moves_of_plain (plain_emit (fun _ => trivial) rfl))
  · split
    · rfl
    · rfl
  · cases t with
    | wire => exact absurd rfl ht
    | _ =>
      split
      · rfl
      · rfl

end Primitives

end Smolmux.Broker
