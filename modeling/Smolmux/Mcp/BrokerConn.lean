import Smolmux.Anomaly
import Smolmux.Framing
import Smolmux.JsonText

/-! The connection of the standalone MCP servers to the broker (`mcp_broker_conn.c`). A
connection is seen with the bytes that have arrived for it and are not read yet, and it
keeps the lines that it has handled. What `poll` and `read` answer comes from outside. -/

namespace Smolmux.Mcp
open Protocol Framing List

def readBufMax : Nat := 1024 * 1024

/-- An unfinished line of this length fills the largest buffer and is dropped. -/
def lineLimit : Nat := readBufMax - 1

structure Hooks (σ : Type*) where
  output : σ → Bytes → σ
  event : σ → MsgType → Json → σ

/-- What the kernel answers to a `read`: so many bytes and one, the end of the stream once
all of it is read, or an error. -/
inductive Pull
  | data (n : Nat)
  | eof
  | failed

def pulled (avail : Nat) (unread : Bytes) : Pull → Option Bytes
  | .data n => some (unread.take (min (n + 1) avail))
  | .eof => if unread = [] then none else some []
  | .failed => some []

/-- A descriptor that `poll` reports: what has arrived meanwhile, the flags, and what the
read and the allocation of the read buffer would answer. -/
structure Ready where
  arrived : Bytes
  readable : Bool
  hangup : Bool
  pull : Pull
  mem : Bool

inductive Poll
  | timeout
  | failed
  | interrupted (signal : Bool)
  | ready (event : Ready)

structure Handled where
  awaited : Option Bytes
  line : Bytes

structure BrokerConn (σ : Type*) where
  running : Bool
  buf : Bytes
  cap : Nat
  nextSeq : Nat
  user : σ
  unread : Bytes
  received : Bytes
  handled : List Handled
  answers : List Json
  signalled : Bool

section Definitions
variable {σ : Type*} (codec : Codec) (hooks : Hooks σ)

def brokerConnInit (cap : Nat) (user : σ) : BrokerConn σ :=
  ⟨true, [], cap, 0, user, [], [], [], [], false⟩

def BrokerConn.wireId (c : BrokerConn σ) : Bytes := ascii "mcp-" ++ Anomaly.hexPadded 8 c.nextSeq

def genWireId (c : BrokerConn σ) : BrokerConn σ × Bytes :=
  ({ c with nextSeq := (c.nextSeq + 1) % 2 ^ 32 }, stored 64 c.wireId)

def isLinkEvent : MsgType → Bool
  | .linkDown | .linkUp | .suspended | .resumed => true
  | _ => false

def hear (user : σ) (line : Bytes) : σ :=
  let msg := msgDecode codec line
  match msg.root with
  | none => user
  | some root =>
    if msg.type = .output then
      match (root.getString "data").bind Base64.base64Decode with
      | some data => hooks.output user data
      | none => user
    else if isLinkEvent msg.type then hooks.event user msg.type root
    else user

/-- The message of a line that is waited for. Without an id the reply to the hello is. -/
def answer (awaited : Option Bytes) (line : Bytes) : Option Json :=
  let msg := msgDecode codec line
  match msg.root with
  | none => none
  | some root =>
    if msg.type = .output then none
    else
      match awaited with
      | some id => if root.getString "id" = some id then some root else none
      | none => if msg.type = .welcome ∨ msg.type = .error then some root else none

def scanBuffer (awaited : Option Bytes) (c : BrokerConn σ) : BrokerConn σ × Option Json :=
  let r := scanUntil newline (fun line => (answer codec awaited line).isSome) [] c.buf
  let result := if r.2.1 then r.1.getLast?.bind (answer codec awaited) else none
  ({ c with
      buf := r.2.2
      user := r.1.foldl (hear codec hooks) c.user
      handled := c.handled ++ r.1.map (Handled.mk awaited)
      answers := c.answers ++ result.toList }, result)

inductive Room
  | full
  | noMemory
  | upTo (cap : Nat)
  deriving DecidableEq

def makeRoom (mem : Bool) (c : BrokerConn σ) : Room :=
  if c.buf.length < c.cap - 1 then .upTo c.cap
  else
    let newCap := min (c.cap * 2) readBufMax
    if newCap ≤ c.cap then .full
    else if mem then .upTo newCap
    else .noMemory

def BrokerConn.took (c : BrokerConn σ) (cap : Nat) (data : Bytes) : BrokerConn σ :=
  { c with
    cap := cap
    buf := c.buf ++ data
    unread := c.unread.drop data.length
    received := c.received ++ data }

def brokerConnRead (awaited : Option Bytes) (mem : Bool) (pull : Pull) (c : BrokerConn σ) :
    BrokerConn σ × Option Json :=
  match makeRoom mem c with
  -- an oversized line is dropped rather than waited for
  | .full => ({ c with buf := [] }, none)
  | .noMemory => (c, none)
  | .upTo cap =>
    match pulled (cap - c.buf.length - 1) c.unread pull with
    | none => ({ c with cap := cap, running := false }, none)
    | some [] => ({ c with cap := cap }, none)
    | some data => scanBuffer codec hooks awaited (c.took cap data)

def BrokerConn.arrive (c : BrokerConn σ) (bytes : Bytes) : BrokerConn σ :=
  { c with unread := c.unread ++ bytes }

def meet (awaited : Option Bytes) (e : Ready) (c : BrokerConn σ) : BrokerConn σ × Option Json :=
  if e.readable then brokerConnRead codec hooks awaited e.mem e.pull (c.arrive e.arrived)
  else (c.arrive e.arrived, none)

def interrupt (signal : Bool) (c : BrokerConn σ) : BrokerConn σ :=
  if signal then { c with running := false, signalled := true } else c

/-- The polls are those up to the deadline, which is over when the list ends. -/
def brokerConnWait (awaited : Option Bytes) : List Poll → BrokerConn σ → BrokerConn σ × Option Json
  | [], c => (c, none)
  | poll :: polls, c =>
    if c.running = false then (c, none)
    else
      match poll with
      | .timeout | .failed => (c, none)
      | .interrupted signal => brokerConnWait awaited polls (interrupt signal c)
      | .ready e =>
        let r := meet codec hooks awaited e c
        if r.2.isSome then r
        else if e.hangup then ({ r.1 with running := false }, none)
        else brokerConnWait awaited polls r.1

def brokerConnPump (poll : Poll) (c : BrokerConn σ) : BrokerConn σ × Int :=
  match poll with
  | .timeout => (c, 0)
  | .failed => (c, -1)
  | .interrupted signal => (interrupt signal c, 0)
  | .ready e =>
    let r := (meet codec hooks none e c).1
    if e.readable then (r, if r.running then 1 else -1)
    else if e.hangup then ({ r with running := false }, -1)
    else (r, 0)

/-- Uses of a connection: the waits and pumps of a tool, and the read of the main loop
when the descriptor is readable. -/
inductive ConnOp
  | wait (awaited : Option Bytes) (polls : List Poll)
  | pump (poll : Poll)
  | read (event : Ready)

def BrokerConn.step (c : BrokerConn σ) (op : ConnOp) : BrokerConn σ :=
  if c.running = false then c
  else
    match op with
    | .wait awaited polls => (brokerConnWait codec hooks awaited polls c).1
    | .pump poll => (brokerConnPump codec hooks poll c).1
    | .read e => (meet codec hooks none e c).1

def BrokerConn.run (c : BrokerConn σ) (ops : List ConnOp) : BrokerConn σ :=
  ops.foldl (BrokerConn.step codec hooks) c

end Definitions

def linesOf (stream : Bytes) : List Bytes := (limited newline lineLimit [] stream).1

structure Fits (length cap : Nat) : Prop where
  capPos : 0 < cap
  capMax : cap ≤ readBufMax
  fits : length < cap

def BrokerConn.Sized {σ : Type*} (c : BrokerConn σ) : Prop := Fits c.buf.length c.cap

/-- The lines handled and those in the buffer are the lines of what was received, and the
answers are those of the handled lines. -/
structure BrokerConn.Sound {σ : Type*} (codec : Codec) (c : BrokerConn σ) : Prop where
  lines : c.handled.map (·.line) ++ linesOf c.buf = linesOf c.received
  rest : settled lineLimit (limited newline lineLimit [] c.buf).2 =
    settled lineLimit (limited newline lineLimit [] c.received).2
  answered : c.answers = c.handled.filterMap fun h => answer codec h.awaited h.line
  capPos : 0 < c.cap
  capMax : c.cap ≤ readBufMax
  fits : c.buf.length < c.cap

variable {awaited : Option Bytes} {stream : Bytes} {mem : Bool} {pull : Pull}

section Sound
variable {σ : Type*} {codec : Codec} {hooks : Hooks σ} {c : BrokerConn σ}

theorem BrokerConn.Sound.sized (h : c.Sound codec) : c.Sized := ⟨h.capPos, h.capMax, h.fits⟩

theorem sound_init {cap : Nat} {user : σ} (hpos : 0 < cap) (hmax : cap ≤ readBufMax) :
    (brokerConnInit cap user).Sound codec :=
  ⟨rfl, rfl, rfl, hpos, hmax, hpos⟩

theorem no_answers {lines : List Bytes}
    (h : ∀ line ∈ lines, (answer codec awaited line).isSome = false) :
    lines.filterMap (answer codec awaited) = [] := by
  rw [filterMap_eq_nil_iff]
  intro line hline
  simpa using h line hline

theorem scan_answers {r : List Bytes × Bool × Bytes}
    (h : Scanned newline (fun line => (answer codec awaited line).isSome) stream r) :
    (if r.2.1 then r.1.getLast?.bind (answer codec awaited) else none).toList =
      r.1.filterMap (answer codec awaited) := by
  cases hstop : r.2.1 with
  | false =>
    rw [no_answers (h.through hstop).2]
    rfl
  | true =>
    obtain ⟨init, last, hinit, hlast, hgo⟩ := h.stopped hstop
    obtain ⟨root, hroot⟩ := Option.isSome_iff_exists.mp hlast
    rw [hinit, filterMap_append, no_answers hgo]
    simp [hroot]

theorem framed_length_le {frames : List Bytes} {rest : Bytes}
    (h : stream = framed newline frames ++ rest) : rest.length ≤ stream.length := by
  rw [h, length_append]
  omega

theorem lines_scanned (codec : Codec) (awaited : Option Bytes) (stream : Bytes) :
    Scanned newline (fun line => (answer codec awaited line).isSome) stream
      (scanUntil newline (fun line => (answer codec awaited line).isSome) [] stream) :=
  scanUntil_spec [] stream not_mem_nil

theorem scan_buf_length (awaited : Option Bytes) (c : BrokerConn σ) :
    (scanBuffer codec hooks awaited c).1.buf.length ≤ c.buf.length := by
  have hsplit := congrArg List.length (lines_scanned codec awaited c.buf).split
  rw [length_append] at hsplit
  exact hsplit ▸ Nat.le_add_left _ _

theorem BrokerConn.Sound.scan (h : c.Sound codec) (awaited : Option Bytes) :
    (scanBuffer codec hooks awaited c).1.Sound codec := by
  have hscan := lines_scanned codec awaited c.buf
  have hlimit : c.buf.length ≤ lineLimit := by
    have := h.fits
    have := h.capMax
    unfold lineLimit
    omega
  generalize hr : scanUntil newline (fun line => (answer codec awaited line).isSome) [] c.buf =
    r at hscan
  have hread : limited newline lineLimit [] c.buf = (r.1 ++ (limited newline lineLimit [] r.2.2).1,
      (limited newline lineLimit [] r.2.2).2) := by
    rw [hscan.split, length_append] at hlimit
    rw [hscan.split]
    refine limited_framed hscan.frames (fun f hf => ?_) r.2.2
    have := length_lt_framed newline hf
    omega
  have hlines := h.lines
  have hrest := h.rest
  rw [linesOf, hread] at hlines
  rw [hread] at hrest
  refine ⟨?_, ?_, ?_, h.capPos, h.capMax, ?_⟩
  · simp only [scanBuffer, hr, map_append, map_map]
    rw [← hlines, append_assoc]
    simp [linesOf, Function.comp_def]
  · simpa only [scanBuffer, hr] using hrest
  · simp only [scanBuffer, hr, filterMap_append, filterMap_map]
    rw [scan_answers hscan, h.answered]
    rfl
  · simp only [scanBuffer, hr]
    exact lt_of_le_of_lt (framed_length_le hscan.split) h.fits

theorem BrokerConn.Sound.took (h : c.Sound codec) {cap : Nat} {data : Bytes}
    (hmax : cap ≤ readBufMax) (hfits : (c.buf ++ data).length < cap) :
    (c.took cap data).Sound codec := by
  have hgoes : (limited newline lineLimit (limited newline lineLimit [] c.buf).2 data).1 = _ ∧ _ :=
    limited_settled h.rest data
  refine ⟨?_, ?_, h.answered, Nat.zero_lt_of_lt hfits, hmax, hfits⟩
  · have hlines := h.lines
    unfold linesOf at hlines ⊢
    dsimp only [BrokerConn.took]
    rw [limited_append, limited_append, ← hlines, ← hgoes.1, append_assoc]
  · dsimp only [BrokerConn.took]
    rw [limited_append, limited_append]
    exact hgoes.2

theorem BrokerConn.Sound.resize (h : c.Sound codec) {cap : Nat} (running : Bool)
    (hfits : Fits c.buf.length cap) :
    BrokerConn.Sound codec { c with cap := cap, running := running } :=
  ⟨h.lines, h.rest, h.answered, hfits.capPos, hfits.capMax, hfits.fits⟩

theorem full_length (h : c.Sized) (hfull : makeRoom mem c = .full) :
    c.buf.length = lineLimit := by
  have hpos := h.capPos
  have hmax := h.capMax
  have hfits := h.fits
  simp only [makeRoom] at hfull
  unfold lineLimit
  split_ifs at hfull with hroom hcap
  omega

theorem upTo_cap (h : c.Sized) {cap : Nat} (hcap : makeRoom mem c = .upTo cap) : c.buf.length + 1 < cap ∧ cap ≤ readBufMax := by
  have hmax := h.capMax
  have hfits := h.fits
  simp only [makeRoom] at hcap
  split_ifs at hcap with hroom hnew
  · injection hcap with hcap
    omega
  · injection hcap with hcap
    omega

theorem upTo_fits (h : c.Sized) {cap : Nat} (hcap : makeRoom mem c = .upTo cap) :
    Fits c.buf.length cap := by
  obtain ⟨hlength, hmax⟩ := upTo_cap h hcap
  exact ⟨by omega, hmax, by omega⟩

theorem pulled_length {avail : Nat} {unread data : Bytes}
    (h : pulled avail unread pull = some data) : data.length ≤ avail := by
  cases pull with
  | data n =>
    rw [← Option.some.inj h, length_take]
    omega
  | eof =>
    simp only [pulled] at h
    split_ifs at h
    rw [← Option.some.inj h]
    exact Nat.zero_le _
  | failed =>
    rw [← Option.some.inj h]
    exact Nat.zero_le _

theorem pulled_eof {avail : Nat} {unread : Bytes} (h : pulled avail unread pull = none) : pull = .eof ∧ unread = [] := by
  cases pull with
  | data n => cases h
  | failed => cases h
  | eof =>
    simp only [pulled] at h
    split_ifs at h with hunread
    exact ⟨rfl, hunread⟩

/-- What a read can do: the buffer is full and dropped, nothing is read, the stream has ended,
or bytes are read and scanned. -/
@[elab_as_elim]
theorem read_cases {motive : BrokerConn σ × Option Json → Prop} {c : BrokerConn σ}
    (full : makeRoom mem c = .full → motive ({ c with buf := [] }, none))
    (nothing : ∀ cap, cap = c.cap ∨ makeRoom mem c = .upTo cap →
      motive ({ c with cap := cap }, none))
    (eof : ∀ cap, makeRoom mem c = .upTo cap → pull = .eof → c.unread = [] →
      motive ({ c with cap := cap, running := false }, none))
    (data : ∀ cap data, makeRoom mem c = .upTo cap →
      pulled (cap - c.buf.length - 1) c.unread pull = some data →
      motive (scanBuffer codec hooks awaited (c.took cap data))) :
    motive (brokerConnRead codec hooks awaited mem pull c) := by
  unfold brokerConnRead
  cases hroom : makeRoom mem c with
  | full => exact full hroom
  | noMemory => exact nothing c.cap (.inl rfl)
  | upTo cap =>
    dsimp only
    split
    · next hdata => exact eof cap hroom (pulled_eof hdata).1 (pulled_eof hdata).2
    · exact nothing cap (.inr hroom)
    · next hdata => exact data cap _ hroom hdata

theorem took_fits (h : c.Sized) {cap : Nat} {data : Bytes} (hroom : makeRoom mem c = .upTo cap)
    (hdata : pulled (cap - c.buf.length - 1) c.unread pull = some data) :
    cap ≤ readBufMax ∧ (c.buf ++ data).length < cap := by
  obtain ⟨hlength, hmax⟩ := upTo_cap h hroom
  have hshort := pulled_length hdata
  rw [length_append]
  omega

theorem read_sized (awaited : Option Bytes) (mem : Bool) (pull : Pull) (h : c.Sized) :
    (brokerConnRead codec hooks awaited mem pull c).1.Sized := by
  refine read_cases ?full ?nothing ?eof ?data
  case full => exact fun _ => ⟨h.capPos, h.capMax, h.capPos⟩
  case nothing =>
    rintro cap (rfl | hroom)
    · exact h
    · exact upTo_fits h hroom
  case eof => exact fun _ hroom _ _ => upTo_fits h hroom
  case data =>
    intro cap data hroom hdata
    obtain ⟨hmax, hfits⟩ := took_fits h hroom hdata
    exact ⟨Nat.zero_lt_of_lt hfits, hmax, (scan_buf_length awaited _).trans_lt hfits⟩

theorem meet_sized (awaited : Option Bytes) (e : Ready) (h : c.Sized) :
    (meet codec hooks awaited e c).1.Sized := by
  have harrived : (c.arrive e.arrived).Sized := h
  unfold meet
  split_ifs
  · exact read_sized awaited e.mem e.pull harrived
  · exact harrived

theorem BrokerConn.Sound.read_took (h : c.Sound codec) {cap : Nat} {data : Bytes}
    (hroom : makeRoom mem c = .upTo cap)
    (hdata : pulled (cap - c.buf.length - 1) c.unread pull = some data) :
    (c.took cap data).Sound codec :=
  h.took (took_fits h.sized hroom hdata).1 (took_fits h.sized hroom hdata).2

theorem BrokerConn.Sound.read (h : c.Sound codec) (awaited : Option Bytes) (pull : Pull)
    (hkept : makeRoom mem c = .full → newline ∉ c.buf) :
    (brokerConnRead codec hooks awaited mem pull c).1.Sound codec := by
  refine read_cases ?full ?nothing ?eof ?data
  case full =>
    intro hroom
    -- the dropped bytes are the start of a line that a reader with the limit drops too
    have hlength := full_length h.sized hroom
    have hbuf : limited newline lineLimit [] c.buf = ([], c.buf) :=
      limited_short (hkept hroom) hlength.le
    have hlines := h.lines
    have hrest := h.rest
    rw [linesOf, hbuf, append_nil] at hlines
    rw [hbuf] at hrest
    refine ⟨by simpa [linesOf, limited] using hlines, ?_, h.answered, h.capPos, h.capMax,
      h.capPos⟩
    rw [← hrest]
    simp [settled, hlength, limited]
  case nothing =>
    intro cap hcap
    rcases hcap with rfl | hroom
    · exact h
    · exact h.resize c.running (upTo_fits h.sized hroom)
  case eof =>
    intro cap hroom _ _
    exact h.resize false (upTo_fits h.sized hroom)
  case data =>
    intro cap data hroom hdata
    exact (h.read_took hroom hdata).scan awaited

end Sound

section Along
variable {σ : Type*} (codec : Codec) (hooks : Hooks σ)
  (P : Option Bytes → Ready → BrokerConn σ → Prop)

def waitAlong (awaited : Option Bytes) : List Poll → BrokerConn σ → Prop
  | [], _ => True
  | .timeout :: _, _ => True
  | .failed :: _, _ => True
  | .interrupted signal :: polls, c => waitAlong awaited polls (interrupt signal c)
  | .ready e :: polls, c =>
    P awaited e c ∧ waitAlong awaited polls (meet codec hooks awaited e c).1

def stepAlong (c : BrokerConn σ) : ConnOp → Prop
  | .wait awaited polls => waitAlong codec hooks P awaited polls c
  | .pump (.ready e) => P none e c
  | .pump _ => True
  | .read e => P none e c

def runAlong : List ConnOp → BrokerConn σ → Prop
  | [], _ => True
  | op :: ops, c => stepAlong codec hooks P c op ∧ runAlong ops (c.step codec hooks op)

variable {codec hooks P} {I : BrokerConn σ → Prop}

theorem wait_keeps
    (hmeet : ∀ awaited e c, c.running → I c → P awaited e c →
      I (meet codec hooks awaited e c).1)
    (hgone : ∀ awaited e c, c.running → I c → P awaited e c → e.hangup →
      I { (meet codec hooks awaited e c).1 with running := false })
    (hsignal : ∀ signal c, I c → I (interrupt signal c))
    (awaited : Option Bytes) (polls : List Poll) (c : BrokerConn σ) (hc : I c)
    (halong : waitAlong codec hooks P awaited polls c) :
    I (brokerConnWait codec hooks awaited polls c).1 := by
  induction polls generalizing c with
  | nil => exact hc
  | cons poll polls ih =>
    unfold brokerConnWait
    split_ifs with hrunning
    · exact hc
    have hrun : c.running := by simpa using hrunning
    cases poll with
    | timeout => exact hc
    | failed => exact hc
    | interrupted signal => exact ih _ (hsignal signal c hc) halong
    | ready e =>
      obtain ⟨hnow, hlater⟩ := halong
      have hnext := hmeet awaited e c hrun hc hnow
      dsimp only
      split_ifs with hanswer hhangup
      · exact hnext
      · exact hgone awaited e c hrun hc hnow hhangup
      · exact ih _ hnext hlater

theorem run_keeps
    (hmeet : ∀ awaited e c, c.running → I c → P awaited e c →
      I (meet codec hooks awaited e c).1)
    (hgone : ∀ awaited e c, c.running → I c → P awaited e c → e.hangup →
      I { (meet codec hooks awaited e c).1 with running := false })
    (hsignal : ∀ signal c, I c → I (interrupt signal c))
    (ops : List ConnOp) (c : BrokerConn σ) (hc : I c)
    (halong : runAlong codec hooks P ops c) : I (c.run codec hooks ops) := by
  induction ops generalizing c with
  | nil => exact hc
  | cons op ops ih =>
    obtain ⟨hnow, hlater⟩ := halong
    refine ih _ ?_ hlater
    unfold BrokerConn.step
    split_ifs with hrunning
    · exact hc
    have hrun : c.running := by simpa using hrunning
    cases op with
    | wait awaited polls => exact wait_keeps hmeet hgone hsignal awaited polls c hc hnow
    | read e => exact hmeet none e c hrun hc hnow
    | pump poll =>
      cases poll with
      | timeout => exact hc
      | failed => exact hc
      | interrupted signal => exact hsignal signal c hc
      | ready e =>
        have hnext := hmeet none e c hrun hc hnow
        simp only [brokerConnPump]
        split_ifs with hreadable hon hhangup
        · exact hnext
        · exact hnext
        · exact hgone none e c hrun hc hnow hhangup
        · exact hnext

end Along

section Lines
variable {σ : Type*} {codec : Codec} {hooks : Hooks σ} {user : σ} {c : BrokerConn σ}

def Kept (_ : Option Bytes) (e : Ready) (c : BrokerConn σ) : Prop :=
  e.readable = true → makeRoom e.mem c = .full → newline ∉ c.buf

theorem BrokerConn.Sound.arrive (h : c.Sound codec) (bytes : Bytes) :
    (c.arrive bytes).Sound codec :=
  ⟨h.lines, h.rest, h.answered, h.capPos, h.capMax, h.fits⟩

theorem BrokerConn.Sound.gone (h : c.Sound codec) :
    BrokerConn.Sound codec { c with running := false } :=
  ⟨h.lines, h.rest, h.answered, h.capPos, h.capMax, h.fits⟩

theorem BrokerConn.Sound.interrupt (h : c.Sound codec) (signal : Bool) :
    (interrupt signal c).Sound codec := by
  unfold Mcp.interrupt
  split_ifs
  · exact ⟨h.lines, h.rest, h.answered, h.capPos, h.capMax, h.fits⟩
  · exact h

theorem BrokerConn.Sound.meet (h : c.Sound codec) (awaited : Option Bytes) (e : Ready)
    (hkept : Kept awaited e c) : (meet codec hooks awaited e c).1.Sound codec := by
  unfold Mcp.meet
  split_ifs with hreadable
  · exact (h.arrive e.arrived).read awaited e.pull (hkept hreadable)
  · exact h.arrive e.arrived

theorem BrokerConn.Sound.wait (h : c.Sound codec) (awaited : Option Bytes) (polls : List Poll)
    (hkept : waitAlong codec hooks Kept awaited polls c) :
    (brokerConnWait codec hooks awaited polls c).1.Sound codec :=
  wait_keeps (fun awaited e _ _ h hkept => h.meet awaited e hkept)
    (fun awaited e _ _ h hkept _ => (h.meet awaited e hkept).gone)
    (fun signal _ h => h.interrupt signal) awaited polls c h hkept

theorem sound_run (ops : List ConnOp) (h : c.Sound codec)
    (hkept : runAlong codec hooks Kept ops c) : (c.run codec hooks ops).Sound codec :=
  run_keeps (fun awaited e _ _ h hkept => h.meet awaited e hkept)
    (fun awaited e _ _ h hkept _ => (h.meet awaited e hkept).gone)
    (fun signal _ h => h.interrupt signal) ops c h hkept

/-- No complete line stands behind one that answers the wait. -/
def NothingBehind (codec : Codec) (awaited : Option Bytes) (stream : Bytes) : Prop :=
  ∀ before line after, stream = before ++ (line ++ newline :: after) → Whole newline before →
    newline ∉ line → (answer codec awaited line).isSome → newline ∉ after

def BrokerConn.pulls (c : BrokerConn σ) (mem : Bool) (pull : Pull) : Bytes :=
  match makeRoom mem c with
  | .upTo cap => (pulled (cap - c.buf.length - 1) c.unread pull).getD []
  | _ => []

/-- A report with no complete line behind the answer, and with a hang-up only when all
that has arrived is read. -/
structure Fair (codec : Codec) (hooks : Hooks σ) (awaited : Option Bytes) (e : Ready)
    (c : BrokerConn σ) : Prop where
  behind : e.readable = true →
    NothingBehind codec awaited (c.buf ++ (c.arrive e.arrived).pulls e.mem e.pull)
  drained : e.hangup = true → (meet codec hooks awaited e c).1.unread = []

theorem whole_framed (frames : List Bytes) : Whole newline (framed newline frames) := by
  rcases eq_nil_or_concat frames with rfl | ⟨init, last, rfl⟩
  · exact .inl rfl
  · rw [framed, concat_eq_append, flatMap_append]
    simp [Whole]

theorem scan_clear (h : NothingBehind codec awaited c.buf) :
    newline ∉ (scanBuffer codec hooks awaited c).1.buf := by
  have hscan := lines_scanned codec awaited c.buf
  simp only [scanBuffer]
  generalize scanUntil newline (fun line => (answer codec awaited line).isSome) [] c.buf = r
    at hscan
  cases hstop : r.2.1 with
  | false => exact (hscan.through hstop).1
  | true =>
    obtain ⟨init, last, hinit, hlast, -⟩ := hscan.stopped hstop
    refine h (framed newline init) last r.2.2 ?_ (whole_framed init) ?_ hlast
    · rw [hscan.split, hinit]
      simp [framed]
    · exact hscan.frames last (by simp [hinit])

theorem read_clear (hclear : newline ∉ c.buf)
    (hbehind : NothingBehind codec awaited (c.buf ++ c.pulls mem pull)) :
    newline ∉ (brokerConnRead codec hooks awaited mem pull c).1.buf := by
  refine read_cases ?full ?nothing ?eof ?data
  case full =>
    intro _
    exact not_mem_nil
  case nothing =>
    intro _ _
    exact hclear
  case eof =>
    intro _ _ _ _
    exact hclear
  case data =>
    intro cap data hroom hdata
    simp only [BrokerConn.pulls, hroom, hdata, Option.getD_some] at hbehind
    exact scan_clear hbehind

theorem read_running (codec : Codec) (hooks : Hooks σ) (awaited : Option Bytes) (mem : Bool)
    (pull : Pull) (c : BrokerConn σ) :
    let r := (brokerConnRead codec hooks awaited mem pull c).1
    r.running = c.running ∨ pull = .eof ∧ r.unread = [] := by
  refine read_cases ?full ?nothing ?eof ?data
  case full =>
    intro _
    exact .inl rfl
  case nothing =>
    intro _ _
    exact .inl rfl
  case eof =>
    intro _ _ hpull hunread
    exact .inr ⟨hpull, hunread⟩
  case data =>
    intro _ _ _ _
    exact .inl rfl

def BrokerConn.Heard (codec : Codec) (hooks : Hooks σ) (user : σ) (c : BrokerConn σ) : Prop :=
  c.user = (c.handled.map (·.line)).foldl (hear codec hooks) user

theorem BrokerConn.Heard.scan (h : c.Heard codec hooks user) (awaited : Option Bytes) :
    (scanBuffer codec hooks awaited c).1.Heard codec hooks user := by
  unfold BrokerConn.Heard at h ⊢
  simp only [scanBuffer, map_append, foldl_append, map_map]
  rw [← h]
  simp [Function.comp_def]

theorem BrokerConn.Heard.meet (h : c.Heard codec hooks user) (awaited : Option Bytes) (e : Ready) :
    (meet codec hooks awaited e c).1.Heard codec hooks user := by
  unfold Mcp.meet
  split_ifs
  · refine read_cases ?full ?nothing ?eof ?data
    case full =>
      intro _
      exact h
    case nothing =>
      intro _ _
      exact h
    case eof =>
      intro _ _ _ _
      exact h
    case data =>
      intro cap data _ _
      apply BrokerConn.Heard.scan
      exact h
  · exact h

/-- What fair reports keep: no complete line waits, and at the end nothing is unread. -/
structure BrokerConn.Clear (codec : Codec) (hooks : Hooks σ) (user : σ) (c : BrokerConn σ) :
    Prop where
  sound : c.Sound codec
  heard : c.Heard codec hooks user
  clear : newline ∉ c.buf
  drained : c.running = false → c.signalled = true ∨ c.unread = []

theorem BrokerConn.Clear.meet (h : c.Clear codec hooks user) (awaited : Option Bytes) (e : Ready)
    (hfair : Fair codec hooks awaited e c) (hrunning : c.running) :
    (meet codec hooks awaited e c).1.Clear codec hooks user := by
  refine ⟨h.sound.meet awaited e fun _ _ => h.clear, h.heard.meet awaited e, ?_, ?_⟩
  · have hbehind := hfair.behind
    unfold Mcp.meet
    split_ifs with hreadable
    · exact read_clear h.clear (hbehind hreadable)
    · exact h.clear
  · unfold Mcp.meet
    split_ifs with hreadable
    · intro hgone
      rcases read_running codec hooks awaited e.mem e.pull (c.arrive e.arrived) with hsame | hend
      · rw [hsame] at hgone
        exact absurd hgone (by simp [BrokerConn.arrive, hrunning])
      · exact .inr hend.2
    · intro hgone
      exact absurd hgone (by simp [BrokerConn.arrive, hrunning])

theorem BrokerConn.Clear.gone (h : c.Clear codec hooks user) (hunread : c.unread = []) :
    BrokerConn.Clear codec hooks user { c with running := false } :=
  ⟨h.sound.gone, h.heard, h.clear, fun _ => .inr hunread⟩

theorem BrokerConn.Clear.interrupt (h : c.Clear codec hooks user) (signal : Bool) :
    (interrupt signal c).Clear codec hooks user := by
  refine ⟨h.sound.interrupt signal, ?_, ?_, ?_⟩
  · unfold Mcp.interrupt
    split_ifs <;> exact h.heard
  · unfold Mcp.interrupt
    split_ifs <;> exact h.clear
  · unfold Mcp.interrupt
    split_ifs
    · exact fun _ => .inl rfl
    · exact h.drained

theorem clear_run (ops : List ConnOp) (h : c.Clear codec hooks user)
    (hfair : runAlong codec hooks (Fair codec hooks) ops c) :
    (c.run codec hooks ops).Clear codec hooks user :=
  run_keeps (fun awaited e _ hrunning h hfair => h.meet awaited e hfair hrunning)
    (fun awaited e _ hrunning h hfair hhangup =>
      (h.meet awaited e hfair hrunning).gone (hfair.drained hhangup))
    (fun signal _ h => h.interrupt signal) ops c h hfair

def shortLines (stream : Bytes) : List Bytes :=
  (items newline some stream).filter fun line => line.length < lineLimit

theorem shortLines_sublist (stream : Bytes) : (shortLines stream).Sublist (linesOf stream) :=
  short_items_limited stream (.inl rfl)

/-- In every session with fair reports, each line received so far has been handled, in
order; a connection that ends without a signal has handled what arrived for it. A poll
blocks in a state that a session ends in, so this says that no line waits there. -/
theorem received_lines_handled (codec : Codec) (hooks : Hooks σ) (user : σ) (cap : Nat)
    (hpos : 0 < cap) (hmax : cap ≤ readBufMax) (ops : List ConnOp)
    (hfair : runAlong codec hooks (Fair codec hooks) ops (brokerConnInit cap user)) :
    let c := (brokerConnInit cap user).run codec hooks ops
    let lines := c.handled.map (·.line)
    newline ∉ c.buf ∧ lines = linesOf c.received ∧ (shortLines c.received).Sublist lines ∧
      (c.running = false → c.signalled = true ∨ (shortLines (c.received ++ c.unread)).Sublist lines) ∧
      c.user = lines.foldl (hear codec hooks) user ∧
      c.answers = c.handled.filterMap fun h => answer codec h.awaited h.line := by
  have hstart : (brokerConnInit cap user).Clear codec hooks user :=
    ⟨sound_init hpos hmax, rfl, not_mem_nil, nofun⟩
  have hrun := clear_run ops hstart hfair
  have hlines := hrun.sound.lines
  rw [linesOf, limited_of_not_mem hrun.clear, append_nil] at hlines
  refine ⟨hrun.clear, hlines, ?_, ?_, hrun.heard, hrun.sound.answered⟩
  · rw [hlines]
    exact shortLines_sublist _
  · intro hgone
    refine (hrun.drained hgone).imp_right fun hunread => ?_
    rw [hunread, append_nil, hlines]
    exact shortLines_sublist _

def firstAnswer (codec : Codec) (awaited : Option Bytes) (received : Bytes) : Option Json :=
  ((linesOf received).filterMap (answer codec awaited)).head?

theorem firstAnswer_none {received : Bytes} :
    firstAnswer codec awaited received = none ↔
      ∀ line ∈ linesOf received, answer codec awaited line = none := by
  rw [firstAnswer, head?_eq_none_iff, filterMap_eq_nil_iff]

theorem scan_first (hsound : c.Sound codec)
    (hfresh : ∀ h ∈ c.handled, answer codec awaited h.line = none) :
    (scanBuffer codec hooks awaited c).2 = firstAnswer codec awaited c.received := by
  have hscan := lines_scanned codec awaited c.buf
  have hlines : ((scanBuffer codec hooks awaited c).1.handled.map (·.line)) ++
      linesOf (scanBuffer codec hooks awaited c).1.buf = linesOf c.received :=
    (hsound.scan awaited).lines
  have hold : (c.handled.map (·.line)).filterMap (answer codec awaited) = [] := by
    rw [filterMap_map, filterMap_eq_nil_iff]
    exact hfresh
  simp only [scanBuffer, map_append, map_map] at hlines ⊢
  generalize scanUntil newline (fun line => (answer codec awaited line).isSome) [] c.buf = r
    at hscan hlines
  have hanswers := scan_answers hscan
  rw [firstAnswer, ← hlines, filterMap_append, filterMap_append, hold]
  cases hstop : r.2.1 with
  | false =>
    obtain ⟨hclear, hgo⟩ := hscan.through hstop
    simp [linesOf, limited_of_not_mem hclear, Function.comp_def, no_answers hgo]
  | true =>
    obtain ⟨init, last, hinit, hlast, hgo⟩ := hscan.stopped hstop
    obtain ⟨root, hroot⟩ := Option.isSome_iff_exists.mp hlast
    simp [hinit, Function.comp_def, no_answers hgo, hroot]

theorem BrokerConn.Sound.handled_mem (h : c.Sound codec) {x : Handled} (hx : x ∈ c.handled) :
    x.line ∈ linesOf c.received := by
  rw [← h.lines]
  exact mem_append_left _ (mem_map_of_mem hx)

theorem meet_first {e : Ready} (hsound : c.Sound codec)
    (hfresh : firstAnswer codec awaited c.received = none) :
    (meet codec hooks awaited e c).2 =
      firstAnswer codec awaited (meet codec hooks awaited e c).1.received := by
  unfold meet
  split_ifs with hreadable
  rotate_left
  · exact hfresh.symm
  refine read_cases ?full ?nothing ?eof ?data
  case full =>
    intro _
    exact hfresh.symm
  case nothing =>
    intro _ _
    exact hfresh.symm
  case eof =>
    intro _ _ _ _
    exact hfresh.symm
  case data =>
    intro cap data hroom hdata
    exact scan_first ((hsound.arrive e.arrived).read_took hroom hdata) fun x hx =>
      firstAnswer_none.mp hfresh x.line (hsound.handled_mem hx)

theorem wait_first {polls : List Poll} (hsound : c.Sound codec)
    (hkept : waitAlong codec hooks Kept awaited polls c)
    (hfresh : firstAnswer codec awaited c.received = none) :
    (brokerConnWait codec hooks awaited polls c).2 =
      firstAnswer codec awaited (brokerConnWait codec hooks awaited polls c).1.received := by
  induction polls generalizing c with
  | nil => exact hfresh.symm
  | cons poll polls ih =>
    unfold brokerConnWait
    split_ifs with hrunning
    · exact hfresh.symm
    cases poll with
    | timeout => exact hfresh.symm
    | failed => exact hfresh.symm
    | interrupted signal =>
      refine ih (hsound.interrupt signal) hkept ?_
      unfold interrupt
      split_ifs <;> exact hfresh
    | ready e =>
      obtain ⟨hnow, hlater⟩ := hkept
      have hmeet : (meet codec hooks awaited e c).2 =
          firstAnswer codec awaited (meet codec hooks awaited e c).1.received :=
        meet_first hsound hfresh
      dsimp only
      split_ifs with hanswer hhangup
      · exact hmeet
      · have hnone : (meet codec hooks awaited e c).2 = none := by simpa using hanswer
        rw [hmeet] at hnone
        exact hnone.symm
      · refine ih (hsound.meet awaited e hnow) hlater ?_
        rw [← hmeet]
        simpa using hanswer

theorem nothingBehind_of_count (h : stream.count newline ≤ 1) : NothingBehind codec awaited stream := by
  rintro before line after rfl - - -
  rw [count_append, count_append, count_cons_self] at h
  exact count_eq_zero.mp (by omega)

end Lines

def noHooks : Hooks Unit := ⟨fun u _ => u, fun u _ _ => u⟩

def replyLine (id : String) : Bytes :=
  JsonText.textCodec.print (.obj [("type", .str (ascii "expect_result")), ("id", .str (ascii id))])

def arrives (bytes : Bytes) (hangup : Bool) : Ready := ⟨bytes, true, hangup, .data 4096, true⟩

theorem received_lines_handled_hangup :
    let ops := [.wait (some (ascii "a")) [.ready (arrives (replyLine "a" ++ [newline]) true)]]
    let c := (brokerConnInit 8192 ()).run JsonText.textCodec noHooks ops
    c.answers.length = 1 ∧ newline ∉ c.buf ∧ c.handled.map (·.line) = linesOf c.received := by
  have hfair : Fair JsonText.textCodec noHooks (some (ascii "a"))
      (arrives (replyLine "a" ++ [newline]) true) (brokerConnInit 8192 ()) :=
    ⟨fun _ => nothingBehind_of_count (by decide +kernel), fun _ => by decide +kernel⟩
  have hlines := received_lines_handled JsonText.textCodec noHooks () 8192 (by decide) (by decide)
    [.wait (some (ascii "a")) [.ready (arrives (replyLine "a" ++ [newline]) true)]]
    ⟨⟨hfair, trivial⟩, trivial⟩
  exact ⟨by decide +kernel, hlines.1, hlines.2.1⟩

/-- Two replies in one read: the second stays in the buffer while the wait for it sleeps
until its deadline. -/
theorem buffered_reply_unseen :
    let stream := replyLine "a" ++ [newline] ++ (replyLine "b" ++ [newline])
    let c := (brokerConnInit 8192 ()).run JsonText.textCodec noHooks
      [.wait (some (ascii "a")) [.ready (arrives stream false)]]
    let r := brokerConnWait JsonText.textCodec noHooks (some (ascii "b")) [.timeout] c
    c.received = stream ∧ c.running = true ∧ r.2.isNone = true ∧
      (r.1.handled.map (·.line)) = [replyLine "a"] ∧
      (answer JsonText.textCodec (some (ascii "b")) (replyLine "b")).isSome = true := by
  decide +kernel

end Smolmux.Mcp
