import Smolmux.Links.LinkQueue
import Smolmux.Telnet

/-! A serial port behind a telnet server (`serial_tcp.c`). Data is escaped on its way out and
goes through the queue of the link, as the commands of RFC 2217 do; an answer to a negotiation
is handed to the socket at once, past the queue. On the way in a filter takes the telnet
commands out of the data. -/

namespace Smolmux.Links
open Client Telnet List

def comport : UInt8 := 44

inductive TState where
  | data | iac | opt | sb | sbIac
  deriving DecidableEq

structure SerialTcp where
  wq : LinkWq
  tstate : TState
  toptCmd : UInt8
  rfc2217Active : Bool

def stConnected : SerialTcp := ⟨linkWqInit, .data, 0, false⟩

def telnetRefuse (cmd option : UInt8) : List Bytes :=
  if cmd = doOption then [[iac, wont, option]]
  else if cmd = will then [[iac, dont, option]]
  else []

def telnetComport (d : SerialTcp) (cmd : UInt8) : SerialTcp × List Bytes :=
  if cmd = doOption then ({ d with rfc2217Active := true }, [[iac, will, comport]])
  else if cmd = dont then ({ d with rfc2217Active := false }, [])
  else (d, [])

/-- One byte of `st_filter_rx`: the data byte it gives, and the answer that is sent for it. -/
def filterByte (d : SerialTcp) (c : UInt8) : SerialTcp × Bytes × List Bytes :=
  match d.tstate with
  | .data => if c = iac then ({ d with tstate := .iac }, [], []) else (d, [c], [])
  | .iac =>
    if c = iac then ({ d with tstate := .data }, [iac], [])
    else if IsNegotiation c then ({ d with toptCmd := c, tstate := .opt }, [], [])
    else if c = sb then ({ d with tstate := .sb }, [], [])
    else ({ d with tstate := .data }, [], [])
  | .opt =>
    if c = comport then
      let r := telnetComport d d.toptCmd
      ({ r.1 with tstate := .data }, [], r.2)
    else ({ d with tstate := .data }, [], telnetRefuse d.toptCmd c)
  | .sb => if c = iac then ({ d with tstate := .sbIac }, [], []) else (d, [], [])
  | .sbIac => ({ d with tstate := if c = se then .data else .sb }, [], [])

def stFilterRx (d : SerialTcp) : Bytes → SerialTcp × Bytes × List Bytes
  | [] => (d, [], [])
  | c :: input =>
    let r := filterByte d c
    let rest := stFilterRx r.1 input
    (rest.1, r.2.1 ++ rest.2.1, r.2.2 ++ rest.2.2)

def filterChunks (d : SerialTcp) : List Bytes → SerialTcp × Bytes
  | [] => (d, [])
  | chunk :: chunks =>
    let r := stFilterRx d chunk
    let rest := filterChunks r.1 chunks
    (rest.1, r.2.1 ++ rest.2)

def stEscape (data : Bytes) : Bytes := if iac ∈ data then escape data else data

theorem stEscape_eq (data : Bytes) : stEscape data = escape data := by
  unfold stEscape
  split_ifs with h
  · rfl
  · exact (escape_of_notMem h).symm

variable (d : SerialTcp)

theorem stFilterRx_append (xs ys : Bytes) :
    stFilterRx d (xs ++ ys) =
      let r := stFilterRx d xs
      let rest := stFilterRx r.1 ys
      (rest.1, r.2.1 ++ rest.2.1, r.2.2 ++ rest.2.2) := by
  induction xs generalizing d with
  | nil => rfl
  | cons c xs ih =>
    rw [cons_append, stFilterRx, ih]
    simp only [stFilterRx, append_assoc]

theorem filterChunks_eq (chunks : List Bytes) :
    filterChunks d chunks =
      ((stFilterRx d chunks.flatten).1, (stFilterRx d chunks.flatten).2.1) := by
  induction chunks generalizing d with
  | nil => rfl
  | cons chunk chunks ih =>
    rw [flatten_cons, stFilterRx_append, filterChunks, ih]

theorem filterByte_length (c : UInt8) : (filterByte d c).2.1.length ≤ 1 := by
  unfold filterByte
  split <;> split_ifs <;> simp

theorem stFilterRx_length (input : Bytes) :
    (stFilterRx d input).2.1.length ≤ input.length := by
  induction input generalizing d with
  | nil => exact Nat.le_refl 0
  | cons c input ih =>
    have hone := filterByte_length d c
    have hrest := ih (filterByte d c).1
    rw [stFilterRx, length_append, length_cons]
    omega

/-- Some bytes take the parser from between two elements to between two elements, and give
`out`. -/
def Passes (input out : Bytes) : Prop :=
  ∀ d : SerialTcp, d.tstate = .data →
    (stFilterRx d input).1.tstate = .data ∧ (stFilterRx d input).2.1 = out

theorem Passes.append {xs ys out more : Bytes} (h : Passes xs out) (h' : Passes ys more) :
    Passes (xs ++ ys) (out ++ more) := by
  intro d hd
  obtain ⟨hstate, hout⟩ := h d hd
  obtain ⟨hend, hmore⟩ := h' _ hstate
  rw [stFilterRx_append]
  exact ⟨hend, congrArg₂ (· ++ ·) hout hmore⟩

theorem filter_sub (payload : Bytes) {d : SerialTcp} (hd : d.tstate = .sb) :
    (stFilterRx d (escape payload ++ [iac, se])).1.tstate = .data ∧
      (stFilterRx d (escape payload ++ [iac, se])).2.1 = [] := by
  induction payload generalizing d with
  | nil => simp [escape, stFilterRx, filterByte, hd]
  | cons c payload ih =>
    rw [escape_cons, append_assoc]
    by_cases hc : c = iac
    · subst hc
      have hnext : { d with tstate := .sb } = d := by rw [← hd]
      have hpair : stFilterRx d (escape [iac]) = (d, [], []) := by
        simp [escape, stFilterRx, filterByte, hd, show iac ≠ se by decide, hnext]
      rw [stFilterRx_append, hpair]
      exact ih hd
    · have hone : stFilterRx d (escape [c]) = (d, [], []) := by
        simp [escape, hc, stFilterRx, filterByte, hd]
      rw [stFilterRx_append, hone]
      exact ih hd

theorem passes_element (e : Element) : Passes e.bytes (payload [e]) := by
  intro d hd
  cases e with
  | byte c =>
    by_cases hc : c = iac <;> simp [Element.bytes, escape, hc, stFilterRx, filterByte, hd, payload]
  | negotiation cmd option h =>
    have hiac : cmd ≠ iac := by
      rintro rfl
      exact absurd h (by decide)
    simp only [Element.bytes, stFilterRx, filterByte, hd, if_true, if_neg hiac, if_pos h]
    split_ifs <;> simp [payload]
  | sub bytes =>
    have hopen : ∀ rest, stFilterRx d (iac :: sb :: rest) =
        stFilterRx { d with tstate := .sb } rest := by
      intro rest
      simp [stFilterRx, filterByte, hd, show sb ≠ iac by decide, show ¬ IsNegotiation sb by decide]
    rw [Element.bytes, hopen]
    exact filter_sub bytes rfl
  | command c h => simp [Element.bytes, stFilterRx, filterByte, hd, h, payload]

theorem passes_stream (es : List Element) : Passes (stream es) (payload es) := by
  induction es with
  | nil => exact fun d hd => ⟨hd, rfl⟩
  | cons e es ih =>
    have hpass := (passes_element e).append ih
    rwa [← payload_append] at hpass

/-- However a well-formed stream is cut into chunks, the filter gives its data bytes, and it
gives back what has been escaped. -/
theorem filter_gives_data (chunks : List Bytes) :
    (∀ es, chunks.flatten = stream es → (filterChunks stConnected chunks).2 = payload es) ∧
    (∀ data, chunks.flatten = stEscape data → (filterChunks stConnected chunks).2 = data) ∧
    ∀ (d : SerialTcp) (input : Bytes), (stFilterRx d input).2.1.length ≤ input.length := by
  have hall : ∀ es, chunks.flatten = stream es →
      (filterChunks stConnected chunks).2 = payload es := by
    intro es h
    rw [filterChunks_eq, h]
    exact (passes_stream es stConnected rfl).2
  refine ⟨hall, fun data h => ?_, stFilterRx_length⟩
  rw [stEscape_eq, ← stream_byte] at h
  rw [hall _ h, payload_byte]

inductive CpcCmd where
  | baudrate | datasize | parity | stopsize | control

def CpcCmd.code : CpcCmd → UInt8
  | .baudrate => 1
  | .datasize => 2
  | .parity => 3
  | .stopsize => 4
  | .control => 5

abbrev Sending := SerialTcp × Int × Bytes

def rawSend (mem : WqMem) (results : List WriteResult) (d : SerialTcp) (data : Bytes) : Sending :=
  let r := linkWqWrite mem results d.wq data
  ({ d with wq := r.1 }, r.2.1, r.2.2)

def stWrite (room : Bool) (mem : WqMem) (results : List WriteResult) (d : SerialTcp)
    (data : Bytes) : Sending :=
  if iac ∈ data ∧ room = false then (d, -1, []) else rawSend mem results d (stEscape data)

def comportSend (mem : WqMem) (results : List WriteResult) (d : SerialTcp) (cmd : CpcCmd)
    (value : Bytes) : Sending :=
  if d.rfc2217Active = false then (d, -1, [])
  else rawSend mem results d ([iac, sb, comport, cmd.code] ++ escape value ++ [iac, se])

def sentOf : List Bytes → List Nat → Bytes
  | [], _ => []
  | reply :: replies, takes => reply.take (takes.headD 0) ++ sentOf replies takes.tail

inductive TcpStep where
  | write (data : Bytes) (room : Bool) (mem : WqMem) (results : List WriteResult)
  | param (cmd : CpcCmd) (value : Bytes) (mem : WqMem) (results : List WriteResult)
  | receive (input : Bytes) (takes : List Nat)
  | flush (results : List WriteResult)

/-- A link with the payloads that were accepted and the bytes delivered to the server. -/
structure TcpSession where
  link : SerialTcp
  accepted : Bytes
  delivered : Bytes

def tcpStart : TcpSession := ⟨stConnected, [], []⟩

def TcpSession.step (s : TcpSession) : TcpStep → Option TcpSession
  | .write data room mem results =>
    let r := stWrite room mem results s.link data
    some ⟨r.1, s.accepted ++ (if r.2.1 = 0 then data else []), s.delivered ++ r.2.2⟩
  | .param cmd value mem results =>
    let r := comportSend mem results s.link cmd value
    some ⟨r.1, s.accepted, s.delivered ++ r.2.2⟩
  | .receive input takes =>
    let r := stFilterRx s.link input
    some ⟨r.1, s.accepted, s.delivered ++ sentOf r.2.2 takes⟩
  | .flush results =>
    (linkWqFlush results s.link.wq).map fun r =>
      ⟨{ s.link with wq := r.1 }, s.accepted, s.delivered ++ r.2.2⟩

def TcpSession.run (s : TcpSession) (steps : List TcpStep) : Option TcpSession :=
  steps.foldlM step s

def wholeReplies : List Bytes → List Nat → Bool
  | [], _ => true
  | reply :: replies, takes =>
    (takes.headD 0 == 0 || decide (reply.length ≤ takes.headD 0)) && wholeReplies replies takes.tail

/-- A call that fails has handed nothing to the socket, and an answer is sent past an empty
queue, whole or not at all. -/
def TcpSession.ok (s : TcpSession) : TcpStep → Bool
  | .write data room mem results =>
    let r := stWrite room mem results s.link data
    r.2.1 == 0 || r.2.2.isEmpty
  | .param cmd value mem results =>
    let r := comportSend mem results s.link cmd value
    r.2.1 == 0 || r.2.2.isEmpty
  | .receive input takes =>
    let r := stFilterRx s.link input
    r.2.2.isEmpty || (!linkWqHasPending s.link.wq && wholeReplies r.2.2 takes)
  | .flush _ => true

def TcpSession.runOk (s : TcpSession) : List TcpStep → Bool
  | [] => true
  | step :: steps => s.ok step && (s.step step).all (·.runOk steps)

/-- What is delivered and what waits is a stream of whole elements, and its data bytes are the
payloads accepted. -/
structure TcpSession.Sound (s : TcpSession) : Prop where
  good : s.link.wq.Good
  whole : ∃ es, s.delivered ++ s.link.wq.queued = stream es ∧ payload es = s.accepted

section Session

variable {s : TcpSession}

theorem stFilterRx_wq (input : Bytes) : (stFilterRx d input).1.wq = d.wq := by
  induction input generalizing d with
  | nil => rfl
  | cons c input ih =>
    refine (ih _).trans ?_
    unfold filterByte telnetComport
    split <;> split_ifs <;> rfl

theorem reply_element (input : Bytes) {reply : Bytes} (h : reply ∈ (stFilterRx d input).2.2) :
    ∃ cmd option hcmd, reply = (Element.negotiation cmd option hcmd).bytes := by
  induction input generalizing d with
  | nil => cases h
  | cons c input ih =>
    rcases mem_append.mp h with h | h
    · unfold filterByte telnetComport telnetRefuse at h
      split at h <;> split_ifs at h <;> simp only [not_mem_nil, mem_singleton] at h <;>
        exact ⟨_, _, by decide, h⟩
    · exact ih _ h

theorem sentOf_stream {replies : List Bytes} {takes : List Nat}
    (h : wholeReplies replies takes) (hreplies : ∀ reply ∈ replies, ∃ cmd option hcmd,
      reply = (Element.negotiation cmd option hcmd).bytes) :
    ∃ es, sentOf replies takes = stream es ∧ payload es = [] := by
  induction replies generalizing takes with
  | nil => exact ⟨[], rfl, rfl⟩
  | cons reply replies ih =>
    rw [wholeReplies, Bool.and_eq_true, Bool.or_eq_true, beq_iff_eq, decide_eq_true_eq] at h
    rw [forall_mem_cons] at hreplies
    obtain ⟨es, hsent, hpayload⟩ := ih h.2 hreplies.2
    obtain ⟨cmd, option, hcmd, rfl⟩ := hreplies.1
    rw [sentOf, hsent]
    rcases h.1 with hnone | hall
    · exact ⟨es, by rw [hnone]; rfl, hpayload⟩
    · exact ⟨.negotiation cmd option hcmd :: es, by rw [take_of_length_le hall]; rfl, hpayload⟩

theorem TcpSession.Sound.send (h : s.Sound) (mem : WqMem) (results : List WriteResult)
    (fs : List Element) {r : Sending}
    (hr : r = (s.link, -1, []) ∨ r = rawSend mem results s.link (stream fs))
    (hok : (r.2.1 == 0 || r.2.2.isEmpty)) :
    (⟨r.1, s.accepted ++ (if r.2.1 = 0 then payload fs else []), s.delivered ++ r.2.2⟩ :
      TcpSession).Sound := by
  obtain ⟨es, hes, hpayload⟩ := h.whole
  rcases hr with rfl | rfl
  · refine ⟨h.good, es, ?_, ?_⟩
    · rw [append_nil, hes]
    · rw [if_neg (show (-1 : Int) ≠ 0 by decide), append_nil, hpayload]
  · obtain ⟨hgood, part, hpart, hdone, hsame⟩ :=
      write_contributes (s := ⟨s.link.wq, [], []⟩) h.good (stream fs) results mem
    obtain ⟨w, hw⟩ : ∃ w, linkWqWrite mem results s.link.wq (stream fs) = w := ⟨_, rfl⟩
    simp only [rawSend, hw] at hgood hpart hdone hsame hok ⊢
    by_cases hrc : w.2.1 = 0
    · refine ⟨hgood, es ++ fs, ?_, by rw [payload_append, hpayload, if_pos hrc]⟩
      rw [append_assoc, hdone, hpart.2 hrc, ← append_assoc, hes, stream_append]
    · -- nothing was handed over, and the queue is as it was
      have hnone : w.2.2 = [] := by simpa [hrc] using hok
      refine ⟨hgood, es, ?_, by rw [if_neg hrc, append_nil, hpayload]⟩
      rw [hnone, append_nil, hsame hrc, hes]

theorem comport_frame (cmd : CpcCmd) (value : Bytes) :
    [iac, sb, comport, cmd.code] ++ escape value ++ [iac, se] =
      stream [.sub ([comport, cmd.code] ++ value)] := by
  have hplain : escape ([comport, cmd.code] ++ value) = [comport, cmd.code] ++ escape value := by
    cases cmd <;> rfl
  rw [stream, flatMap_singleton, Element.bytes, hplain]
  simp

theorem TcpSession.Sound.step (h : s.Sound) {step : TcpStep} (hok : s.ok step) :
    ∃ s', s.step step = some s' ∧ s'.Sound := by
  obtain ⟨es, hes, hpayload⟩ := h.whole
  cases step with
  | write data room mem results =>
    have hsound := h.send mem results (data.map .byte)
      (r := stWrite room mem results s.link data) (by
        unfold stWrite
        rw [stEscape_eq, ← stream_byte]
        split_ifs
        · exact .inl rfl
        · exact .inr rfl) hok
    rw [payload_byte] at hsound
    exact ⟨_, rfl, hsound⟩
  | param cmd value mem results =>
    have hsound := h.send mem results [.sub ([comport, cmd.code] ++ value)]
      (r := comportSend mem results s.link cmd value) (by
        unfold comportSend
        rw [comport_frame]
        split_ifs
        · exact .inl rfl
        · exact .inr rfl) hok
    refine ⟨_, rfl, ?_⟩
    simpa [payload] using hsound
  | receive input takes =>
    rw [TcpSession.ok, Bool.or_eq_true, List.isEmpty_iff] at hok
    refine ⟨_, rfl, by rw [stFilterRx_wq]; exact h.good, ?_⟩
    dsimp only
    rw [stFilterRx_wq]
    rcases hok with hnone | hquiet
    · exact ⟨es, by rw [hnone, sentOf, append_nil, hes], hpayload⟩
    · -- nothing is queued, so the answer comes behind whole elements
      rw [Bool.and_eq_true, Bool.not_eq_true'] at hquiet
      have hempty : s.link.wq.count = 0 := by simpa [linkWqHasPending] using hquiet.1
      obtain ⟨fs, hfs, hsilent⟩ := sentOf_stream hquiet.2 fun _ => reply_element s.link input
      rw [LinkWq.Good.queued_nil hempty, append_nil] at hes ⊢
      exact ⟨es ++ fs, by rw [hes, hfs, stream_append], by
        rw [payload_append, hpayload, hsilent, append_nil]⟩
  | flush results =>
    obtain ⟨r, hr, hgood, hdone⟩ := h.good.flush results
    refine ⟨⟨{ s.link with wq := r.1 }, s.accepted, s.delivered ++ r.2.2⟩, ?_, hgood, es, ?_,
      hpayload⟩
    · rw [TcpSession.step, hr]
      rfl
    dsimp only
    rw [append_assoc, hdone, hes]

theorem TcpSession.Sound.run (h : s.Sound) {steps : List TcpStep} (hok : s.runOk steps) :
    ∃ s', s.run steps = some s' ∧ s'.Sound := by
  induction steps generalizing s with
  | nil => exact ⟨s, rfl, h⟩
  | cons step steps ih =>
    rw [TcpSession.runOk, Bool.and_eq_true] at hok
    obtain ⟨s', hs', hsound⟩ := h.step hok.1
    rw [hs', Option.all_some] at hok
    obtain ⟨t, ht, hend⟩ := ih hsound hok.2
    refine ⟨t, ?_, hend⟩
    rw [TcpSession.run, foldlM_cons, hs']
    exact ht

theorem sound_tcpStart : tcpStart.Sound := ⟨sound_start.good, [], rfl, rfl⟩

end Session

/-- The bytes delivered to the server are whole telnet elements as soon as nothing is queued,
and with what is queued at any time; their data bytes are the payloads accepted, in order. -/
theorem telnet_stream_whole (steps : List TcpStep) (hok : tcpStart.runOk steps = true) :
    ∃ s, tcpStart.run steps = some s ∧ ∃ es, s.delivered ++ s.link.wq.queued = stream es ∧
      payload es = s.accepted := by
  obtain ⟨s, hs, hsound⟩ := sound_tcpStart.run hok
  exact ⟨s, hs, hsound.whole⟩

theorem telnet_stream_whole_flushed :
    let steps : List TcpStep := [.write [iac] true ⟨true, true⟩ [.wrote 1], .flush [.wrote 1],
      .receive [iac, doOption, 1] [3]]
    (tcpStart.run steps).any (fun s => s.delivered == [iac, iac, iac, wont, 1]) = true ∧
      ∃ s, tcpStart.run steps = some s ∧ ∃ es, s.delivered ++ s.link.wq.queued = stream es ∧
        payload es = s.accepted :=
  ⟨by decide +kernel, telnet_stream_whole _ (by decide +kernel)⟩

/-- The server asks for an option while the second half of an escaped byte is queued: the
answer goes between the two. -/
theorem answer_splits_escaped_byte :
    ∃ s, tcpStart.run [.write [iac] true ⟨true, true⟩ [.wrote 1],
        .receive [iac, doOption, 1] [3], .flush [.wrote 1]] = some s ∧
      s.accepted = [iac] ∧ s.link.wq.queued = [] ∧ s.delivered = [iac, iac, wont, 1, iac] ∧
      ∀ es, s.delivered ≠ stream es := by
  refine ⟨_, rfl, by decide +kernel, by decide +kernel, by decide +kernel, fun es hes => ?_⟩
  have hend := (passes_stream es stConnected rfl).1
  rw [← hes] at hend
  exact absurd hend (by decide +kernel)

end Smolmux.Links
