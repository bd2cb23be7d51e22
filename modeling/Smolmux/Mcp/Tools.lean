import Smolmux.Autoresponder
import Smolmux.Mcp.BrokerConn

/-! Tools of the standalone MCP server (`mcp_client.c`) that wait for the broker. A tool is
a script: it takes wire ids, sends, waits and allocates. A fault of its memory is an
outcome of its own. -/

namespace Smolmux

inductive Script {Op : Type} (Res : Op → Type) (α : Type) : Type
  | done (value : α)
  | ask (op : Op) (next : Res op → Script Res α)

namespace Script
variable {Op : Type} {Res : Op → Type} {α S : Type}

def run (handle : S → (op : Op) → S × Res op) : Script Res α → S → S × α
  | done value, s => (s, value)
  | ask op next, s => run handle (next (handle s op).2) (handle s op).1

variable {handle : S → (op : Op) → S × Res op}

@[simp] theorem run_done (value : α) (s : S) :
    run handle (done value : Script Res α) s = (s, value) := rfl

@[simp] theorem run_ask (op : Op) (next : Res op → Script Res α) (s : S) :
    run handle (ask op next) s = run handle (next (handle s op).2) (handle s op).1 := rfl

theorem run_keeps {I : S → Prop} (h : ∀ s op, I s → I (handle s op).1) (script : Script Res α)
    {s : S} (hs : I s) : I (run handle script s).1 := by
  induction script generalizing s with
  | done value => exact hs
  | ask op next ih => exact ih _ (h s op hs)

end Script

end Smolmux

namespace Smolmux.Mcp
open Protocol List

inductive ToolOp (σ : Type)
  | genId
  | send (msg : Json)
  | wait (awaited : Option Bytes) (timeoutMs : Int)
  | malloc
  | own (change : σ → σ)

@[reducible] def ToolOp.Res {σ : Type} : ToolOp σ → Type
  | .genId => Bytes
  | .send _ => Bool
  | .wait _ _ => Option Json
  | .malloc => Bool
  | .own _ => σ

abbrev ToolScript (σ α : Type) := Script (@ToolOp.Res σ) α

inductive Fault
  | freedRead
  | outOfBounds
  deriving DecidableEq

abbrev Outcome := Except Fault Bytes

def msgSendExpect (id data pattern : Bytes) (timeoutMs : Int) : Json :=
  ((addB64Data ((makeMsg "send_expect").add "id" (.str id)) "data" data).add "pattern"
    (.str pattern)).add "timeout_ms" (.num timeoutMs)

def msgListenExpect (id pattern : Bytes) (timeoutMs : Int) : Json :=
  (((makeMsg "listen_expect").add "id" (.str id)).add "pattern" (.str pattern)).add "timeout_ms"
    (.num timeoutMs)

def msgPinControl (id pin action : Bytes) (durationMs : Int) : Json :=
  ((((makeMsg "pin_control").add "id" (.str id)).add "pin" (.str pin)).add "action"
    (.str action)).add "duration_ms" (.num durationMs)

section Scripts
variable {σ : Type}

def say (text : String) : ToolScript σ Outcome := .done (.ok (ascii text))

def brokerRequest {α : Type} (msg : Json) (id : Bytes) (timeoutMs : Int)
    (next : Option Json → ToolScript σ α) : ToolScript σ α :=
  .ask (.send msg) fun (sent : Bool) =>
    if sent then .ask (.wait (some id) timeoutMs) next else next none

def isBrokerError (resp : Json) : Bool := resp.getString "type" == some (ascii "error")

def errorText (resp : Json) (dflt : String) : Bytes :=
  stored 512 (ascii "[ERROR] " ++ (resp.getString "message").getD (ascii dflt))

/-- A text in front of decoded data, in `size` allocated bytes; the data goes where the text
ends by its full length, and a NUL behind it. -/
def joined (size : Nat) (front data : Bytes) : Outcome :=
  if front.length + data.length < size then .ok (cString (front ++ data))
  else .error .outOfBounds

def abortFront (name : Bytes) : Bytes := ascii "[ABORTED anomaly:" ++ name ++ ascii "] "

def abortName : Option Bytes → Bytes
  | some (c :: cs) => c :: cs
  | _ => ascii "unknown"

/-- The text of decoded data; `abort_pattern` points into the reply, which is released. -/
def dataText (aborted timedOut : Bool) (abortPattern : Option Bytes) (data : Bytes) : Outcome :=
  if aborted then
    match abortPattern with
    | some _ => .error .freedRead
    | none => joined (data.length + 128) (abortFront (abortName none)) data
  else if timedOut then joined (data.length + 64) (ascii "[TIMEOUT] ") data
  else joined (data.length + 1) [] data

def replyText (noData : Bytes) (timedOut : Bool) (resp : Json) : ToolScript σ Outcome :=
  let aborted := resp.getBool "aborted" false
  let abortPattern := resp.getString "abort_pattern"
  match resp.getString "data" with
  | some (c :: cs) =>
    .ask .malloc fun (decodes : Bool) =>
      match if decodes then Base64.base64Decode (c :: cs) else none with
      | none => say "(no output)"
      | some data =>
        .ask .malloc fun (got : Bool) =>
          if got then .done (dataText aborted timedOut abortPattern data)
          else say "(allocation failed)"
  | _ =>
    if aborted then
      .done (.ok (stored 256 (abortFront (abortName abortPattern) ++ ascii "(no output)")))
    else .done (.ok noData)

/-- What becomes of the broker's answer to an expect; whether it matched decides on the
text for no data and on whether it timed out. -/
def expectAnswer (noData : Bool → Bytes) (timedOut : Bool → Bool) :
    Option Json → ToolScript σ Outcome
  | none => say "[ERROR] timeout waiting for broker response"
  | some resp =>
    if isBrokerError resp then .done (.ok (errorText resp "unknown error"))
    else
      let isMatched := resp.getBool "matched" false
      replyText (noData isMatched) (timedOut isMatched) resp

structure DeviceProfile where
  commandPrefix : Bytes
  promptPattern : Bytes
  responseMode : Bytes
  defaultTimeoutMs : Int
  anomalyPatterns : List Json

structure Command where
  data : Bytes
  pattern : Bytes
  timeoutMs : Int
  timeoutMode : Bool

def lineEnding (eol : Option Bytes) : Option Bytes :=
  if eol = some (ascii "cr") then some [13]
  else if eol = some (ascii "crlf") then some [13, 10]
  else if eol = none ∨ eol = some [] ∨ eol = some (ascii "lf") then some [10]
  else none

def commandLine (profile : DeviceProfile) (command : Bytes) (args : Json) : Except String Command :=
  let text := profile.commandPrefix ++ command
  if 4096 ≤ text.length then .error "[ERROR] command too long"
  else
    let timeoutMs := args.getInt "timeout_ms" 0
    let timeoutMs := if timeoutMs ≤ 0 then profile.defaultTimeoutMs else timeoutMs
    let (pattern, timeoutMode) :=
      match args.getString "expect_pattern" with
      | some (c :: cs) => (c :: cs, false)
      | _ =>
        if profile.responseMode = ascii "timeout" then (ascii "^\\b$", true)
        else (profile.promptPattern, false)
    match lineEnding (args.getString "eol") with
    | none => .error "[ERROR] eol must be lf, cr, or crlf"
    | some ending =>
      let bare := (text.reverse.dropWhile fun c => c == 10 || c == 13).reverse
      if 4096 ≤ bare.length + ending.length then .error "[ERROR] command too long"
      else .ok ⟨bare ++ ending, pattern, timeoutMs, timeoutMode⟩

def toolSerialSendCommand (profile : DeviceProfile) (args : Json) : ToolScript σ Outcome :=
  match args.getString "command" with
  | none => say "[ERROR] missing 'command' argument"
  | some command =>
    match commandLine profile command args with
    | .error text => say text
    | .ok cmd =>
      .ask .genId fun (id : Bytes) =>
        brokerRequest (msgSendExpect id cmd.data cmd.pattern cmd.timeoutMs) id
          (cmd.timeoutMs + 5000)
          (expectAnswer (fun _ => ascii "(no output)") fun isMatched =>
            !isMatched && !cmd.timeoutMode)

def maxExpectTimeoutMs : Int := 3600000

def toolSerialWaitFor (args : Json) : ToolScript σ Outcome :=
  match args.getString "pattern" with
  | some (c :: cs) =>
    let timeoutMs := min (max (args.getInt "timeout_ms" 30000) 100) maxExpectTimeoutMs
    .ask .genId fun (id : Bytes) =>
      brokerRequest (msgListenExpect id (c :: cs) timeoutMs) id (timeoutMs + 5000)
        (expectAnswer
          (fun isMatched =>
            if isMatched then ascii "(matched, no capture)" else ascii "[TIMEOUT] (no output)")
          fun isMatched => !isMatched)
  | _ => say "[ERROR] missing 'pattern' argument"

def defaultResetHoldMs : Int := 100
def maxResetHoldMs : Int := 2000

def resetWaited (pin pattern : Bytes) (waitMs : Int) (res : Option Json) : Bytes :=
  if res.any fun r => r.getBool "matched" false then
    stored 256 (ascii "OK (reset via " ++ pin ++ ascii "; boot line /" ++ pattern.take 120 ++
      ascii "/ seen)")
  else
    stored 256 (ascii "[TIMEOUT] reset via " ++ pin ++ ascii " done, but /" ++ pattern.take 120 ++
      ascii "/ not seen within " ++ decimal waitMs.toNat ++ ascii " ms")

def resetRefused : Option Json → Option Bytes
  | none => some (ascii "[ERROR] timeout")
  | some resp => if isBrokerError resp then some (errorText resp "reset failed") else none

def resetPin (pin : Bytes) (holdMs : Int) (next : ToolScript σ Outcome) : ToolScript σ Outcome :=
  .ask .genId fun (id : Bytes) =>
    brokerRequest (msgPinControl id pin (ascii "reset") holdMs) id (holdMs + 5000) fun resp =>
      match resetRefused resp with
      | some text => .done (.ok text)
      | none => next

def resetPinOf (args : Json) : Bytes :=
  match args.getString "pin" with
  | some (c :: cs) => c :: cs
  | _ => ascii "rts"

def resetHoldMs (args : Json) : Int :=
  min (max (args.getInt "hold_ms" defaultResetHoldMs) 1) maxResetHoldMs

def resetWaitMs (args : Json) : Int :=
  min (max (args.getInt "timeout_ms" 10000) 100) maxExpectTimeoutMs

/-- The wait is registered first, so that a line printed at the release counts. -/
def toolSerialReset (args : Json) : ToolScript σ Outcome :=
  let pin := resetPinOf args
  if pin ≠ ascii "rts" ∧ pin ≠ ascii "dtr" then say "[ERROR] pin must be rts or dtr"
  else
    let holdMs := resetHoldMs args
    match args.getString "wait_pattern" with
    | some (c :: cs) =>
      let waitMs := resetWaitMs args
      .ask .genId fun (waitId : Bytes) =>
        .ask (.send (msgListenExpect waitId (c :: cs) waitMs)) fun (sent : Bool) =>
          if sent then
            resetPin pin holdMs (.ask (.wait (some waitId) (waitMs + 5000)) fun res =>
              .done (.ok (resetWaited pin (c :: cs) waitMs res)))
          else say "[ERROR] broker send failed"
    | _ =>
      resetPin pin holdMs (.done (.ok (stored 256 (ascii "OK (reset via " ++ pin ++
        ascii ", held " ++ decimal holdMs.toNat ++ ascii " ms)"))))

end Scripts

section ExpectReplies
variable (id : Bytes) (isMatched : Bool) (data pattern : Bytes) (aborted : Bool)
  (abortReason abortPattern : Bytes)

theorem expectResult_type :
    (msgExpectResultEx id isMatched data pattern aborted abortReason abortPattern).getString "type" =
      some (ascii "expect_result") := by
  unfold msgExpectResultEx
  split_ifs <;> rfl

theorem expectResult_matched :
    (msgExpectResultEx id isMatched data pattern aborted abortReason abortPattern).getBool "matched"
      false = isMatched := by
  unfold msgExpectResultEx
  split_ifs <;> rfl

theorem expectResult_data :
    (msgExpectResultEx id isMatched data pattern aborted abortReason abortPattern).getString "data" =
      some (Base64.base64Encode (data.take maxExpectResultBytes)) := by
  unfold msgExpectResultEx
  split_ifs <;> rfl

theorem expectResult_aborted :
    (msgExpectResultEx id isMatched data pattern aborted abortReason abortPattern).getBool "aborted"
      false = aborted := by
  unfold msgExpectResultEx
  cases aborted <;> split_ifs <;> first | rfl | contradiction

theorem expectResult_abortPattern :
    (msgExpectResultEx id isMatched data pattern aborted abortReason abortPattern).getString
      "abort_pattern" = if aborted = true ∧ abortPattern ≠ [] then some abortPattern else none := by
  unfold msgExpectResultEx
  cases aborted <;> split_ifs <;> first | rfl | simp_all

def statusFront (timedOut : Bool) : Bytes :=
  if aborted then abortFront (if abortPattern = [] then ascii "unknown" else abortPattern)
  else if timedOut then ascii "[TIMEOUT] "
  else []

/-- What a tool is to return for a result; `noData` is its text where there is no data. -/
def expectedText (noData : Bytes) (timedOut : Bool) : Bytes :=
  let shown := data.take maxExpectResultBytes
  if shown ≠ [] then statusFront aborted abortPattern timedOut ++ cString shown
  else if aborted then statusFront aborted abortPattern timedOut ++ ascii "(no output)"
  else noData

/-- An abort names no pattern when there is data, and one that fits its buffer when there
is none. -/
def AbortFits : Prop :=
  aborted = true → if data = [] then abortPattern.length < 226 else abortPattern = []

theorem joined_ok {size : Nat} {front data : Bytes} (hfront : 0 ∉ front)
    (hsize : front.length + data.length < size) :
    joined size front data = .ok (front ++ cString data) := by
  rw [joined, if_pos hsize, cString_append hfront]

theorem dataText_ok {timedOut : Bool} {shown : Bytes} (h : aborted → abortPattern = []) :
    dataText aborted timedOut (if aborted ∧ abortPattern ≠ [] then some abortPattern else none)
      shown = .ok (statusFront aborted abortPattern timedOut ++ cString shown) := by
  cases aborted with
  | true =>
    obtain rfl := h rfl
    have hlength : (abortFront (ascii "unknown")).length = 26 := by decide
    simp only [dataText, statusFront, ne_eq, not_true_eq_false, and_false, if_false, if_true,
      abortName]
    exact joined_ok (by decide) (by omega)
  | false =>
    cases timedOut with
    | true =>
      have hlength : (ascii "[TIMEOUT] ").length = 10 := by decide
      simp only [dataText, statusFront, Bool.false_eq_true, if_false, if_true]
      exact joined_ok (by decide) (by omega)
    | false =>
      simp only [dataText, statusFront, Bool.false_eq_true, if_false]
      exact joined_ok not_mem_nil (by simp)

theorem encode_data_nil : Base64.base64Encode [] = [] := rfl

theorem encode_data_cons {shown : Bytes} (h : shown ≠ []) :
    ∃ c cs, Base64.base64Encode shown = c :: cs := by
  have hpos := length_pos_iff.mpr h
  apply exists_cons_of_length_pos
  rw [Base64.base64Encode_length]
  omega

theorem take_shown_ne_nil {data : Bytes} (h : data ≠ []) : data.take maxExpectResultBytes ≠ [] := by
  have hpos := length_pos_iff.mpr h
  rw [← length_pos_iff, length_take]
  exact lt_min (by decide) hpos

theorem abortName_eq :
    abortName (if True ∧ ¬abortPattern = [] then some abortPattern else none) =
      if abortPattern = [] then ascii "unknown" else abortPattern := by
  cases abortPattern <;> rfl

theorem stored_abort_iff {name : Bytes} :
    let text := abortFront (if name = [] then ascii "unknown" else name) ++ ascii "(no output)"
    stored 256 text = text ↔ name.length < 226 := by
  have hfront : (ascii "[ABORTED anomaly:").length = 17 := by decide
  have hend : (ascii "] ").length = 2 := by decide
  have hout : (ascii "(no output)").length = 11 := by decide
  have hunknown : (ascii "unknown").length = 7 := by decide
  simp only [stored, take_eq_self_iff, abortFront, length_append, hfront, hend, hout]
  split_ifs with hname
  · simp [hname, hunknown]
  · omega

theorem dataText_freed {timedOut : Bool} {shown : Bytes} (h : abortPattern ≠ []) :
    dataText true timedOut (if true ∧ abortPattern ≠ [] then some abortPattern else none) shown =
      .error .freedRead := by
  simp [dataText, h]

variable {σ S : Type} {handle : S → (op : ToolOp σ) → S × op.Res}

def Allocates (handle : S → (op : ToolOp σ) → S × op.Res) : Prop :=
  ∀ s, (handle s .malloc).2 = true

theorem replyText_spec (noData : Bytes) (timedOut : Bool) (s : S) :
    let r := ((replyText noData timedOut
      (msgExpectResultEx id isMatched data pattern aborted abortReason abortPattern)).run handle s).2
    (AbortFits data aborted abortPattern → ∃ text, r = .ok text) ∧ (Allocates handle →
      (r = .ok (expectedText data aborted abortPattern noData timedOut) ↔
        AbortFits data aborted abortPattern)) := by
  unfold replyText expectedText
  simp only [expectResult_data, expectResult_aborted, expectResult_abortPattern]
  by_cases hdata : data = []
  · subst hdata
    simp only [take_nil, encode_data_nil, ne_eq, not_true_eq_false, if_false]
    cases aborted with
    | false => exact ⟨fun _ => ⟨noData, rfl⟩, fun _ => iff_of_true rfl nofun⟩
    | true =>
      refine ⟨fun _ => ⟨_, rfl⟩, fun _ => ?_⟩
      simp only [if_true, Script.run_done, abortName_eq, statusFront, Except.ok.injEq,
        stored_abort_iff, AbortFits, forall_const]
  · have hshown := take_shown_ne_nil hdata
    obtain ⟨c, cs, henc⟩ := encode_data_cons hshown
    have hdec : Base64.base64Decode (c :: cs) = some (data.take maxExpectResultBytes) := by
      rw [← henc, Base64.base64Decode_encode]
    have hfits : AbortFits data aborted abortPattern ↔ (aborted → abortPattern = []) := by
      rw [AbortFits, if_neg hdata]
    simp only [henc, hdec, if_pos hshown, Script.run_ask, hfits]
    refine ⟨fun hnone => ?_, fun hmem => ?_⟩
    · cases (handle s .malloc).2 with
      | false => exact ⟨_, rfl⟩
      | true =>
        simp only [if_true, Script.run_ask]
        cases (handle (handle s .malloc).1 .malloc).2 with
        | false => exact ⟨_, rfl⟩
        | true => exact ⟨_, dataText_ok aborted abortPattern hnone⟩
    · simp only [hmem _, if_true, Script.run_ask, Script.run_done]
      refine ⟨fun hok haborted => ?_, dataText_ok aborted abortPattern⟩
      subst haborted
      by_contra hne
      rw [dataText_freed abortPattern hne] at hok
      cases hok

inductive ExpectTool
  | sendCommand (profile : DeviceProfile)
  | waitFor

def ExpectTool.script (tool : ExpectTool) (args : Json) : ToolScript σ Outcome :=
  match tool with
  | .sendCommand profile => toolSerialSendCommand profile args
  | .waitFor => toolSerialWaitFor args

def ExpectTool.accepts (tool : ExpectTool) (args : Json) : Option ((Bool → Bytes) × (Bool → Bool)) :=
  match tool with
  | .sendCommand profile =>
    match args.getString "command" with
    | none => none
    | some command =>
      match commandLine profile command args with
      | .error _ => none
      | .ok cmd => some (fun _ => ascii "(no output)", fun isMatched => !isMatched && !cmd.timeoutMode)
  | .waitFor =>
    match args.getString "pattern" with
    | some (_ :: _) =>
      some (fun isMatched =>
        if isMatched then ascii "(matched, no capture)" else ascii "[TIMEOUT] (no output)", (!·))
    | _ => none

structure Answering (handle : S → (op : ToolOp σ) → S × op.Res) : Prop where
  sends : ∀ s msg, (handle s (.send msg)).2 = true
  replies : ∀ s id timeoutMs, (handle s (.wait (some id) timeoutMs)).2 =
    some (msgExpectResultEx id isMatched data pattern aborted abortReason abortPattern)

variable {isMatched data pattern aborted abortReason abortPattern}

theorem request_spec
    (hbroker : Answering isMatched data pattern aborted abortReason abortPattern handle)
    (msg : Json) (id : Bytes) (timeoutMs : Int) (noData : Bool → Bytes) (timedOut : Bool → Bool)
    (s : S) :
    let r := ((brokerRequest msg id timeoutMs (expectAnswer noData timedOut)).run handle s).2
    (AbortFits data aborted abortPattern → ∃ text, r = .ok text) ∧ (Allocates handle →
      (r = .ok (expectedText data aborted abortPattern (noData isMatched) (timedOut isMatched)) ↔
        AbortFits data aborted abortPattern)) := by
  have herror : isBrokerError (msgExpectResultEx id isMatched data pattern aborted abortReason
      abortPattern) = false := by
    rw [isBrokerError, expectResult_type]
    decide
  simp only [brokerRequest, Script.run_ask, hbroker.sends, if_true, hbroker.replies, expectAnswer,
    herror, Bool.false_eq_true, if_false, expectResult_matched]
  exact replyText_spec id isMatched data pattern aborted abortReason abortPattern _ _ _

def answeringBroker (isMatched : Bool) (data : Bytes) (aborted : Bool) (abortPattern : Bytes) :
    Unit → (op : ToolOp Unit) → Unit × op.Res
  | _, .genId => ((), ascii "mcp-00000000")
  | _, .send _ => ((), true)
  | _, .wait (some id) _ =>
    ((), some (msgExpectResultEx id isMatched data [] aborted (ascii "anomaly") abortPattern))
  | _, .wait none _ => ((), none)
  | _, .malloc => ((), true)
  | _, .own _ => ((), ())

def waitForPrompt : Json := .obj [("pattern", .str (ascii "login:"))]

theorem answeringBroker_answers (isMatched : Bool) (data : Bytes) (aborted : Bool)
    (abortPattern : Bytes) :
    Answering isMatched data [] aborted (ascii "anomaly") abortPattern
      (answeringBroker isMatched data aborted abortPattern) :=
  ⟨fun _ _ => rfl, fun _ _ _ => rfl⟩

end ExpectReplies

structure Session (σ : Type) where
  conn : BrokerConn σ
  sends : List Bool
  waits : List (List Poll)
  mallocs : List Bool

def handleOp {σ : Type} (codec : Codec) (hooks : Hooks σ) (s : Session σ) :
    (op : ToolOp σ) → Session σ × op.Res
  | .genId =>
    let r := genWireId s.conn
    ({ s with conn := r.1 }, r.2)
  | .send _ => ({ s with sends := s.sends.tail }, s.sends.headD false)
  | .wait awaited _ =>
    let r := brokerConnWait codec hooks awaited (s.waits.headD []) s.conn
    ({ s with conn := r.1, waits := s.waits.tail }, r.2)
  | .malloc => ({ s with mallocs := s.mallocs.tail }, s.mallocs.headD false)
  | .own change => ({ s with conn := { s.conn with user := change s.conn.user } }, s.conn.user)

section Reset
variable {σ : Type} (codec : Codec) (hooks : Hooks σ) (s : Session σ)

def Session.waitId : Bytes := (genWireId s.conn).2

def Session.pinId : Bytes := (genWireId (genWireId s.conn).1).2

def Session.pinWait : BrokerConn σ × Option Json :=
  brokerConnWait codec hooks (some s.pinId) (s.waits.headD []) (genWireId (genWireId s.conn).1).1

def Session.lineWait : BrokerConn σ × Option Json :=
  brokerConnWait codec hooks (some s.waitId) (s.waits.tail.headD []) (s.pinWait codec hooks).1

def resetText (args : Json) (pattern : Bytes) (pinReply lineReply : Option Json) : Bytes :=
  (resetRefused pinReply).getD (resetWaited (resetPinOf args) pattern (resetWaitMs args) lineReply)

variable {codec hooks s} {args : Json} {c : UInt8} {cs : Bytes}

theorem toolSerialReset_waits (hpin : resetPinOf args = ascii "rts" ∨ resetPinOf args = ascii "dtr")
    (hpattern : args.getString "wait_pattern" = some (c :: cs))
    (hsends : s.sends = [true, true]) :
    ((toolSerialReset args).run (handleOp codec hooks) s).2 =
      .ok (resetText args (c :: cs) (s.pinWait codec hooks).2 (s.lineWait codec hooks).2) := by
  have hvalid : ¬(resetPinOf args ≠ ascii "rts" ∧ resetPinOf args ≠ ascii "dtr") := by
    rintro ⟨hrts, hdtr⟩
    exact hpin.elim hrts hdtr
  simp only [toolSerialReset, if_neg hvalid, hpattern, Script.run_ask, handleOp, hsends,
    headD_cons, if_true, resetPin, brokerRequest, tail_cons]
  unfold resetText
  change ((match resetRefused (s.pinWait codec hooks).2 with
    | some text => Script.done (Except.ok text)
    | none => _).run (handleOp codec hooks) _).2 = _
  cases hrefused : resetRefused (s.pinWait codec hooks).2 with
  | some text => rfl
  | none => rfl

/-- Both replies of a reset reach the code that waits for them, when no reply to the
`listen_expect` has come in by the end of the wait for the `pin_control`. -/
theorem reset_replies_returned (hsound : s.conn.Sound codec)
    (hpinKept : waitAlong codec hooks Kept (some s.pinId) (s.waits.headD [])
      (genWireId (genWireId s.conn).1).1)
    (hlineKept : waitAlong codec hooks Kept (some s.waitId) (s.waits.tail.headD [])
      (s.pinWait codec hooks).1)
    (hfresh : firstAnswer codec (some s.pinId) s.conn.received = none)
    (hlate : firstAnswer codec (some s.waitId) (s.pinWait codec hooks).1.received = none)
    (hpin : resetPinOf args = ascii "rts" ∨ resetPinOf args = ascii "dtr")
    (hpattern : args.getString "wait_pattern" = some (c :: cs))
    (hsends : s.sends = [true, true]) :
    ((toolSerialReset args).run (handleOp codec hooks) s).2 =
      .ok (resetText args (c :: cs)
        (firstAnswer codec (some s.pinId) (s.pinWait codec hooks).1.received)
        (firstAnswer codec (some s.waitId) (s.lineWait codec hooks).1.received)) := by
  have hids : (genWireId (genWireId s.conn).1).1.Sound codec :=
    ⟨hsound.lines, hsound.rest, hsound.answered, hsound.capPos, hsound.capMax, hsound.fits⟩
  have hpinReply : (s.pinWait codec hooks).2 =
      firstAnswer codec (some s.pinId) (s.pinWait codec hooks).1.received :=
    wait_first hids hpinKept hfresh
  have hpinned : (s.pinWait codec hooks).1.Sound codec := hids.wait _ _ hpinKept
  have hlineReply : (s.lineWait codec hooks).2 =
      firstAnswer codec (some s.waitId) (s.lineWait codec hooks).1.received :=
    wait_first hpinned hlineKept hlate
  rw [toolSerialReset_waits hpin hpattern hsends, hpinReply, hlineReply]

def resetRequest : Json := .obj [("wait_pattern", .str (ascii "login:"))]

def pinReply : Bytes :=
  msgEncode JsonText.textCodec (msgAck "pin_control" (some (ascii "mcp-00000001")))

def lineReply : Bytes :=
  msgEncode JsonText.textCodec
    (msgExpectResultEx (ascii "mcp-00000000") true [] (ascii "login:") false [] [])

def resetSession (pinPolls linePolls : List Poll) : Session Unit :=
  ⟨brokerConnInit 8192 (), [true, true], [pinPolls, linePolls], []⟩

theorem reset_replies_returned_in_order :
    let s := resetSession [.ready (arrives pinReply false)] [.ready (arrives lineReply false)]
    ((toolSerialReset resetRequest).run (handleOp JsonText.textCodec noHooks) s).2 =
        .ok (ascii "OK (reset via rts; boot line /login:/ seen)") ∧
      ((toolSerialReset resetRequest).run (handleOp JsonText.textCodec noHooks) s).2 =
        .ok (resetText resetRequest (ascii "login:")
          (firstAnswer JsonText.textCodec (some s.pinId)
            (s.pinWait JsonText.textCodec noHooks).1.received)
          (firstAnswer JsonText.textCodec (some s.waitId)
            (s.lineWait JsonText.textCodec noHooks).1.received)) :=
  ⟨by decide +kernel, reset_replies_returned (sound_init (by decide) (by decide))
    ⟨fun _ h => absurd h (by decide +kernel), trivial⟩
    ⟨fun _ h => absurd h (by decide +kernel), trivial⟩
    (Option.isNone_iff_eq_none.mp (by decide +kernel))
    (Option.isNone_iff_eq_none.mp (by decide +kernel)) (.inl (by decide)) rfl rfl⟩

/-- The result of the expect comes before the answer to the `pin_control`: it is dropped,
and the tool says that the line was not seen. -/
theorem reset_reply_lost :
    let s := resetSession [.ready (arrives lineReply false), .ready (arrives pinReply false)]
      [.timeout]
    ((toolSerialReset resetRequest).run (handleOp JsonText.textCodec noHooks) s).2 =
        .ok (ascii "[TIMEOUT] reset via rts done, but /login:/ not seen within 10000 ms") ∧
      (firstAnswer JsonText.textCodec (some s.waitId)
        (s.pinWait JsonText.textCodec noHooks).1.received).any
          (fun resp => resp.getBool "matched" false) = true := by
  decide +kernel

end Reset

end Smolmux.Mcp
