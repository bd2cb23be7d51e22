import Smolmux.Base64
import Smolmux.Json

/-! The wire protocol (`protocol.c`): message types, the line decoder and the
builders of the messages the broker sends. Printing and parsing of JSON text
belong to the library and enter as a pair of inverse functions. -/

namespace Smolmux.Protocol
open Base64

inductive MsgType
  | hello | welcome | send | sendExpect | listenExpect | output | inputEcho | expectResult
  | takeover | release | status | statusResponse | pinControl | setBaud | suspend | resume
  | suspended | resumed | historyRequest | historyResponse | incidentsRequest
  | incidentsResponse | configureAnomaly | anomaly | interruptAutoboot | autobootResult
  | bootStage | bootStall | configureAutoresponder | autorespondersRequest
  | autorespondersResponse | autoresponderFired | linkDown | linkUp | error | unknown
  deriving DecidableEq, Repr

def msgTypeMap : List (String × MsgType) :=
  [("hello", .hello), ("welcome", .welcome), ("send", .send), ("send_expect", .sendExpect),
   ("listen_expect", .listenExpect), ("output", .output), ("input_echo", .inputEcho),
   ("expect_result", .expectResult), ("takeover", .takeover), ("release", .release),
   ("status", .status), ("status_response", .statusResponse), ("pin_control", .pinControl),
   ("set_baud", .setBaud), ("suspend", .suspend), ("resume", .resume),
   ("suspended", .suspended), ("resumed", .resumed), ("history_request", .historyRequest),
   ("history_response", .historyResponse), ("incidents_request", .incidentsRequest),
   ("incidents_response", .incidentsResponse), ("configure_anomaly", .configureAnomaly),
   ("anomaly", .anomaly), ("interrupt_autoboot", .interruptAutoboot),
   ("autoboot_result", .autobootResult), ("boot_stage", .bootStage),
   ("boot_stall", .bootStall), ("configure_autoresponder", .configureAutoresponder),
   ("autoresponders_request", .autorespondersRequest),
   ("autoresponders_response", .autorespondersResponse),
   ("autoresponder_fired", .autoresponderFired), ("link_down", .linkDown),
   ("link_up", .linkUp), ("error", .error)]

def lookupType : Option Bytes → MsgType
  | none => .unknown
  | some name =>
    match msgTypeMap.find? fun entry => ascii entry.1 == name with
    | some entry => entry.2
    | none => .unknown

/-- The JSON library: what is printed is parsed back, and a text has no NUL. -/
structure Codec where
  print : Json → Bytes
  parse : Bytes → Option Json
  parse_print : ∀ j, parse (print j) = some j
  print_noNul : ∀ j, 0 ∉ print j

structure Msg where
  type : MsgType
  root : Option Json

def newline : UInt8 := 10

def msgEncode (codec : Codec) (msg : Json) : Bytes := codec.print msg ++ [newline]

/-- The nesting scan before the parser runs; it counts brackets in strings too. -/
def tooDeep : (depth : Int) → Bytes → Bool
  | _, [] => false
  | depth, c :: cs =>
    if c = 123 ∨ c = 91 then
      if 32 < depth + 1 then true else tooDeep (depth + 1) cs
    else if c = 125 ∨ c = 93 then tooDeep (depth - 1) cs
    else tooDeep depth cs

def stripNewline (line : Bytes) : Bytes :=
  if line.getLast? = some newline then line.dropLast else line

/-- What the parser sees of a buffer: the bytes before the first NUL. -/
def cString (buf : Bytes) : Bytes := buf.takeWhile (· ≠ 0)

theorem cString_append {front data : Bytes} (h : 0 ∉ front) :
    cString (front ++ data) = front ++ cString data := by
  unfold cString
  rw [List.takeWhile_append_of_pos]
  intro c hc
  simpa using fun h0 : c = 0 => h (h0 ▸ hc)

theorem cString_append_nul (text rest : Bytes) : cString (text ++ 0 :: rest) = cString text := by
  unfold cString
  rw [List.takeWhile_append]
  split_ifs with h
  · rw [List.takeWhile_cons_of_neg (by simp), List.append_nil]
    exact ((List.takeWhile_prefix _).eq_of_length h).symm
  · rfl

def strUnescape : (max : Nat) → Bytes → Bytes
  | 0, _ => []
  | _, [] => []
  | max + 1, 92 :: c :: cs =>
    (if c = 110 then 10 else if c = 114 then 13 else if c = 116 then 9 else if c = 48 then 0
      else c) :: strUnescape max cs
  | max + 1, c :: cs => c :: strUnescape max cs

def msgDecode (codec : Codec) (line : Bytes) : Msg :=
  if line = [] ∨ tooDeep 0 line then ⟨.unknown, none⟩
  else
    match codec.parse (cString (stripNewline line)) with
    | none => ⟨.unknown, none⟩
    | some root => ⟨lookupType (root.getString "type"), some root⟩

def makeMsg (type : String) : Json := .obj [("type", .str (ascii type))]

def addB64Data (msg : Json) (key : String) (data : Bytes) : Json :=
  msg.add key (.str (base64Encode data))

def msgOutput (data : Bytes) (timestamp : Rat) : Json :=
  (addB64Data (makeMsg "output") "data" data).add "timestamp" (.num timestamp)

def msgHistoryResponse (id : Bytes) (chunks : List Json) : Json :=
  ((makeMsg "history_response").add "id" (.str id)).add "chunks" (.arr chunks)

def msgError (id : Option Bytes) (message : Bytes) : Json :=
  ((makeMsg "error").add "id" (.str (id.getD []))).add "message" (.str message)

def msgAck (type : String) (id : Option Bytes) : Json :=
  ((makeMsg type).add "id" (.str (id.getD []))).add "status" (.str (ascii "ok"))

def protocolVersion : Int := 1

def msgWelcome (version port : Bytes) (baud : Int) (role : Bytes) : Json :=
  .obj [("type", .str (ascii "welcome")), ("broker_version", .str version),
    ("protocol_version", .num protocolVersion), ("port", .str port), ("baud", .num baud),
    ("your_role", .str role)]

def msgInputEcho (data sender : Bytes) (timestamp : Rat) : Json :=
  ((addB64Data (makeMsg "input_echo") "data" data).add "sender" (.str sender)).add "timestamp"
    (.num timestamp)

def maxExpectResultBytes : Nat := 64 * 1024

def msgExpectResultEx (id : Bytes) (isMatched : Bool) (data pattern : Bytes) (aborted : Bool)
    (abortReason abortPattern : Bytes) : Json :=
  let msg := ((makeMsg "expect_result").add "id" (.str id)).add "matched" (.bool isMatched)
  let msg := (addB64Data msg "data" (data.take maxExpectResultBytes)).add "pattern" (.str pattern)
  let msg := if maxExpectResultBytes < data.length then msg.add "truncated" (.bool true) else msg
  if aborted then
    let msg := msg.add "aborted" (.bool true)
    let msg := if abortReason = [] then msg else msg.add "abort_reason" (.str abortReason)
    if abortPattern = [] then msg else msg.add "abort_pattern" (.str abortPattern)
  else msg

def msgStatusResponse (id port : Bytes) (baud : Int) (connected suspended : Bool) : Json :=
  .obj [("type", .str (ascii "status_response")), ("id", .str id), ("port", .str port),
    ("baud", .num baud), ("connected", .bool connected), ("suspended", .bool suspended)]

def msgSuspend (id : Bytes) : Json := (makeMsg "suspend").add "id" (.str id)

def msgResume (id : Bytes) : Json := (makeMsg "resume").add "id" (.str id)

def msgSuspended (port byClient : Bytes) : Json :=
  ((makeMsg "suspended").add "port" (.str port)).add "by_client" (.str byClient)

def msgResumed (port : Bytes) : Json := (makeMsg "resumed").add "port" (.str port)

def msgIncidentsResponse (id : Bytes) (incidents : List Json) : Json :=
  ((makeMsg "incidents_response").add "id" (.str id)).add "incidents" (.arr incidents)

def msgAnomaly (incidentId patternName severity : Bytes) (timestamp : Rat)
    (matchText preContext : Bytes) : Json :=
  .obj [("type", .str (ascii "anomaly")), ("incident_id", .str incidentId),
    ("pattern_name", .str patternName), ("severity", .str severity),
    ("timestamp", .num timestamp), ("match_text", .str matchText),
    ("pre_context", .str preContext)]

def msgAutobootResult (id : Option Bytes) (isMatched : Bool) (reason : Bytes) (elapsedMs sent : Int) :
    Json :=
  (((((makeMsg "autoboot_result").addString "id" id).add "matched" (.bool isMatched)).add "reason"
    (.str reason)).add "elapsed_ms" (.num elapsedMs)).add "sent" (.num sent)

def msgBootStage (name : Bytes) (index total : Nat) (timestamp : Rat) : Json :=
  .obj [("type", .str (ascii "boot_stage")), ("name", .str name), ("index", .num index),
    ("total", .num total), ("timestamp", .num timestamp)]

def msgBootStall (name : Bytes) (index : Int) (total : Nat) (stalledMs : Int) : Json :=
  .obj [("type", .str (ascii "boot_stall")), ("name", .str name), ("index", .num index),
    ("total", .num total), ("stalled_ms", .num stalledMs)]

def msgAutorespondersResponse (id : Bytes) (rules : List Json) : Json :=
  ((makeMsg "autoresponders_response").add "id" (.str id)).add "rules" (.arr rules)

def msgAutoresponderFired (name matchedText : Bytes) (sent : Nat) : Json :=
  .obj [("type", .str (ascii "autoresponder_fired")), ("name", .str name),
    ("matched_text", .str matchedText), ("sent", .num sent)]

def msgLinkDown (port reason : Bytes) : Json :=
  ((makeMsg "link_down").add "port" (.str port)).add "reason" (.str reason)

def msgLinkUp (port : Bytes) : Json := (makeMsg "link_up").add "port" (.str port)

theorem msgDecode_encode (codec : Codec) (j : Json) {root : Json}
    (h : (msgDecode codec (msgEncode codec j)).root = some root) :
    msgDecode codec (msgEncode codec j) = ⟨lookupType (j.getString "type"), some j⟩ ∧
      root = j := by
  have hstrip : stripNewline (msgEncode codec j) = codec.print j := by
    simp [stripNewline, msgEncode]
  have hstr : cString (codec.print j) = codec.print j := by
    rw [cString, List.takeWhile_eq_self_iff]
    intro c hc
    exact decide_eq_true fun h0 => codec.print_noNul j (h0 ▸ hc)
  unfold msgDecode at h ⊢
  rw [hstrip, hstr, codec.parse_print] at h ⊢
  split_ifs at h ⊢ with hbad
  exact ⟨rfl, (Option.some.inj h).symm⟩

end Smolmux.Protocol
