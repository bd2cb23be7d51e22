import Smolmux.Window
import Smolmux.Protocol
import Smolmux.Sha1

/-! The handshake of the WebSocket sink (`ws_handshake` of `sinks/ws.c`): the request is read
into a buffer and searched for its header fields, and the key is answered with a hash of it
and a constant. -/

namespace Smolmux.Ws
open Protocol Base64 List

def wsGuid : Bytes := ascii "258EAFA5-E914-47DA-95CA-5AB5443F11F3"

def rfcGuid : Bytes := ascii "258EAFA5-E914-47DA-95CA-C5AB0DC85B11"

def newline : UInt8 := 10
def colon : UInt8 := 58
def blank : UInt8 := 32
def crlf : Bytes := [13, 10]

inductive HandshakeRead where
  | quiet
  | data (bytes : Bytes)
  | failed

/-- The loop that reads the request, with `left` polls to go. A read may fill the buffer of
4096 bytes up to its last one; a read of nothing ends the handshake. -/
def readRequest : (left : Nat) → List HandshakeRead → (received : Bytes) → Option Bytes
  | 0, _, received => some received
  | _, [], received => some received
  | left + 1, .quiet :: reads, received => readRequest left reads received
  | _, .failed :: _, _ => none
  | left + 1, .data bytes :: reads, received =>
    let new := bytes.take (4096 - received.length - 1)
    if new = [] then none
    else if crlf ++ crlf <:+: cString (received ++ new) then some (received ++ new)
    else readRequest left reads (received ++ new)

/-- The text in the buffer. Until something has been read it is what the stack holds. -/
def bufferText (stack received : Bytes) : Bytes := cString (if received = [] then stack else received)

/-- Where the value of a header field starts, looked for from `p` on. An occurrence of the
name counts at the start of a line and before a colon. -/
def valueStart (text name : Bytes) : (left p : Nat) → Option Nat
  | 0, _ => none
  | left + 1, p =>
    match firstAt name (text.drop p) with
    | none => none
    | some k =>
      let next := p + k + name.length
      if p + k ≠ 0 ∧ text.getD (p + k - 1) 0 ≠ newline then valueStart text name left next
      else if text.getD next 0 = colon then
        some (next + 1 + ((text.drop (next + 1)).takeWhile (· == blank)).length)
      else valueStart text name left next

def findHeader (text name : Bytes) : Option (Bytes × Nat) :=
  (valueStart text name (text.length + 1) 0).map fun p =>
    (text.drop p, (firstAt crlf (text.drop p)).getD (text.drop p).length)

def toLower (c : UInt8) : UInt8 := if 65 ≤ c ∧ c ≤ 90 then c + 32 else c

def sameLetters (a b : Bytes) (n : Nat) : Bool := (a.take n).map toLower == (b.take n).map toLower

def isUpgrade : Option (Bytes × Nat) → Bool
  | some (value, len) => 9 ≤ len && sameLetters value (ascii "websocket") 9
  | none => false

def namesUpgrade : Option (Bytes × Nat) → Bool
  | some (value, len) =>
    (List.range (len - 6)).any fun i => sameLetters (value.drop i) (ascii "Upgrade") 7
  | none => false

def isOrigin (value : Bytes) (len : Nat) (host : Bytes) : Bool :=
  host.length ≤ len && host.isPrefixOf value &&
    (len = host.length || value.getD host.length 0 == 47 || value.getD host.length 0 == colon)

def originAllowed : Option (Bytes × Nat) → Bool
  | some (value, len) =>
    isOrigin value len (ascii "http://localhost") || isOrigin value len (ascii "http://127.0.0.1") ||
      isOrigin value len (ascii "http://[::1]")
  | none => true

def acceptedKey (text : Bytes) : Option Bytes :=
  if ¬crlf ++ crlf <:+: text then none
  else if (ascii "GET ").isPrefixOf text = false then none
  else if isUpgrade (findHeader text (ascii "Upgrade")) = false then none
  else if namesUpgrade (findHeader text (ascii "Connection")) = false then none
  else if originAllowed (findHeader text (ascii "Origin")) = false then none
  else
    match findHeader text (ascii "Sec-WebSocket-Key") with
    | none => none
    | some (value, len) => if len < 16 ∨ 128 < len then none else some (value.take len)

def acceptValue (key : Bytes) : Bytes :=
  let concat := stored 256 (key ++ wsGuid)
  let clen := (key ++ wsGuid).length
  base64Encode (Sha1.sha1 (concat.take clen))

def switchingProtocols (accept : Bytes) : Bytes :=
  ascii "HTTP/1.1 101 Switching Protocols" ++ crlf ++ ascii "Upgrade: websocket" ++ crlf ++
    ascii "Connection: Upgrade" ++ crlf ++ ascii "Sec-WebSocket-Accept: " ++ accept ++ crlf ++ crlf

def writeResponse : (writes : List Nat) → Bytes → Bool × Bytes
  | _, [] => (true, [])
  | [], _ => (false, [])
  | w :: writes, resp =>
    if w = 0 then (false, [])
    else
      let r := writeResponse writes (resp.drop w)
      (r.1, resp.take w ++ r.2)

def wsHandshake (stack : Bytes) (reads : List HandshakeRead) (mem : Bool) (writes : List Nat) :
    Bool × Bytes :=
  match (readRequest 50 reads []).bind fun received => acceptedKey (bufferText stack received) with
  | none => (false, [])
  | some key =>
    if mem = false then (false, [])
    else writeResponse writes (stored 512 (switchingProtocols (acceptValue key)))

/-- The text has a header field of the name with the value: a line begins with the name and a
colon, and the value goes from the next byte that is not blank to the end of the line. -/
structure HasField (text name value : Bytes) : Prop where
  field : ∃ front blanks back,
    text = front ++ name ++ [colon] ++ blanks ++ value ++ back ∧
      (front = [] ∨ front.getLast? = some newline) ∧ (∀ c ∈ blanks, c = blank) ∧
      value.head? ≠ some blank ∧ ¬crlf <:+: value ∧ (back = [] ∨ crlf <+: back)

variable {text name : Bytes}

theorem firstAt_spec {word : Bytes} {k : Nat} (h : firstAt word text = some k) :
    word <+: text.drop k ∧ ∀ j < k, ¬word <+: text.drop j := by
  induction text generalizing k with
  | nil =>
    rw [firstAt] at h
    split_ifs at h with hword
    cases h
    subst hword
    exact ⟨List.nil_prefix, fun j hj => absurd hj (Nat.not_lt_zero j)⟩
  | cons c text ih =>
    rw [firstAt] at h
    split_ifs at h with hhere
    · cases h
      exact ⟨List.isPrefixOf_iff_prefix.mp hhere, fun j hj => absurd hj (Nat.not_lt_zero j)⟩
    · obtain ⟨k', hk', rfl⟩ := Option.map_eq_some_iff.mp h
      obtain ⟨hfound, hbefore⟩ := ih hk'
      refine ⟨hfound, fun j hj => ?_⟩
      cases j with
      | zero => exact fun hp => hhere (List.isPrefixOf_iff_prefix.mpr hp)
      | succ j => exact hbefore j (Nat.lt_of_succ_lt_succ hj)

theorem not_infix_take {word : Bytes} {k : Nat} (hword : word ≠ [])
    (h : ∀ j < k, ¬word <+: text.drop j) : ¬word <:+: text.take k := by
  rintro ⟨front, back, heq⟩
  have hlength := congrArg List.length heq
  simp only [length_append, length_take] at hlength
  have hpos := length_pos_of_ne_nil hword
  refine h front.length (by omega) ⟨back ++ text.drop k, ?_⟩
  have htext : text = front ++ (word ++ (back ++ text.drop k)) := by
    conv_lhs => rw [← take_append_drop k text, ← heq]
    simp only [append_assoc]
  conv_rhs => rw [htext]
  rw [drop_left]

theorem getElem?_of_getD {i : Nat} {c : UInt8} (hc : c ≠ 0) (h : text.getD i 0 = c) : text[i]? = some c := by
  rw [getD_eq_getElem?_getD] at h
  cases hi : text[i]? with
  | none =>
    rw [hi] at h
    exact absurd h.symm hc
  | some d =>
    rw [hi] at h
    exact congrArg some h

theorem take_lineStart {q : Nat} (h : ¬(q ≠ 0 ∧ text.getD (q - 1) 0 ≠ newline)) :
    text.take q = [] ∨ (text.take q).getLast? = some newline := by
  by_cases hq : q = 0
  · left
    rw [hq, take_zero]
  · right
    have hnewline : text.getD (q - 1) 0 = newline := by
      by_contra hnot
      exact h ⟨hq, hnot⟩
    rw [getLast?_take, if_neg hq, getElem?_of_getD (by decide) hnewline, Option.some_or]

theorem take_field {q : Nat} (hname : name <+: text.drop q)
    (hcolon : text.getD (q + name.length) 0 = colon) (blanks : Bytes)
    (hblanks : blanks <+: text.drop (q + name.length + 1)) :
    text.take (q + name.length + 1 + blanks.length) =
      text.take q ++ name ++ [colon] ++ blanks := by
  obtain ⟨hin, hget⟩ := List.getElem?_eq_some_iff.mp (getElem?_of_getD (by decide) hcolon)
  rw [take_add, take_add, take_add, ← prefix_iff_eq_take.mp hname,
    ← prefix_iff_eq_take.mp hblanks, drop_eq_getElem_cons hin, hget]
  rfl

theorem drop_takeWhile_length (p : UInt8 → Bool) (rest : Bytes) :
    rest.drop (rest.takeWhile p).length = rest.dropWhile p := by
  have hsplit := congrArg (List.drop (rest.takeWhile p).length)
    (takeWhile_append_dropWhile (p := p) (l := rest))
  rwa [drop_left, eq_comm] at hsplit

theorem valueStart_spec {left p start : Nat} (h : valueStart text name left p = some start) :
    ∃ front blanks, text.take start = front ++ name ++ [colon] ++ blanks ∧
      (front = [] ∨ front.getLast? = some newline) ∧ (∀ c ∈ blanks, c = blank) ∧
      (text.drop start).head? ≠ some blank := by
  induction left generalizing p with
  | zero => cases h
  | succ left ih =>
    rw [valueStart] at h
    split at h
    · cases h
    next k hk =>
      dsimp only at h
      split_ifs at h with hline hcolon
      · exact ih h
      · have hname := (firstAt_spec hk).1
        rw [drop_drop] at hname
        generalize hrest : text.drop (p + k + name.length + 1) = rest at h
        have htake := take_field hname hcolon (rest.takeWhile (· == blank))
          (hrest ▸ takeWhile_prefix _)
        refine ⟨text.take (p + k), rest.takeWhile (· == blank), ?_, take_lineStart hline,
          fun c hc => ?_, fun hhead => ?_⟩
        · rw [← Option.some.inj h]
          exact htake
        · have hblank : (c == blank) := mem_takeWhile_imp (p := (· == blank)) hc
          exact beq_iff_eq.mp hblank
        · -- the blanks end before a byte that is none
          have hvalue : text.drop start = rest.dropWhile (· == blank) := by
            rw [← Option.some.inj h, ← drop_drop, hrest, drop_takeWhile_length]
          have hnot := head?_dropWhile_not (· == blank) rest
          rw [← hvalue, hhead] at hnot
          exact absurd hnot (by decide)
      · exact ih h

theorem take_value (rest : Bytes) :
    let len := (firstAt crlf rest).getD rest.length
    ¬crlf <:+: rest.take len ∧ (rest.drop len = [] ∨ crlf <+: rest.drop len) := by
  cases hfirst : firstAt crlf rest with
  | none =>
    have hnone : ¬crlf <:+: rest := by
      rw [← firstAt_isSome, hfirst]
      exact Bool.false_ne_true
    exact ⟨by simpa using hnone, by simp⟩
  | some k =>
    obtain ⟨hfound, hbefore⟩ := firstAt_spec hfirst
    exact ⟨not_infix_take (by decide) hbefore, .inr hfound⟩

theorem findHeader_spec {value : Bytes} {len : Nat} (h : findHeader text name = some (value, len)) : HasField text name (value.take len) := by
  obtain ⟨start, hstart, hvalue⟩ := Option.map_eq_some_iff.mp h
  obtain ⟨front, blanks, htake, hfront, hblanks, hhead⟩ := valueStart_spec hstart
  obtain ⟨rfl, rfl⟩ := Prod.mk.inj hvalue
  obtain ⟨hinside, hend⟩ := take_value (text.drop start)
  generalize (firstAt crlf (text.drop start)).getD (text.drop start).length = len at hinside hend ⊢
  refine ⟨front, blanks, (text.drop start).drop len, ?_, hfront, hblanks, fun hblank => ?_,
    hinside, hend⟩
  · rw [← htake, append_assoc, take_append_drop, take_append_drop]
  · rw [head?_take] at hblank
    split_ifs at hblank
    exact hhead hblank

theorem acceptedKey_spec {key : Bytes} (h : acceptedKey text = some key) :
    HasField text (ascii "Sec-WebSocket-Key") key ∧ key.length ≤ 128 := by
  unfold acceptedKey at h
  split_ifs at h
  split at h
  · cases h
  next value len hfound =>
    split_ifs at h with hlength
    cases h
    refine ⟨findHeader_spec hfound, ?_⟩
    rw [length_take]
    omega

theorem acceptValue_eq {key : Bytes} (h : key.length ≤ 128) :
    acceptValue key = base64Encode (Fips180.sha1 (key ++ wsGuid)) := by
  have hguid : wsGuid.length = 36 := by decide
  have hfits : (key ++ wsGuid).length < 256 := by
    rw [length_append, hguid]
    omega
  rw [acceptValue, stored_fits hfits, take_length, Sha1.sha1_eq_standard]

theorem length_standard (m : Bytes) : (Fips180.sha1 m).length = 20 := rfl

theorem length_switchingProtocols (accept : Bytes) :
    (switchingProtocols accept).length = accept.length + 101 := by
  simp only [switchingProtocols, length_append]
  have hlengths : (ascii "HTTP/1.1 101 Switching Protocols").length = 32 ∧
      (ascii "Upgrade: websocket").length = 18 ∧ (ascii "Connection: Upgrade").length = 19 ∧
      (ascii "Sec-WebSocket-Accept: ").length = 22 ∧ crlf.length = 2 := by decide
  omega

theorem switchingProtocols_injective : Function.Injective switchingProtocols := by
  intro x y h
  simpa [switchingProtocols] using h

theorem base64Encode_injective : Function.Injective base64Encode := by
  intro x y h
  have hx := base64Decode_encode x
  rw [h, base64Decode_encode] at hx
  exact (Option.some.inj hx).symm

theorem writeResponse_complete {writes : List Nat} {resp : Bytes}
    (h : (writeResponse writes resp).1) : (writeResponse writes resp).2 = resp := by
  induction writes generalizing resp with
  | nil =>
    cases resp with
    | nil => rfl
    | cons c resp => cases h
  | cons w writes ih =>
    cases resp with
    | nil => rfl
    | cons c resp =>
      by_cases hw : w = 0
      · simp [writeResponse, hw] at h
      · simp only [writeResponse, if_neg hw] at h ⊢
        rw [ih h, take_append_drop]

theorem wsHandshake_spec {stack : Bytes} {reads : List HandshakeRead} {mem : Bool}
    {writes : List Nat} (h : (wsHandshake stack reads mem writes).1) :
    ∃ received key, readRequest 50 reads [] = some received ∧
      HasField (bufferText stack received) (ascii "Sec-WebSocket-Key") key ∧
      (wsHandshake stack reads mem writes).2 =
        switchingProtocols (base64Encode (Fips180.sha1 (key ++ wsGuid))) := by
  unfold wsHandshake at h ⊢
  split at h
  · cases h
  next key hkey =>
    obtain ⟨received, hreceived, haccepted⟩ := Option.bind_eq_some_iff.mp hkey
    obtain ⟨hfield, hlength⟩ := acceptedKey_spec haccepted
    refine ⟨received, key, hreceived, hfield, ?_⟩
    split_ifs at h ⊢ with hmem
    have hfits : (switchingProtocols (acceptValue key)).length < 512 := by
      rw [length_switchingProtocols, acceptValue_eq hlength, base64Encode_length, length_standard]
      decide
    rw [writeResponse_complete h, stored_fits hfits, acceptValue_eq hlength]

/-- Every request that is accepted has a key, and the answer is the hash of this key and the
constant of the program. It is the answer that the protocol asks for just when the constant
of the protocol gives the same hash. -/
theorem accept_hashes_key (stack : Bytes) (reads : List HandshakeRead) (mem : Bool)
    (writes : List Nat) (h : (wsHandshake stack reads mem writes).1 = true) :
    ∃ received key, readRequest 50 reads [] = some received ∧
      HasField (bufferText stack received) (ascii "Sec-WebSocket-Key") key ∧
      (wsHandshake stack reads mem writes).2 =
        switchingProtocols (base64Encode (Fips180.sha1 (key ++ wsGuid))) ∧
      ((wsHandshake stack reads mem writes).2 =
          switchingProtocols (base64Encode (Fips180.sha1 (key ++ rfcGuid))) ↔
        Fips180.sha1 (key ++ wsGuid) = Fips180.sha1 (key ++ rfcGuid)) := by
  obtain ⟨received, key, hreceived, hfield, hanswer⟩ := wsHandshake_spec h
  refine ⟨received, key, hreceived, hfield, hanswer, ?_⟩
  rw [hanswer]
  exact switchingProtocols_injective.eq_iff.trans base64Encode_injective.eq_iff

def sampleRequest : Bytes :=
  ascii "GET /chat HTTP/1.1" ++ crlf ++ ascii "Upgrade: websocket" ++ crlf ++
    ascii "Connection: Upgrade" ++ crlf ++
    ascii "Sec-WebSocket-Key: dGhlIHNhbXBsZSBub25jZQ==" ++ crlf ++ crlf

def sampleKey : Bytes := ascii "dGhlIHNhbXBsZSBub25jZQ=="

theorem accept_hashes_key_sample :
    ∃ received key, readRequest 50 [.data sampleRequest] [] = some received ∧
      HasField (bufferText [] received) (ascii "Sec-WebSocket-Key") key ∧
      (wsHandshake [] [.data sampleRequest] true [512]).2 =
        switchingProtocols (base64Encode (Fips180.sha1 (key ++ wsGuid))) := by
  have h : (wsHandshake [] [.data sampleRequest] true [512]).1 = true := by decide +kernel
  obtain ⟨received, key, hreceived, hfield, hanswer, -⟩ := accept_hashes_key _ _ _ _ h
  exact ⟨received, key, hreceived, hfield, hanswer⟩

/-- The sample is accepted, with an answer that is not the one of the protocol. -/
theorem sample_answer_is_wrong :
    (wsHandshake [] [.data sampleRequest] true [512]).1 = true ∧
      acceptedKey (bufferText [] sampleRequest) = some sampleKey ∧
      base64Encode (Fips180.sha1 (sampleKey ++ rfcGuid)) = ascii "s3pPLMBiTxaQ9kYGzzhZRbK+xOo=" ∧
      (wsHandshake [] [.data sampleRequest] true [512]).2 ≠
        switchingProtocols (base64Encode (Fips180.sha1 (sampleKey ++ rfcGuid))) := by
  have hanswer : wsHandshake [] [.data sampleRequest] true [512] =
      (true, switchingProtocols (ascii "VZ/KiVCoWcGfbF5VVwiwrh3OctQ=")) := by decide +kernel
  have hprotocol : base64Encode (Fips180.sha1 (sampleKey ++ rfcGuid)) =
      ascii "s3pPLMBiTxaQ9kYGzzhZRbK+xOo=" := by
    rw [← Sha1.sha1_eq_standard]
    decide +kernel
  rw [hanswer, hprotocol]
  exact ⟨rfl, by decide +kernel, rfl, fun h => absurd (switchingProtocols_injective h) (by decide)⟩

end Smolmux.Ws
