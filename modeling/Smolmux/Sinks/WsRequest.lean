import Mathlib.Algebra.Ring.Nat
import Mathlib.Data.Nat.Find
import Smolmux.Base64Buffers
import Smolmux.Sinks.WsHandshake

/-! What a request can make the handshake do: which origins it lets pass, and which bytes of
its buffer it looks at. -/

namespace Smolmux.Ws
open Protocol List

variable {text : Bytes} {j : Nat} {name : Bytes} {left : Nat}

def localHosts : List Bytes :=
  [ascii "http://localhost", ascii "http://127.0.0.1", ascii "http://[::1]"]

def isLocalOrigin (value : Bytes) : Bool :=
  localHosts.any fun host =>
    host.isPrefixOf value && match value.drop host.length with
      | [] => true
      | c :: port => c == colon && port.all isDigit

def HasFieldNamed (text name value : Bytes) : Prop :=
  ∃ spelled : Bytes, spelled.map toLower = name.map toLower ∧ HasField text spelled value

def FieldAt (text name : Bytes) (j : Nat) : Prop :=
  (j = 0 ∨ text.getD (j - 1) 0 = newline) ∧ name ++ [colon] <+: text.drop j

instance (text name : Bytes) (j : Nat) : Decidable (FieldAt text name j) := by
  unfold FieldAt
  infer_instance

structure FirstField (text name value : Bytes) (j : Nat) : Prop where
  here : FieldAt text name j
  first : ∀ i < j, ¬FieldAt text name i
  value : ∃ back, (text.drop (j + name.length + 1)).dropWhile (· == blank) = value ++ back ∧
    ¬crlf <:+: value ∧ (back = [] ∨ crlf <+: back)

theorem firstAt_le {word : Bytes} (h : word <+: text.drop j) :
    ∃ k ≤ j, firstAt word text = some k := by
  obtain ⟨k, hk⟩ := Option.isSome_iff_exists.mp ((firstAt_isSome word text).mpr
    (h.isInfix.trans (drop_suffix j text).isInfix))
  exact ⟨k, Nat.le_of_not_lt fun hlt => (firstAt_spec hk).2 j hlt h, hk⟩

theorem apart (hname : ∀ d < name.length, 0 < d → ¬name.drop d <+: name) {i : Nat}
    (hi : name <+: text.drop i) (hj : name <+: text.drop j) (hlt : i < j) :
    i + name.length ≤ j := by
  by_contra hclose
  obtain ⟨rest, hrest⟩ := hi
  have hdrop : text.drop j = name.drop (j - i) ++ rest := by
    rw [show j = i + (j - i) by omega, ← drop_drop, ← hrest, Nat.add_sub_cancel_left,
      drop_append_of_le_length (by omega)]
  rw [hdrop] at hj
  exact hname (j - i) (by omega) (by omega)
    (prefix_of_prefix_length_le (prefix_append ..) hj (by simp))

theorem colon_iff {q : Nat} (h : name <+: text.drop q) :
    name ++ [colon] <+: text.drop q ↔ text.getD (q + name.length) 0 = colon := by
  obtain ⟨rest, hrest⟩ := h
  have hget : text.getD (q + name.length) 0 = rest.getD 0 0 := by
    rw [getD_eq_getElem?_getD, ← getElem?_drop, ← hrest, getElem?_append_right
      (Nat.le_refl _), Nat.sub_self, getD_eq_getElem?_getD]
  rw [← hrest, hget, prefix_append_right_inj]
  cases rest with
  | nil => simp [colon]
  | cons c rest => simp [eq_comm]

theorem valueStart_first (hlong : 0 < name.length)
    (hname : ∀ d < name.length, 0 < d → ¬name.drop d <+: name) (hhere : FieldAt text name j)
    (hfirst : ∀ i < j, ¬FieldAt text name i) {p : Nat} (hp : p ≤ j) (hleft : j < p + left) :
    valueStart text name left p = some (j + name.length + 1 +
      ((text.drop (j + name.length + 1)).takeWhile (· == blank)).length) := by
  have hfound : name <+: text.drop j := (prefix_append name [colon]).trans hhere.2
  induction left generalizing p with
  | zero => omega
  | succ left ih =>
    obtain ⟨k, hk, hat⟩ := firstAt_le (show name <+: (text.drop p).drop (j - p) by
      rwa [drop_drop, Nat.add_sub_cancel' hp])
    have hname' : name <+: text.drop (p + k) := drop_drop .. ▸ (firstAt_spec hat).1
    rw [valueStart, hat]
    dsimp only
    rcases Nat.lt_or_eq_of_le (show p + k ≤ j by omega) with hlt | heq
    · have hnext := ih (p := p + k + name.length) (apart hname hname' hfound hlt) (by omega)
      split_ifs with hline hcolon
      · exact hnext
      · refine absurd ⟨?_, (colon_iff hname').mpr hcolon⟩ (hfirst (p + k) hlt)
        simpa [Classical.or_iff_not_imp_left] using hline
      · exact hnext
    · rw [heq, if_neg (by simpa [Classical.or_iff_not_imp_left] using hhere.1),
        if_pos ((colon_iff hfound).mp hhere.2)]

theorem firstAt_value {value back : Bytes} (hvalue : ¬crlf <:+: value)
    (hback : back = [] ∨ crlf <+: back) :
    (firstAt crlf (value ++ back)).getD (value ++ back).length = value.length := by
  induction value with
  | nil =>
    rcases hback with rfl | ⟨rest, rfl⟩
    · rfl
    · rfl
  | cons c value ih =>
    have hhere : crlf.isPrefixOf (c :: (value ++ back)) = false := by
      rw [← Bool.not_eq_true, isPrefixOf_iff_prefix]
      intro h
      cases value with
      | nil =>
        rcases hback with rfl | ⟨rest, rfl⟩ <;> simp [crlf] at h
      | cons d value =>
        refine hvalue (List.IsPrefix.isInfix ?_)
        simpa [crlf] using h
    have hrest := ih fun h => hvalue (h.trans (suffix_cons c value).isInfix)
    rw [cons_append, firstAt, hhere]
    cases hfirst : firstAt crlf (value ++ back) with
    | none => simpa [hfirst] using hrest
    | some k => simpa [hfirst] using hrest

theorem findHeader_first {value : Bytes} (hlong : 0 < name.length)
    (hname : ∀ d < name.length, 0 < d → ¬name.drop d <+: name) (h : FirstField text name value j) :
    ∃ back, findHeader text name = some (value ++ back, value.length) := by
  obtain ⟨back, hdrop, hinside, hend⟩ := h.value
  have hin : j < text.length := by
    have := h.here.2.length_le
    simp only [length_append, length_drop, length_singleton] at this
    omega
  have hrest : text.drop (j + name.length + 1 +
      ((text.drop (j + name.length + 1)).takeWhile (· == blank)).length) = value ++ back := by
    rw [← drop_drop, drop_takeWhile_length, hdrop]
  refine ⟨back, ?_⟩
  rw [findHeader, valueStart_first hlong hname h.here h.first (Nat.zero_le j) (by omega)]
  simp only [Option.map_some, hrest, firstAt_value hinside hend]

theorem isOrigin_value (value back host : Bytes) :
    isOrigin (value ++ back) value.length host = isOrigin value value.length host := by
  by_cases hle : host.length ≤ value.length
  · have hstart : host.isPrefixOf (value ++ back) = host.isPrefixOf value := by
      rw [Bool.eq_iff_iff, isPrefixOf_iff_prefix, isPrefixOf_iff_prefix]
      exact ⟨fun h => prefix_of_prefix_length_le h (prefix_append ..) hle,
        fun h => h.trans (prefix_append ..)⟩
    unfold isOrigin
    rw [hstart]
    by_cases hlength : value.length = host.length
    · simp [hlength]
    · rw [getD_append _ _ _ _ (by omega)]
  · simp [isOrigin, hle]

theorem originAllowed_value (value back : Bytes) :
    originAllowed (some (value ++ back, value.length)) = originAllowed (some (value, value.length)) := by
  simp only [originAllowed, isOrigin_value]

theorem HasField.fieldAt {value : Bytes} (h : HasField text name value) : ∃ j, FieldAt text name j := by
  obtain ⟨front, blanks, back, rfl, hfront, -⟩ := h.field
  refine ⟨front.length, ?_, ?_⟩
  · rcases hfront with rfl | hlast
    · exact .inl rfl
    · right
      obtain ⟨init, rfl⟩ := getLast?_eq_some_iff.mp hlast
      simp
  · simp only [append_assoc, drop_left]
    exact ⟨blanks ++ (value ++ back), by simp⟩

theorem FieldAt.first (h : ∃ j, FieldAt text name j) : ∃ value j, FirstField text name value j := by
  have hend := take_value ((text.drop (Nat.find h + name.length + 1)).dropWhile (· == blank))
  exact ⟨_, Nat.find h, Nat.find_spec h, fun i hi => Nat.find_min h hi, _,
    (take_append_drop _ _).symm, hend⟩

/-- The first field with the name spelled so has an origin that does not begin with a host of this
machine and then a slash, a colon or its end. -/
def ForeignFirst (text : Bytes) : Prop :=
  ∃ value j, FirstField text (ascii "Origin") value j ∧
    originAllowed (some (value, value.length)) = false

theorem originAllowed_iff :
    originAllowed (findHeader text (ascii "Origin")) = false ↔ ForeignFirst text := by
  have hfound {value : Bytes} {j : Nat} (h : FirstField text (ascii "Origin") value j) :
      originAllowed (findHeader text (ascii "Origin")) =
        originAllowed (some (value, value.length)) := by
    obtain ⟨back, hback⟩ := findHeader_first (by decide) (by decide) h
    rw [hback, originAllowed_value]
  constructor
  · intro h
    cases hheader : findHeader text (ascii "Origin") with
    | none => simp [hheader, originAllowed] at h
    | some r =>
      obtain ⟨value, j, hfirst⟩ := FieldAt.first (findHeader_spec hheader).fieldAt
      exact ⟨value, j, hfirst, (hfound hfirst).symm.trans h⟩
  · rintro ⟨value, j, hfirst, hvalue⟩
    exact (hfound hfirst).trans hvalue

/-- The checks other than that of the origin. -/
structure Upgrades (text : Bytes) : Prop where
  ended : crlf ++ crlf <:+: text
  get : (ascii "GET ").isPrefixOf text = true
  upgrade : isUpgrade (findHeader text (ascii "Upgrade")) = true
  connection : namesUpgrade (findHeader text (ascii "Connection")) = true
  key : ∃ value len, findHeader text (ascii "Sec-WebSocket-Key") = some (value, len) ∧
    16 ≤ len ∧ len ≤ 128

theorem acceptedKey_none_iff : acceptedKey text = none ↔ ForeignFirst text ∨ ¬ Upgrades text := by
  rw [← originAllowed_iff]
  by_cases horigin : originAllowed (findHeader text (ascii "Origin")) = false
  · refine iff_of_true ?_ (.inl horigin)
    unfold acceptedKey
    split_ifs <;> rfl
  rw [or_iff_right horigin]
  constructor
  · intro hnone h
    obtain ⟨value, len, hkey, hlong, hshort⟩ := h.key
    have hlength : ¬ (len < 16 ∨ 128 < len) := by omega
    simp [acceptedKey, h.ended, h.get, h.upgrade, h.connection, horigin, hkey, hlength] at hnone
  · intro h
    by_contra hsome
    obtain ⟨key, hkey⟩ := Option.ne_none_iff_exists'.mp hsome
    unfold acceptedKey at hkey
    split_ifs at hkey with hended hget hupgrade hconnection
    split at hkey
    · cases hkey
    next value len hfound =>
      split_ifs at hkey with hlength
      exact h ⟨hended, by simpa using hget, by simpa using hupgrade, by simpa using hconnection,
        value, len, hfound, by omega, by omega⟩

theorem writeResponse_iff (writes : List Nat) (resp : Bytes) :
    (writeResponse writes resp).1 = true ↔ resp.length ≤ (writes.takeWhile (· != 0)).sum := by
  induction writes generalizing resp with
  | nil => cases resp <;> simp [writeResponse]
  | cons w writes ih =>
    cases resp with
    | nil => simp [writeResponse]
    | cons c resp =>
      by_cases hw : w = 0
      · simp [writeResponse, hw]
      · simp only [writeResponse, if_neg hw, ih, length_drop]
        rw [takeWhile_cons_of_pos (by simpa using hw), sum_cons]
        omega

/-- A request with a foreign origin is refused, in each of the ways to spell and to repeat the
field, just when it has none, its first one is found and seen to be foreign, another check fails,
or the response is not written. -/
theorem foreign_origin_refused (stack : Bytes) (reads : List HandshakeRead) (mem : Bool)
    (writes : List Nat) (received : Bytes) (hread : readRequest 50 reads [] = some received) :
    let text := bufferText stack received
    (∀ value, HasFieldNamed text (ascii "Origin") value → isLocalOrigin value = false →
      (wsHandshake stack reads mem writes).1 = false) ↔
      (∀ value, HasFieldNamed text (ascii "Origin") value → isLocalOrigin value = true) ∨
        ForeignFirst text ∨ ¬ Upgrades text ∨ mem = false ∨
        (writes.takeWhile (· != 0)).sum < 129 := by
  intro text
  have hrefused : (wsHandshake stack reads mem writes).1 = false ↔
      ForeignFirst text ∨ ¬ Upgrades text ∨ mem = false ∨
        (writes.takeWhile (· != 0)).sum < 129 := by
    rw [wsHandshake, hread, Option.bind_some, ← or_assoc, ← acceptedKey_none_iff]
    cases hkey : acceptedKey text with
    | none => simp
    | some key =>
      cases mem with
      | false => simp
      | true =>
        have hlength : (switchingProtocols (acceptValue key)).length = 129 := by
          rw [length_switchingProtocols, acceptValue_eq (acceptedKey_spec hkey).2,
            Base64.base64Encode_length, length_standard]
        have hwritten := writeResponse_iff writes (switchingProtocols (acceptValue key))
        rw [hlength] at hwritten
        simp [stored_fits (show _ < 512 by rw [hlength]; decide), ← Bool.not_eq_true, hwritten]
  rw [hrefused]
  constructor
  · intro h
    by_cases hlocal : ∀ value, HasFieldNamed text (ascii "Origin") value → isLocalOrigin value = true
    · exact .inl hlocal
    · push Not at hlocal
      obtain ⟨value, hvalue, hforeign⟩ := hlocal
      exact .inr (h value hvalue (by simpa using hforeign))
  · rintro (hlocal | h) value hvalue hforeign
    · simp [hlocal value hvalue] at hforeign
    · exact h

def requestWith (fields : Bytes) : Bytes :=
  ascii "GET /chat HTTP/1.1" ++ crlf ++ fields ++ crlf ++ sampleRequest.drop 20

theorem foreign_origin_refused_sample :
    let request := requestWith (ascii "Origin: http://evil.example")
    ∀ value, HasFieldNamed (bufferText [] request) (ascii "Origin") value →
      isLocalOrigin value = false → (wsHandshake [] [.data request] true [512]).1 = false :=
  (foreign_origin_refused [] _ true [512] (requestWith (ascii "Origin: http://evil.example"))
    (by decide +kernel)).mpr (.inr (.inl ⟨ascii "http://evil.example", 20,
      ⟨by decide +kernel, by decide +kernel, _, rfl, by decide +kernel, .inr (by decide +kernel)⟩,
      by decide +kernel⟩))

/-- Requests with a foreign origin that are accepted: the name is spelled in small letters, the
foreign origin is the second one, or the host of this machine is the user of another one. -/
theorem foreign_origins_accepted :
    let small := requestWith (ascii "origin: http://evil.example")
    let second := requestWith (ascii "Origin: http://localhost" ++ crlf ++
      ascii "Origin: http://evil.example")
    let user := requestWith (ascii "Origin: http://localhost:80@evil.example")
    HasFieldNamed small (ascii "Origin") (ascii "http://evil.example") ∧
      isLocalOrigin (ascii "http://evil.example") = false ∧
      isLocalOrigin (ascii "http://localhost:80@evil.example") = false ∧
      ∀ request ∈ [small, second, user], (wsHandshake [] [.data request] true [512]).1 = true := by
  refine ⟨⟨ascii "origin", by decide, ⟨requestWith [] |>.take 20, [blank], _, rfl, ?_⟩⟩, ?_⟩
  · decide +kernel
  · decide +kernel

variable {received : Bytes}

def requestBuffer (received : Bytes) : Buffer UInt8 :=
  if received = [] then .alloc 4096 else .filled (received ++ [0]) 4096

def textOf : List (Option UInt8) → Option Bytes
  | [] => none
  | none :: _ => none
  | some c :: cells => if c = 0 then some [] else (textOf cells).map (c :: ·)

/-- What is in the buffer each time the handshake searches it. -/
def searched : (left : Nat) → List HandshakeRead → (received : Bytes) → List Bytes
  | 0, _, received => [received]
  | _, [], received => [received]
  | left + 1, .quiet :: reads, received => searched left reads received
  | _, .failed :: _, _ => []
  | left + 1, .data bytes :: reads, received =>
    let new := bytes.take (4096 - received.length - 1)
    if new = [] then []
    else if crlf ++ crlf <:+: cString (received ++ new) then [received ++ new]
    else (received ++ new) :: searched left reads (received ++ new)

theorem textOf_received (received : Bytes) (rest : List (Option UInt8)) :
    textOf ((received ++ [0]).map some ++ rest) = some (cString received) := by
  induction received with
  | nil => rfl
  | cons c received ih =>
    by_cases hc : c = 0
    · simp [textOf, cString, hc]
    · simp only [cons_append, map_cons, textOf, hc, if_false, ih]
      simp [cString, hc]

theorem mem_searched {reads : List HandshakeRead} {last : Bytes}
    (h : readRequest left reads received = some last) : last ∈ searched left reads received := by
  fun_induction searched left reads received with
  | case1 | case2 => simp_all [readRequest]
  | case3 left reads received ih => exact ih h
  | case4 => simp [readRequest] at h
  | case5 left received bytes reads new hnew => simp [readRequest, new, hnew] at h
  | case6 left received bytes reads new hnew hend =>
    rw [readRequest, if_neg hnew, if_pos hend, Option.some.injEq] at h
    exact h ▸ mem_singleton_self _
  | case7 left received bytes reads new hnew hend ih =>
    rw [readRequest, if_neg hnew, if_neg hend] at h
    exact mem_cons_of_mem _ (ih h)

theorem grown {bytes : Bytes} (h : bytes.take (4096 - received.length - 1) ≠ []) :
    received ++ bytes.take (4096 - received.length - 1) ≠ [] ∧
      (received ++ bytes.take (4096 - received.length - 1)).length < 4096 := by
  have hpos := length_pos_of_ne_nil h
  rw [length_take] at hpos
  refine ⟨fun hnil => h (append_eq_nil_iff.mp hnil).2, ?_⟩
  rw [length_append, length_take]
  omega

theorem searched_received {reads : List HandshakeRead}
    (hsome : received ≠ [] ∨ ∃ r ∈ reads.take left, r ≠ .quiet) (hroom : received.length < 4096) :
    ∀ text ∈ searched left reads received, text ≠ [] ∧ text.length < 4096 := by
  fun_induction searched left reads received with
  | case1 | case2 => simp_all
  | case3 left reads received ih =>
    refine ih (hsome.imp_right ?_) hroom
    rintro ⟨r, hr, hne⟩
    exact ⟨r, (mem_cons.mp hr).resolve_left hne, hne⟩
  | case4 | case5 => nofun
  | case6 left received bytes reads new hnew hend =>
    rintro text htext
    rw [mem_singleton.mp htext]
    exact grown hnew
  | case7 left received bytes reads new hnew hend ih =>
    have hgrown := grown hnew
    exact forall_mem_cons.mpr ⟨hgrown, ih (.inl hgrown.1) hgrown.2⟩

/-- As soon as anything comes in during the fifty polls, a search meets only what was read and
the NUL behind it, and the stack does not matter. -/
theorem only_received_searched (reads : List HandshakeRead)
    (h : ∃ r ∈ reads.take 50, r ≠ .quiet) :
    (∀ received ∈ searched 50 reads [], received.length < 4096 ∧
      textOf (requestBuffer received).cells = some (cString received)) ∧
    ∀ stack stack' mem writes,
      wsHandshake stack reads mem writes = wsHandshake stack' reads mem writes := by
  have hall := searched_received (.inr h) (show ([] : Bytes).length < 4096 by decide)
  constructor
  · intro received hmem
    obtain ⟨hne, hroom⟩ := hall received hmem
    rw [requestBuffer, if_neg hne]
    exact ⟨hroom, textOf_received received _⟩
  · intro stack stack' mem writes
    unfold wsHandshake
    cases hread : readRequest 50 reads [] with
    | none => rfl
    | some received =>
      have hne := (hall received (mem_searched hread)).1
      simp only [Option.bind_some, bufferText, hne, if_false]

theorem only_received_searched_sample :
    textOf (requestBuffer sampleRequest).cells = some (cString sampleRequest) :=
  ((only_received_searched [.data sampleRequest] ⟨_, mem_cons_self, nofun⟩).1 sampleRequest
    (by decide +kernel)).2

/-- A client that sends nothing: the buffer is searched before anything is in it, and an old
request on the stack is accepted. -/
theorem silent_client_reads_stack :
    searched 50 [] [] = [[]] ∧ textOf (requestBuffer []).cells = none ∧
      (wsHandshake sampleRequest [] true [512]).1 = true ∧
      (wsHandshake [] [] true [512]).1 = false := by
  decide +kernel

end Smolmux.Ws
