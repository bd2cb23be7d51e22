import Smolmux.Bytes

/-! Telnet streams (RFC 854): data bytes, negotiations of options, subnegotiations and other
commands. A byte 255, IAC, introduces a command, and stands for itself when it is doubled. -/

namespace Smolmux.Telnet
open List

def iac : UInt8 := 255
def se : UInt8 := 240
def sb : UInt8 := 250
def will : UInt8 := 251
def wont : UInt8 := 252
def doOption : UInt8 := 253
def dont : UInt8 := 254

def IsNegotiation (cmd : UInt8) : Prop := cmd = will ∨ cmd = wont ∨ cmd = doOption ∨ cmd = dont

instance (cmd : UInt8) : Decidable (IsNegotiation cmd) := inferInstanceAs (Decidable (_ ∨ _))

/-- The whole elements of a stream. -/
inductive Element where
  | byte (c : UInt8)
  | negotiation (cmd option : UInt8) (h : IsNegotiation cmd)
  | sub (payload : Bytes)
  | command (c : UInt8) (h : c ≠ iac ∧ c ≠ sb ∧ ¬ IsNegotiation c)

def escape (data : Bytes) : Bytes := data.flatMap fun c => if c = iac then [iac, iac] else [c]

def Element.bytes : Element → Bytes
  | .byte c => escape [c]
  | .negotiation cmd option _ => [iac, cmd, option]
  | .sub payload => iac :: sb :: (escape payload ++ [iac, se])
  | .command c _ => [iac, c]

def stream (es : List Element) : Bytes := es.flatMap Element.bytes

def payload (es : List Element) : Bytes :=
  es.filterMap fun
    | .byte c => some c
    | _ => none

theorem stream_append (es fs : List Element) : stream (es ++ fs) = stream es ++ stream fs :=
  flatMap_append

theorem payload_append (es fs : List Element) : payload (es ++ fs) = payload es ++ payload fs :=
  filterMap_append ..

theorem escape_cons (c : UInt8) (data : Bytes) :
    escape (c :: data) = escape [c] ++ escape data := by
  rw [escape, escape, escape, flatMap_cons, flatMap_singleton]

theorem stream_byte (data : Bytes) : stream (data.map .byte) = escape data := by
  induction data with
  | nil => rfl
  | cons c data ih =>
    rw [map_cons, stream, flatMap_cons, escape_cons, ← ih]
    rfl

theorem payload_byte (data : Bytes) : payload (data.map .byte) = data := by
  rw [payload, filterMap_map]
  exact filterMap_some

theorem escape_of_notMem {data : Bytes} (h : iac ∉ data) : escape data = data := by
  induction data with
  | nil => rfl
  | cons c data ih =>
    rw [mem_cons, not_or] at h
    rw [escape, flatMap_cons, if_neg (Ne.symm h.1)]
    exact congrArg (c :: ·) (ih h.2)

end Smolmux.Telnet
