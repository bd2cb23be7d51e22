import Smolmux.Broker.Link

/-! Authorisation, the hello of a client, takeover and release. -/

namespace Smolmux.Broker
open Protocol List

variable {ρ : Type}

def brokerVersion : Bytes := ascii "0.5.2"

/-- Comparison in constant time: differences are collected, over the longer of
the two lengths. -/
def ctStrEqual (a b : Bytes) : Bool :=
  let start : UInt8 := if a.length ≠ b.length then 1 else 0
  let diff := (List.range (max a.length b.length)).foldl
    (fun diff i => diff ||| (a.getD i 0 ^^^ b.getD i 0)) start
  diff == 0

theorem foldl_or_eq_zero (f : Nat → UInt8) (xs : List Nat) (d : UInt8) :
    xs.foldl (fun diff i => diff ||| f i) d = 0 ↔ d = 0 ∧ ∀ i ∈ xs, f i = 0 := by
  induction xs generalizing d with
  | nil => simp
  | cons x xs ih =>
    rw [foldl_cons, ih, UInt8.or_eq_zero_iff, forall_mem_cons, and_assoc]

theorem ctStrEqual_iff (a b : Bytes) : ctStrEqual a b ↔ a = b := by
  rw [ctStrEqual, beq_iff_eq, foldl_or_eq_zero]
  constructor
  · intro ⟨hlen, hall⟩
    have hlen : a.length = b.length := by
      by_contra h
      simp [h] at hlen
    apply ext_getElem hlen
    intro i ha hb
    have h := hall i (mem_range.mpr (by omega))
    rw [UInt8.xor_eq_zero_iff] at h
    simpa [getD_eq_getElem?_getD, ha, hb] using h
  · rintro rfl
    simp

def tokenAccepted (b : Broker ρ) (c : Client) (root : Json) : Bool :=
  if c.requiresAuth ∧ b.authToken ≠ [] then
    match root.getString "token" with
    | some token => ctStrEqual token b.authToken
    | none => false
  else true

def giveWay (a : Addr) (name : Bytes) (old : Client) : Bool :=
  old.addr ≠ a && old.helloReceived && old.name ≠ [] && old.name == name

def replaceAt (a : Addr) (name : Bytes) (i : Nat) : M ρ Unit := do
  match (← Proc.get).clients[i]? with
  | some old => if giveWay a name old then removeClient old.addr else pure ()
  | none => pure ()

def replaceOlder (a : Addr) (name : Bytes) : (i : Nat) → M ρ Unit
  | 0 => pure ()
  | i + 1 => do
    replaceAt a name i
    replaceOlder a name i

def helloRole (root : Json) : Option (Option Role) :=
  match root.getString "role" with
  | none => some none
  | some text => (Role.ofText text).map some

def versionMatches (root : Json) : Bool :=
  match root.getNumber "protocol_version" with
  | some version => Json.valueInt version == protocolVersion
  | none => false

def Client.admitted (role : Option Role) (c : Client) : Client :=
  { c with role := role.getD c.role, helloReceived := true }

def welcome (a : Addr) : M ρ Unit := do
  let b ← Proc.get
  match b.clientAt a with
  | none => pure ()
  | some c => do
    Proc.when (c.name ≠ []) (replaceOlder a c.name b.clients.length)
    sendToClient a (msgWelcome brokerVersion b.port b.baudrate c.role.text)

def acceptHello (a : Addr) (role : Option Role) : M ρ Unit := do
  updateClient a (Client.admitted role)
  welcome a

/-- The wrong token: the connection ends once its messages have been looked at. -/
def refuseHello (a : Addr) : M ρ Unit := do
  sendError a none "authentication failed"
  let _ ← flushClient a
  updateClient a fun c => { c with disconnected := true }

def handleHello (c : Client) (root : Json) : M ρ Unit := do
  let b ← Proc.get
  if c.helloReceived then sendError c.addr none "hello already received"
  else if tokenAccepted b c root = false then refuseHello c.addr
  else
    match helloRole root with
    | none => sendError c.addr none "invalid role"
    | some role => do
      updateClient c.addr fun c => { c with name := (root.getString "name").elim c.name (stored 64) }
      if versionMatches root then acceptHello c.addr role
      else sendError c.addr none "protocol version mismatch"

def handleTakeover (c : Client) (root : Json) : M ρ Unit := do
  let id := root.getString "id"
  let b ← Proc.get
  if c.role = .observer then sendError c.addr id "observers cannot take over"
  else if b.takeoverClient.isSome ∧ b.takeoverClient ≠ some c.addr then
    sendError c.addr id "another client has takeover"
  else do
    Proc.modify fun b => { b with takeoverClient := some c.addr }
    sendToClient c.addr (msgAck "takeover" id)

def handleRelease (c : Client) (root : Json) : M ρ Unit := do
  let id := root.getString "id"
  Proc.modify fun b =>
    { b with
      takeoverClient := if b.takeoverClient = some c.addr then none else b.takeoverClient }
  sendToClient c.addr (msgAck "release" id)

def requireSend (c : Client) (id : Option Bytes) (refusal : String) (act : M ρ Unit) :
    M ρ Unit := do
  if (← Proc.get).canSend c.addr then act else sendError c.addr id refusal

end Smolmux.Broker
