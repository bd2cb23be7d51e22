import Smolmux.Protocol
import Smolmux.Window

/-! The autoresponder (`autoresponder.c`): standing rules that answer a pattern in
the device output. A rule is quiet for a while after it has fired, and a rule
made for one answer is disabled by it. The engine reports the rules that fired;
the broker does the writing. Arrays that have to grow do so. -/

namespace Smolmux

namespace Autoresponder
open Protocol

def maxAutoresponders : Nat := 32

def arResponseMax : Nat := 256

def arWindowBytes : Nat := 8192

def arDefaultCooldownMs : Int := 1000

def arMaxFiredPerFeed : Nat := 8

structure ArRule (ρ : Type) where
  name : Bytes
  pattern : Bytes
  compiled : ρ
  response : Bytes
  once : Bool
  enabled : Bool
  cooldownS : Rat
  lastFireTime : Rat
  createdBy : Bytes

structure ArFired where
  response : Bytes
  name : Bytes
  matchedText : Bytes

end Autoresponder

open Autoresponder in
structure Autoresponder (ρ : Type) where
  rules : List (ArRule ρ)
  window : Window

namespace Autoresponder
open Protocol

variable {ρ : Type}

def autoresponderInit : Autoresponder ρ := ⟨[], ⟨[], arWindowBytes, 0⟩⟩

def autoresponderResetWindow (ar : Autoresponder ρ) : Autoresponder ρ :=
  { ar with window := ar.window.reset }

/-- A rule of a known name is replaced and keeps its place and its owner. -/
def autoresponderAdd (regex : Regex ρ) (ar : Autoresponder ρ) (name pattern response : Bytes)
    (once : Bool) (cooldownMs : Int) : Autoresponder ρ × Bool :=
  if name = [] ∨ pattern = [] then (ar, false)
  else if arResponseMax < response.length then (ar, false)
  else
    match regex.compile pattern with
    | none => (ar, false)
    | some compiled =>
      let cooldown : Int := if 0 < cooldownMs then cooldownMs else arDefaultCooldownMs
      let rule (createdBy : Bytes) : ArRule ρ :=
        ⟨stored 64 name, stored 256 pattern, compiled, response, once, true, cooldown / 1000, 0,
          createdBy⟩
      match ar.rules.findIdx? (·.name == name) with
      | some i => ({ ar with rules := ar.rules.modify i fun r => rule r.createdBy }, true)
      | none =>
        if maxAutoresponders ≤ ar.rules.length then (ar, false)
        else ({ ar with rules := ar.rules ++ [rule []] }, true)

def autoresponderSetOwner (ar : Autoresponder ρ) (name owner : Bytes) : Autoresponder ρ :=
  match ar.rules.findIdx? (·.name == name) with
  | some i => { ar with rules := ar.rules.modify i fun r => { r with createdBy := stored 64 owner } }
  | none => ar

def autoresponderRemove (ar : Autoresponder ρ) (name : Bytes) : Autoresponder ρ × Bool :=
  match ar.rules.findIdx? (·.name == name) with
  | some i => ({ ar with rules := ar.rules.eraseIdx i }, true)
  | none => (ar, false)

def checkRule (regex : Regex ρ) (window : Bytes) (start : Nat) (ts : Rat) (r : ArRule ρ) :
    ArRule ρ × Option ArFired :=
  if r.enabled = false then (r, none)
  else if 0 < r.lastFireTime ∧ ts - r.lastFireTime < r.cooldownS then (r, none)
  else
    let found := regex.exec r.compiled (window.drop start)
    match found.1 with
    | none => ({ r with compiled := found.2 }, none)
    | some off =>
      let line := window.drop (Window.lineStart window (min (start + off) window.length))
      ({ r with
          compiled := found.2
          lastFireTime := ts
          enabled := !r.once },
        some ⟨r.response, r.name, cString (line.take 127)⟩)

def checkRules (regex : Regex ρ) (window : Bytes) (start : Nat) (ts : Rat) :
    (room : Nat) → List (ArRule ρ) → List (ArRule ρ) × List ArFired
  | 0, rules => (rules, [])
  | _, [] => ([], [])
  | room + 1, r :: rules =>
    let c := checkRule regex window start ts r
    match c.2 with
    | none =>
      let rest := checkRules regex window start ts (room + 1) rules
      (c.1 :: rest.1, rest.2)
    | some fired =>
      let rest := checkRules regex window start ts room rules
      (c.1 :: rest.1, fired :: rest.2)

/-- The search goes back to the start of the line that was not complete. -/
def autoresponderFeed (regex : Regex ρ) (ar : Autoresponder ρ) (data : Bytes) (ts : Rat) :
    List ArFired × Autoresponder ρ :=
  if data = [] ∨ ar.rules = [] ∨ ar.window.cap = 0 then ([], ar)
  else
    let w := ar.window.append data
    let start := Window.lineStart w.data w.searchOffset
    let r := checkRules regex w.data start ts arMaxFiredPerFeed ar.rules
    (r.2, { rules := r.1, window := { w with searchOffset := w.data.length } })

end Autoresponder

end Smolmux
