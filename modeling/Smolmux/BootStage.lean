import Mathlib.Data.Rat.Defs
import Smolmux.Window

/-! The boot tracker (`boot_stage.c`): ordered stages of a boot, each reached when
its marker shows up in the device output. A marker of the first stage in new
output after later stages were reached means that the device starts over. -/

namespace Smolmux

structure BootStage (ρ : Type) where
  name : Bytes
  pattern : Bytes
  compiled : ρ
  reached : Bool
  announced : Bool
  reachedTs : Rat

namespace BootStage

def maxBootStages : Nat := 32

def bootWindowBytes : Nat := 8192

structure BootTracker (ρ : Type) where
  stages : List (BootStage ρ)
  furthest : Int
  lastAdvanceTs : Rat
  stallTimeoutS : Rat
  window : Window

variable {ρ : Type}

def bootInit : BootTracker ρ := ⟨[], -1, 0, 10, ⟨[], bootWindowBytes, 0⟩⟩

def bootAddStage (regex : Regex ρ) (t : BootTracker ρ) (name pattern : Bytes) :
    BootTracker ρ × Bool :=
  if maxBootStages ≤ t.stages.length then (t, false)
  else
    match regex.compile pattern with
    | none => (t, false)
    | some compiled =>
      ({ t with stages := t.stages ++
          [⟨stored 64 name, stored 256 pattern, compiled, false, false, 0⟩] }, true)

def bootReset (t : BootTracker ρ) : BootTracker ρ :=
  { t with
    stages := t.stages.map fun s => { s with reached := false, announced := false, reachedTs := 0 }
    furthest := -1
    lastAdvanceTs := 0 }

def bootRestart (t : BootTracker ρ) : BootTracker ρ :=
  { bootReset t with window := t.window.reset }

/-- A new boot is recognised in the bytes that were not searched before; what
came before its marker is dropped. -/
def detectReboot (regex : Regex ρ) (t : BootTracker ρ) : BootTracker ρ :=
  match t.stages with
  | [] => t
  | s :: rest =>
    if t.furthest < 1 then t
    else
      let w := t.window
      let found := regex.exec s.compiled (w.data.drop w.searchOffset)
      let t := { t with stages := { s with compiled := found.2 } :: rest }
      match found.1 with
      | none => t
      | some off =>
        bootReset { t with
          window := { w with data := w.data.drop (w.searchOffset + off), searchOffset := 0 } }

/-- The loop over the stages from index `i` on; the number of stages newly
reached, the stages and the furthest index. -/
def reachStages (regex : Regex ρ) (region : Bytes) (ts : Rat) : (i : Nat) → (furthest : Int) →
    List (BootStage ρ) → Nat × List (BootStage ρ) × Int
  | _, furthest, [] => (0, [], furthest)
  | i, furthest, s :: rest =>
    if s.reached then
      let r := reachStages regex region ts (i + 1) furthest rest
      (r.1, s :: r.2.1, r.2.2)
    else
      let found := regex.exec s.compiled region
      match found.1 with
      | none =>
        let r := reachStages regex region ts (i + 1) furthest rest
        (r.1, { s with compiled := found.2 } :: r.2.1, r.2.2)
      | some _ =>
        let r := reachStages regex region ts (i + 1) (max furthest i) rest
        (r.1 + 1, { s with compiled := found.2, reached := true, reachedTs := ts } :: r.2.1, r.2.2)

def bootFeed (regex : Regex ρ) (t : BootTracker ρ) (data : Bytes) (ts : Rat) :
    Nat × BootTracker ρ :=
  if data = [] ∨ t.stages = [] ∨ t.window.cap = 0 then (0, t)
  else
    let t := detectReboot regex { t with window := t.window.append data }
    let region := t.window.data.drop (t.window.searchOffset - 256)
    let r := reachStages regex region ts 0 t.furthest t.stages
    (r.1, { t with
      stages := r.2.1
      furthest := r.2.2
      lastAdvanceTs := if r.1 = 0 then t.lastAdvanceTs else ts
      window := { t.window with searchOffset := t.window.data.length } })

def bootTerminalReached (t : BootTracker ρ) : Bool :=
  match t.stages.getLast? with
  | none => false
  | some s => s.reached

def bootStalled (t : BootTracker ρ) (now : Rat) : Bool :=
  t.stages ≠ [] && decide (0 ≤ t.furthest) && decide (0 < t.stallTimeoutS) &&
    decide (0 < t.lastAdvanceTs) && !bootTerminalReached t &&
    decide (t.stallTimeoutS < now - t.lastAdvanceTs)

end BootStage

end Smolmux
