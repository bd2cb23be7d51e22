import Mathlib.Data.List.DropRight
import Smolmux.Protocol
import Smolmux.Window

/-! The anomaly detector (`anomaly.c`): named patterns searched for in a window
over the device output, each with a literal that must occur before the regex is
tried and a time it is quiet after it has fired. Incidents keep the line of the
match and the output before it. Arrays that have to grow do so. -/

namespace Smolmux.Anomaly
open Protocol

def maxAnomalyPatterns : Nat := 64

def maxAnomalyIncidents : Nat := 1024

def maxAnomalyWindow : Nat := 65536

def anomalyContextSize : Nat := 1024

structure AnomalyIncident where
  id : Bytes
  patternName : Bytes
  severity : Bytes
  timestamp : Rat
  matchText : Bytes
  preContext : Bytes

structure AnomalyPattern (ρ : Type) where
  name : Bytes
  severity : Bytes
  literal : Bytes
  compiled : ρ
  lastFireTime : Rat

structure AnomalyDetector (ρ : Type) where
  patterns : List (AnomalyPattern ρ)
  idSeq : Nat
  incidents : List AnomalyIncident
  context : Bytes
  cooldownS : Rat
  window : Window

variable {ρ : Type}

def anomalyInit : AnomalyDetector ρ := ⟨[], 0, [], [], 5, ⟨[], 4096, 0⟩⟩

def anomalyResetWindow (det : AnomalyDetector ρ) : AnomalyDetector ρ :=
  { det with window := det.window.reset }

def isMeta (c : UInt8) : Bool := c ∈ ascii "[(.*+?|\\^$"

def extractLiteralPrefix (pattern : Bytes) (size : Nat) : Bytes :=
  ((pattern.takeWhile (!isMeta ·)).take (size - 1)).rdropWhile (· == 32)

/-- A literal is a list of needles separated by semicolons, one of which has to
occur; a needle longer than 31 bytes is cut. -/
def regionHasLiteral (region literal : Bytes) : Bool :=
  literal = [] ||
    (literal.splitOn 59).any fun needle => needle ≠ [] && decide (needle.take 31 <:+: region)

def anomalyAddPattern (regex : Regex ρ) (det : AnomalyDetector ρ) (name pattern severity : Bytes) :
    AnomalyDetector ρ × Bool :=
  if name = [] then (det, false)
  else
    match regex.compile pattern with
    | none => (det, false)
    | some compiled =>
      let literal := extractLiteralPrefix pattern 48
      match det.patterns.findIdx? (·.name == name) with
      | some i =>
        ({ det with patterns := det.patterns.modify i fun p =>
            { p with
              compiled := compiled
              severity := stored 16 severity
              literal := literal
              lastFireTime := 0 } }, true)
      | none =>
        if maxAnomalyPatterns ≤ det.patterns.length then (det, false)
        else
          ({ det with patterns := det.patterns ++
              [⟨stored 64 name, stored 16 severity, literal, compiled, 0⟩] }, true)

/-- The built-in literal goes to the last pattern of the table. -/
def addBuiltin (regex : Regex ρ) (det : AnomalyDetector ρ)
    (builtin : String × String × String × String) : AnomalyDetector ρ :=
  let (name, pattern, severity, literal) := builtin
  let r := anomalyAddPattern regex det (ascii name) (ascii pattern) (ascii severity)
  if r.2 then
    { r.1 with patterns := r.1.patterns.modify (r.1.patterns.length - 1) fun p =>
        { p with literal := stored 48 (ascii literal) } }
  else r.1

def builtins : List (String × String × String × String) :=
  [("kernel_panic", "Kernel panic", "critical", "Kernel panic"),
   ("oops", "Oops:", "critical", "Oops:"),
   ("hard_fault", "HardFault", "critical", "HardFault"),
   ("segfault", "Segmentation [Ff]ault", "critical", "Segmentation"),
   ("oom_killer", "Out of memory", "critical", "Out of memory"),
   ("stack_trace", "Call [Tt]race:", "warning", "Call "),
   ("watchdog", "watchdog.*reset|wdt.*timeout", "warning", "watchdog;wdt"),
   ("assert_fail", "Assertion.*failed|BUG_ON|BUG:", "warning", "Assertion;BUG_ON;BUG:"),
   ("guru_meditation", "Guru Meditation Error", "critical", "Guru Meditation"),
   ("brownout", "Brownout detector was triggered", "critical", "Brownout"),
   ("panic_abort", "abort\\(\\) was called", "critical", "abort()"),
   ("stack_smashing", "Stack smashing protect", "critical", "Stack smashing"),
   ("task_wdt", "Task watchdog got triggered", "warning", "Task watchdog"),
   ("esp_reset", "rst:0x[0-9a-fA-F]+", "warning", "rst:0x")]

def anomalyAddBuiltins (regex : Regex ρ) (det : AnomalyDetector ρ) : AnomalyDetector ρ :=
  builtins.foldl (addBuiltin regex) det

def keepLast (w : Window) (keep : Nat) : Window :=
  let removed := w.data.length - keep
  { w with data := w.data.drop removed, searchOffset := w.searchOffset - removed }

/-- Make room for `len` bytes: double the capacity as long as its limit allows,
then discard old bytes. -/
def growWindow (len : Nat) : (fuel : Nat) → Window → Window
  | 0, w => w
  | fuel + 1, w =>
    if w.data.length + len < w.cap then w
    else if maxAnomalyWindow < w.cap * 2 then
      if len < w.data.length then keepLast w (min (max (w.cap / 2) len) w.data.length)
      else w.reset
    else growWindow len fuel { w with cap := w.cap * 2 }

/-- The window with new output, which is lost when it can never fit. -/
def fillWindow (w : Window) (data : Bytes) : Window :=
  let trimmed := if 8192 < w.data.length then keepLast w 4096 else w
  let grown := growWindow data.length maxAnomalyWindow.log2 trimmed
  if grown.data.length + data.length < grown.cap then { grown with data := grown.data ++ data }
  else grown

def hexPadded (width n : Nat) : Bytes :=
  let digits := (Nat.toDigits 16 n).map fun c => UInt8.ofNat c.toNat
  List.replicate (width - digits.length) 48 ++ digits

def genId (clock : Nat × Nat) (seq : Nat) : Bytes :=
  stored 16 (hexPadded 8 (clock.1 % 2 ^ 32) ++ hexPadded 4 (clock.2 / 100000 % 2 ^ 16) ++
    hexPadded 2 (seq % 2 ^ 8))

def backtraceLine (text : Bytes) : Option Bytes :=
  ((List.range (text.length - 10)).find? fun o =>
      (text.drop o).take 10 == ascii "Backtrace:").map fun o =>
    (text.drop o).takeWhile fun c => c ≠ 10 && c ≠ 13

/-- The line of the match and what follows it; after a panic of an MCU also its
backtrace, as far as there is room. -/
def matchTextOf (name window : Bytes) (at' : Nat) : Bytes :=
  let text := cString ((window.drop (Window.lineStart window at')).take 255)
  if name = ascii "guru_meditation" ∨ name = ascii "panic_abort" then
    match backtraceLine (window.drop at') with
    | some line =>
      let room := 255 - text.length
      if 4 < room then text ++ ascii " | " ++ cString (line.take (room - 3)) else text
    | none => text
  else text

def checkPattern (regex : Regex ρ) (clock : Nat × Nat) (ts : Rat) (start : Nat)
    (det : AnomalyDetector ρ) (p : AnomalyPattern ρ) : AnomalyPattern ρ × Option AnomalyIncident :=
  let region := det.window.data.drop start
  if 0 < p.lastFireTime ∧ ts - p.lastFireTime < det.cooldownS then (p, none)
  else if regionHasLiteral region p.literal = false then (p, none)
  else
    let scratch := (region.take 4096).map fun c => if c = 0 then 32 else c
    let found := regex.exec p.compiled scratch
    match found.1 with
    | none => ({ p with compiled := found.2 }, none)
    | some off =>
      ({ p with compiled := found.2, lastFireTime := ts },
        some {
          id := genId clock det.idSeq
          patternName := p.name
          severity := p.severity
          timestamp := ts
          matchText := matchTextOf p.name det.window.data (min (start + off) det.window.data.length)
          preContext := cString (det.context.take (anomalyContextSize - 1)) })

/-- A full incident store loses its oldest quarter first. -/
def recordIncident (det : AnomalyDetector ρ) (inc : AnomalyIncident) : AnomalyDetector ρ :=
  let kept := if maxAnomalyIncidents ≤ det.incidents.length then
    det.incidents.drop (maxAnomalyIncidents / 4) else det.incidents
  { det with incidents := kept ++ [inc], idSeq := det.idSeq + 1 }

def scanPatterns (regex : Regex ρ) (clock : Nat → Nat × Nat) (ts : Rat) (start : Nat) :
    (left i found : Nat) → AnomalyDetector ρ → Nat × AnomalyDetector ρ
  | 0, _, found, det => (found, det)
  | left + 1, i, found, det =>
    match det.patterns[i]? with
    | none => (found, det)
    | some p =>
      let r := checkPattern regex (clock found) ts start det p
      let det := { det with patterns := det.patterns.set i r.1 }
      match r.2 with
      | none => scanPatterns regex clock ts start left (i + 1) found det
      | some inc => scanPatterns regex clock ts start left (i + 1) (found + 1) (recordIncident det inc)

def anomalyFeed (regex : Regex ρ) (clock : Nat → Nat × Nat) (det : AnomalyDetector ρ)
    (data : Bytes) (ts : Rat) : Nat × AnomalyDetector ρ :=
  if data = [] then (0, det)
  else
    let seen := det.context ++ data
    let det := { det with
      window := fillWindow det.window data
      context := seen.drop (seen.length - anomalyContextSize) }
    let r := scanPatterns regex clock ts (det.window.searchOffset - 256) det.patterns.length 0 0 det
    (r.1, { r.2 with window := { r.2.window with searchOffset := r.2.window.data.length } })

end Smolmux.Anomaly
