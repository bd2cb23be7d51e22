import Smolmux.Mcp.GdbTools

/-! The session of `gdb_mcp.c`: records of gdb arrive while a tool waits and between two
tools, and a stop is kept for `gdb_wait_stop`. Lines come from the parser, and the time
limits of the waits decide how many rounds they have. -/

namespace Smolmux.Mcp
open Protocol

inductive MiType
  | result | execAsync | statusAsync | notifyAsync | console | target | log | prompt | unknown
  deriving DecidableEq

structure MiRecord where
  type : MiType
  token : Int
  cls : Bytes
  results : Option Json
  streamData : Option Bytes

inductive MiLine
  | record (r : MiRecord)
  | raw (text : Bytes)

structure Stop where
  reason : Bytes
  func : Bytes
  file : Bytes
  line : Bytes
  signal : Bytes
  signalMeaning : Bytes
  deriving DecidableEq

def noStop : Stop := ⟨[], [], [], [], [], []⟩

def stopOf (results : Option Json) : Stop :=
  let frame := results.bind fun j => itemAnyCase j "frame"
  { reason := stored 64 (jstr results "reason" [])
    func := stored 128 (jstr frame "func" [])
    file := stored 256 (jstr frame "file" [])
    line := stored 16 (jstr frame "line" [])
    signal := stored 32 (jstr results "signal-name" [])
    signalMeaning := stored 160 (jstr results "signal-meaning" []) }

/-- One pass of a loop that pumps the broker: its time is over, `poll` fails, or lines come
in, and then the connection and the process may be over or not. -/
inductive Pump
  | expired
  | failed
  | got (lines : List MiLine) (running : Bool)

/-- What happens around one command or one wait: can the command be written, and the passes
of the loop up to its time limit. -/
structure Talk where
  sendOk : Bool
  pumps : List Pump

/-- What the session goes through; `sent` is a command without its token, `restarted` and
`halted` are the ends of a reset, `waited` is what `gdb_wait_stop` finds. -/
inductive Note
  | sent (cmd : Bytes)
  | arrived (stop : Stop)
  | restarted
  | halted
  | waited (answer : Option Stop)
  deriving DecidableEq

/-- `talks` are the surroundings of the commands and waits to come, and `log` has what has
happened, newest first. -/
structure GdbState where
  running : Bool
  nextToken : Nat
  pendingToken : Nat
  haveResult : Bool
  result : Option Json
  resultClass : Bytes
  targetRunning : Bool
  haveStopped : Bool
  stop : Stop
  console : Bytes
  talks : List Talk
  log : List Note

def GdbState.note (s : GdbState) (n : Note) : GdbState := { s with log := n :: s.log }

def gdbConsoleMax : Nat := 256 * 1024

def consoleAppend (s : GdbState) (text : Bytes) : GdbState :=
  { s with console := (if gdbConsoleMax < s.console.length then [] else s.console) ++ text }

def handleMiRecord (s : GdbState) (r : MiRecord) : GdbState :=
  match r.type with
  | .result =>
    if s.pendingToken ≠ 0 ∧ r.token = s.pendingToken then
      { s with
        result := r.results
        resultClass := stored 32 r.cls
        haveResult := true
        pendingToken := 0 }
    else s
  | .execAsync =>
    if r.cls = ascii "stopped" then
      { s with
        targetRunning := false
        haveStopped := true
        stop := stopOf r.results
        log := .arrived (stopOf r.results) :: s.log }
    else if r.cls = ascii "running" then { s with targetRunning := true }
    else s
  | .console | .target | .log =>
    match r.streamData with
    | some text => consoleAppend s text
    | none => s
  | _ => s

def takeLine (s : GdbState) : MiLine → GdbState
  | .record r => if r.type = .prompt then s else handleMiRecord s r
  | .raw text => if text = [] then s else consoleAppend (consoleAppend s text) [newline]

/-- The loops of `gdb_mi_command` and `tool_wait_stop`, up to what they wait for. -/
def pumpUntil (ready : GdbState → Bool) : List Pump → GdbState → GdbState
  | [], s => s
  | pump :: pumps, s =>
    if s.running = false ∨ ready s = true then s
    else
      match pump with
      | .expired | .failed => s
      | .got lines running =>
        pumpUntil ready pumps { lines.foldl takeLine s with running := running }

def GdbState.talk (s : GdbState) : Talk := s.talks.headD ⟨false, []⟩

def nextCommand (s : GdbState) : GdbState :=
  { s with
    result := none
    haveResult := false
    nextToken := followingToken s.nextToken
    pendingToken := s.nextToken
    talks := s.talks.tail }

def miCommand (s : GdbState) (cmd : Bytes) : GdbState × Option MiReply :=
  if s.talk.sendOk = false then ({ nextCommand s with pendingToken := 0 }, none)
  else
    let done := pumpUntil (·.haveResult) s.talk.pumps ((nextCommand s).note (.sent cmd))
    if done.haveResult = false then ({ done with pendingToken := 0 }, none)
    else
      ({ done with pendingToken := 0, result := none, haveResult := false },
        done.result.map fun results => ⟨done.resultClass, results⟩)

def emDash : Bytes := [0xE2, 0x80, 0x94]

def askOnce (s : GdbState) (cmd report : Bytes) : GdbState × Bytes :=
  let r := miCommand s cmd
  (r.1, (miErrorText r.2).getD report)

def toolContinue (s : GdbState) : GdbState × Bytes :=
  askOnce s (ascii "-exec-continue")
    (ascii "Running " ++ emDash ++ ascii " use gdb_wait_stop to wait for the next stop")

def toolInterrupt (s : GdbState) : GdbState × Bytes :=
  askOnce s (ascii "-exec-interrupt")
    (ascii "Interrupt requested " ++ emDash ++ ascii " call gdb_wait_stop to confirm the halt")

def stepCommand (args : Json) : Bytes :=
  let mode := (args.getString "mode").getD (ascii "step")
  let count := args.getInt "count" 1
  let mi :=
    if mode = ascii "next" then ascii "-exec-next"
    else if mode = ascii "finish" then ascii "-exec-finish"
    else if mode = ascii "stepi" then ascii "-exec-step-instruction"
    else if mode = ascii "nexti" then ascii "-exec-next-instruction"
    else ascii "-exec-step"
  stored 64 (if 1 < count then mi ++ ascii " " ++ decimal count.toNat else mi)

def toolStep (s : GdbState) (args : Json) : GdbState × Bytes :=
  askOnce s (stepCommand args)
    (ascii "Stepped " ++ emDash ++ ascii " use gdb_wait_stop for the resulting stop location")

def gdbFlushRegisterCache (s : GdbState) : GdbState :=
  (miCommand s (ascii "-interpreter-exec console \"maintenance flush register-cache\"")).1

def resetRun (s : GdbState) : GdbState × Bytes :=
  let r := miCommand s (ascii "-exec-continue")
  match miErrorText r.2 with
  | some err => (r.1, err)
  | none =>
    ({ r.1 with targetRunning := true, haveStopped := false, log := .restarted :: r.1.log },
      fmtdup (ascii "Reset (run): halt + flush + continue"))

def resetCommand (mode : Bytes) : Bytes :=
  if mode = ascii "init" then ascii "monitor reset init" else ascii "monitor reset halt"

def toolReset (s : GdbState) (args : Json) : GdbState × Bytes :=
  let mode := (args.getString "mode").getD (ascii "halt")
  let r := miCommand s (resetCommand mode)
  match miErrorText r.2 with
  | some err => (r.1, err)
  | none =>
    let s := gdbFlushRegisterCache r.1
    if mode = ascii "run" then resetRun s
    else
      ({ s with targetRunning := false, haveStopped := true, log := .halted :: s.log },
        fmtdup (ascii "Reset (" ++ mode ++ ascii "): done, register cache flushed"))

def orElse (text dflt : Bytes) : Bytes := if text = [] then dflt else text

def stopText (stop : Stop) : Bytes :=
  ascii "Stopped: " ++ orElse stop.reason (ascii "unknown") ++ ascii " " ++ emDash ++ ascii " " ++
    orElse stop.func (ascii "?") ++ ascii " at " ++ orElse stop.file (ascii "?") ++ ascii ":" ++
    orElse stop.line (ascii "?") ++
    (if stop.signal = [] then []
      else ascii " (signal: " ++ stop.signal ++ ascii " " ++ emDash ++ ascii " " ++
        stop.signalMeaning ++ ascii ")")

def answerText : Option Stop → Bytes
  | some stop => stopText stop
  | none => ascii "[TIMEOUT] target may still be running"

def toolWaitStop (s : GdbState) : GdbState × Bytes :=
  let w := pumpUntil (·.haveStopped) s.talk.pumps { s with talks := s.talks.tail }
  if w.haveStopped = false then (w.note (.waited none), answerText none)
  else
    ({ w with haveStopped := false, log := .waited (some w.stop) :: w.log },
      answerText (some w.stop))

def toolStatus (profile arch : Bytes) (s : GdbState) : GdbState × Bytes :=
  (s, fmtdup (ascii "Profile: " ++ profile ++ ascii " (" ++ arch ++ ascii ")\nLink: " ++
    (if s.running then ascii "connected to broker" else ascii "disconnected") ++
    ascii "\nTarget: " ++
    (if s.targetRunning then ascii "running" else ascii "stopped/unknown")))

def toolConsoleOutput (s : GdbState) : GdbState × Bytes :=
  if s.console = [] then (s, ascii "(no console output)") else ({ s with console := [] }, s.console)

inductive Call
  | continue_
  | interrupt
  | step (args : Json)
  | reset (args : Json)
  | waitStop
  | status (profile arch : Bytes)
  | consoleOutput
  | ask (cmds : List Bytes)

def Call.run (s : GdbState) : Call → GdbState
  | .continue_ => (toolContinue s).1
  | .interrupt => (toolInterrupt s).1
  | .step args => (toolStep s args).1
  | .reset args => (toolReset s args).1
  | .waitStop => (toolWaitStop s).1
  | .status profile arch => (toolStatus profile arch s).1
  | .consoleOutput => (toolConsoleOutput s).1
  | .ask cmds => cmds.foldl (fun s cmd => (miCommand s cmd).1) s

inductive Move
  | idle (lines : List MiLine) (running : Bool)
  | call (c : Call)

def Move.run (s : GdbState) : Move → GdbState
  | .idle lines running => { lines.foldl takeLine s with running := running }
  | .call c => c.run s

def runMoves (s : GdbState) (moves : List Move) : GdbState := moves.foldl Move.run s

def gdbStart (talks : List Talk) : GdbState where
  running := true
  nextToken := 1
  pendingToken := 0
  haveResult := false
  result := none
  resultClass := []
  targetRunning := false
  haveStopped := false
  stop := noStop
  console := []
  talks := talks
  log := []

theorem takeLine_cases (s : GdbState) (line : MiLine) :
    ((takeLine s line).haveStopped = s.haveStopped ∧ (takeLine s line).stop = s.stop ∧
        (takeLine s line).log = s.log) ∨
      ((takeLine s line).haveStopped ∧
        (takeLine s line).log = .arrived (takeLine s line).stop :: s.log) := by
  cases line with
  | raw text =>
    rw [takeLine]
    split_ifs with hempty
    · exact .inl ⟨rfl, rfl, rfl⟩
    · exact .inl ⟨rfl, rfl, rfl⟩
  | record r =>
    rw [takeLine]
    split_ifs with hprompt
    · exact .inl ⟨rfl, rfl, rfl⟩
    unfold handleMiRecord
    split
    · split_ifs with htoken
      · exact .inl ⟨rfl, rfl, rfl⟩
      · exact .inl ⟨rfl, rfl, rfl⟩
    · split_ifs with hstopped hrunning
      · exact .inr ⟨rfl, rfl⟩
      · exact .inl ⟨rfl, rfl, rfl⟩
      · exact .inl ⟨rfl, rfl, rfl⟩
    -- the three streams
    iterate 3
      split
      · exact .inl ⟨rfl, rfl, rfl⟩
      · exact .inl ⟨rfl, rfl, rfl⟩
    · exact .inl ⟨rfl, rfl, rfl⟩

theorem pumpUntil_keeps {P : GdbState → Prop} (hline : ∀ s line, P s → P (takeLine s line))
    (hrunning : ∀ s running, P s → P { s with running := running }) (ready : GdbState → Bool)
    (pumps : List Pump) {s : GdbState} (h : P s) : P (pumpUntil ready pumps s) := by
  induction pumps generalizing s with
  | nil => exact h
  | cons pump pumps ih =>
    unfold pumpUntil
    split_ifs with hstop
    · exact h
    cases pump with
    | expired => exact h
    | failed => exact h
    | got lines running =>
      have htaken : P (lines.foldl takeLine s) :=
        List.foldlRecOn lines takeLine h fun t ht line _ => hline t line ht
      exact ih (hrunning _ running htaken)

def resumeCommands : List Bytes :=
  [ascii "-exec-continue", ascii "-exec-step", ascii "-exec-next", ascii "-exec-finish"]

def Note.isResume : Note → Bool
  | .sent cmd => resumeCommands.any (·.isPrefixOf cmd)
  | _ => false

def Note.isWait : Note → Bool
  | .waited _ => true
  | _ => false

def latch : List Note → Bool
  | [] => false
  | .sent _ :: log => latch log
  | .arrived _ :: _ | .halted :: _ => true
  | .restarted :: _ | .waited _ :: _ => false

def lastStop : List Note → Stop
  | [] => noStop
  | .arrived stop :: _ => stop
  | _ :: log => lastStop log

def owed (log : List Note) : Option Stop := if latch log then some (lastStop log) else none

/-- Every answer is what the log before it owes. -/
def Told : List Note → Prop
  | [] => True
  | .waited answer :: log => answer = owed log ∧ Told log
  | _ :: log => Told log

/-- One stop at a time, told before the target runs again and not before the answer to the
command that let it run in a reset, and no reset that halts. -/
def orderly : List Note → Bool
  | [] => true
  | .sent cmd :: log => (!(Note.sent cmd).isResume || !latch log) && orderly log
  | .arrived _ :: log | .restarted :: log => !latch log && orderly log
  | .halted :: _ => false
  | .waited _ :: log => orderly log

section Stops

/-- The latch and the stop of a state are those of its log. -/
structure GdbState.Tracks (s : GdbState) : Prop where
  latch : s.haveStopped = latch s.log
  stop : s.stop = lastStop s.log
  told : Told s.log

variable {s : GdbState}

theorem GdbState.Tracks.takeLine (h : s.Tracks) (line : MiLine) : (takeLine s line).Tracks := by
  obtain ⟨hlatch, hstop, hlog⟩ | ⟨hlatch, hlog⟩ := takeLine_cases s line
  · refine ⟨?_, ?_, ?_⟩
    · rw [hlatch, hlog, h.latch]
    · rw [hstop, hlog, h.stop]
    · rw [hlog]
      exact h.told
  · refine ⟨?_, ?_, ?_⟩
    · rw [hlatch, hlog]
      rfl
    · rw [hlog]
      rfl
    · rw [hlog]
      exact h.told

theorem GdbState.Tracks.pumpUntil (h : s.Tracks) (ready : GdbState → Bool) (pumps : List Pump) :
    (pumpUntil ready pumps s).Tracks :=
  pumpUntil_keeps (fun _ line ht => ht.takeLine line) (fun _ _ ht => ⟨ht.latch, ht.stop, ht.told⟩)
    ready pumps h

theorem GdbState.Tracks.miCommand (h : s.Tracks) (cmd : Bytes) : (miCommand s cmd).1.Tracks := by
  have hsent : ((nextCommand s).note (.sent cmd)).Tracks := ⟨h.latch, h.stop, h.told⟩
  have hdone := hsent.pumpUntil (·.haveResult) s.talk.pumps
  unfold Mcp.miCommand
  dsimp only
  split_ifs with hsend hresult
  · exact ⟨h.latch, h.stop, h.told⟩
  · exact ⟨hdone.latch, hdone.stop, hdone.told⟩
  · exact ⟨hdone.latch, hdone.stop, hdone.told⟩

theorem GdbState.Tracks.resetRun (h : s.Tracks) : (resetRun s).1.Tracks := by
  have hasked := h.miCommand (ascii "-exec-continue")
  unfold Mcp.resetRun
  dsimp only
  split
  · exact hasked
  · exact ⟨rfl, hasked.stop, hasked.told⟩

theorem GdbState.Tracks.toolReset (h : s.Tracks) (args : Json) : (toolReset s args).1.Tracks := by
  unfold Mcp.toolReset
  generalize (args.getString "mode").getD (ascii "halt") = mode
  have hreset := h.miCommand (resetCommand mode)
  dsimp only
  split
  · exact hreset
  · have hflushed : (gdbFlushRegisterCache (Mcp.miCommand s (resetCommand mode)).1).Tracks :=
      hreset.miCommand _
    split_ifs with hrun
    · exact hflushed.resetRun
    · exact ⟨rfl, hflushed.stop, hflushed.told⟩

theorem GdbState.Tracks.owed_eq (h : s.Tracks) :
    owed s.log = if s.haveStopped then some s.stop else none := by
  rw [owed, ← h.latch, ← h.stop]

theorem GdbState.Tracks.toolWaitStop (h : s.Tracks) : (toolWaitStop s).1.Tracks := by
  have hstart : ({ s with talks := s.talks.tail } : GdbState).Tracks := ⟨h.latch, h.stop, h.told⟩
  have hwait := hstart.pumpUntil (·.haveStopped) s.talk.pumps
  unfold Mcp.toolWaitStop
  dsimp only
  generalize Mcp.pumpUntil (·.haveStopped) s.talk.pumps _ = w at hwait ⊢
  cases hcame : w.haveStopped with
  | false => exact ⟨hcame, hwait.stop, by rw [hwait.owed_eq, hcame]; rfl, hwait.told⟩
  | true => exact ⟨rfl, hwait.stop, by rw [hwait.owed_eq, hcame]; rfl, hwait.told⟩

theorem GdbState.Tracks.call (h : s.Tracks) (c : Call) : (c.run s).Tracks := by
  cases c with
  | continue_ => exact h.miCommand _
  | interrupt => exact h.miCommand _
  | step args => exact h.miCommand _
  | reset args => exact h.toolReset args
  | waitStop => exact h.toolWaitStop
  | status profile arch => exact h
  | consoleOutput =>
    unfold Call.run toolConsoleOutput
    dsimp only
    split_ifs
    · exact h
    · exact ⟨h.latch, h.stop, h.told⟩
  | ask cmds => exact List.foldlRecOn cmds _ h fun t ht cmd _ => ht.miCommand cmd

theorem GdbState.Tracks.runMoves (h : s.Tracks) (moves : List Move) :
    (runMoves s moves).Tracks := by
  refine List.foldlRecOn moves Move.run h fun t ht move _ => ?_
  cases move with
  | call c => exact ht.call c
  | idle lines running =>
    have htaken : (lines.foldl Mcp.takeLine t).Tracks :=
      List.foldlRecOn lines _ ht fun u hu line _ => hu.takeLine line
    exact ⟨htaken.latch, htaken.stop, htaken.told⟩

theorem tracks_gdbStart (talks : List Talk) : (gdbStart talks).Tracks := ⟨rfl, rfl, trivial⟩

theorem Told.split {newer older : List Note} {answer : Option Stop}
    (h : Told (newer ++ .waited answer :: older))
    (horderly : orderly (newer ++ .waited answer :: older)) :
    answer = owed older ∧ orderly older := by
  induction newer with
  | nil => exact ⟨h.1, horderly⟩
  | cons n newer ih =>
    cases n with
    | sent cmd => exact ih h ((Bool.and_eq_true _ _).mp horderly).2
    | arrived stop => exact ih h ((Bool.and_eq_true _ _).mp horderly).2
    | restarted => exact ih h ((Bool.and_eq_true _ _).mp horderly).2
    | halted => cases horderly
    | waited answer' => exact ih h.2 horderly

theorem owed_arrived {log : List Note} (horderly : orderly log) (hlatch : latch log) :
    ∃ between earlier, log = between ++ .arrived (lastStop log) :: earlier ∧
      ∀ n ∈ between, n.isResume = false := by
  induction log with
  | nil => cases hlatch
  | cons n log ih =>
    cases n with
    | sent cmd =>
      obtain ⟨hquiet, horderly⟩ := (Bool.and_eq_true _ _).mp horderly
      have hlatch : latch log := hlatch
      obtain ⟨between, earlier, hlog, hbetween⟩ := ih horderly hlatch
      refine ⟨.sent cmd :: between, earlier, congrArg _ hlog, ?_⟩
      rintro n (_ | ⟨_, hn⟩)
      · simpa [hlatch] using hquiet
      · exact hbetween n hn
    | arrived stop => exact ⟨[], log, rfl, fun n hn => by cases hn⟩
    | restarted => cases hlatch
    | halted => cases horderly
    | waited answer => cases hlatch

theorem owed_of_arrived {between earlier : List Note} {stop : Stop}
    (horderly : orderly (between ++ .arrived stop :: earlier))
    (hbetween : ∀ n ∈ between, n.isResume = false ∧ n.isWait = false) :
    latch (between ++ .arrived stop :: earlier) ∧
      lastStop (between ++ .arrived stop :: earlier) = stop := by
  induction between with
  | nil => exact ⟨rfl, rfl⟩
  | cons n between ih =>
    have hrest : ∀ n ∈ between, n.isResume = false ∧ n.isWait = false :=
      fun n hn => hbetween n (List.mem_cons_of_mem _ hn)
    cases n with
    | sent cmd => exact ih ((Bool.and_eq_true _ _).mp horderly).2 hrest
    | arrived stop' =>
      obtain ⟨hclear, horderly⟩ := (Bool.and_eq_true _ _).mp horderly
      exact absurd (ih horderly hrest).1 (by simpa using hclear)
    | restarted =>
      obtain ⟨hclear, horderly⟩ := (Bool.and_eq_true _ _).mp horderly
      exact absurd (ih horderly hrest).1 (by simpa using hclear)
    | halted => cases horderly
    | waited answer => cases (hbetween _ List.mem_cons_self).2

end Stops

/-- In a session that is in order, `gdb_wait_stop` answers with a stop that came after the
last command that let the target run, and a stop that came after it is the next answer. The
log is read from its newest entry. -/
theorem wait_stop_tells_stops (talks : List Talk) (moves : List Move)
    (horderly : orderly (runMoves (gdbStart talks) moves).log = true) :
    (∀ newer stop older,
        (runMoves (gdbStart talks) moves).log = newer ++ .waited (some stop) :: older →
        ∃ between earlier, older = between ++ .arrived stop :: earlier ∧
          ∀ n ∈ between, n.isResume = false) ∧
      (∀ newer answer between stop earlier,
        (runMoves (gdbStart talks) moves).log =
          newer ++ .waited answer :: (between ++ .arrived stop :: earlier) →
        (∀ n ∈ between, n.isResume = false ∧ n.isWait = false) → answer = some stop) := by
  have htold := ((tracks_gdbStart talks).runMoves moves).told
  constructor
  · intro newer stop older hlog
    rw [hlog] at htold horderly
    obtain ⟨howed, horder⟩ := htold.split horderly
    unfold owed at howed
    split_ifs at howed with hlatch
    cases howed
    exact owed_arrived horder hlatch
  · intro newer answer between stop earlier hlog hbetween
    rw [hlog] at htold horderly
    obtain ⟨howed, horder⟩ := htold.split horderly
    obtain ⟨hlatch, hlast⟩ := owed_of_arrived horder hbetween
    rw [howed, owed, if_pos hlatch, hlast]

def stoppedIn (func : String) : MiLine :=
  .record ⟨.execAsync, -1, ascii "stopped", some (.obj [("reason", .str (ascii "breakpoint-hit")),
    ("frame", .obj [("func", .str (ascii func))])]), none⟩

def stopIn (func : String) : Stop := ⟨ascii "breakpoint-hit", ascii func, [], [], [], []⟩

def taken (token : Int) (cls : String) (lines : List MiLine) : Talk :=
  ⟨true, [.got (.record ⟨.result, token, ascii cls, some (.obj []), none⟩ :: lines) true]⟩

def tellingMoves : List Move := [.call .continue_, .idle [stoppedIn "main"] true, .call .waitStop]

theorem wait_stop_tells_breakpoint :
    orderly (runMoves (gdbStart [taken 1 "running" []]) tellingMoves).log = true ∧
      ∃ between earlier, [Note.arrived (stopIn "main"), .sent (ascii "-exec-continue")] =
        between ++ .arrived (stopIn "main") :: earlier ∧ ∀ n ∈ between, n.isResume = false :=
  have h : orderly (runMoves (gdbStart [taken 1 "running" []]) tellingMoves).log = true := by
    decide +kernel
  ⟨h, (wait_stop_tells_stops [taken 1 "running" []] tellingMoves h).1 [] (stopIn "main") _
    (by decide +kernel)⟩

/-- A stop that nobody asked about is told after the next continue, though nothing has come
since, and the stop that follows a reset in mode `run` in the same read is never told. -/
theorem wait_stop_tells_old_stop_and_loses_new :
    (runMoves (gdbStart [taken 1 "running" [], taken 2 "running" []])
      [.call .continue_, .idle [stoppedIn "old"] true, .call .continue_, .call .waitStop]).log =
        [.waited (some (stopIn "old")), .sent (ascii "-exec-continue"), .arrived (stopIn "old"),
          .sent (ascii "-exec-continue")] ∧
      (runMoves (gdbStart [taken 1 "done" [], taken 2 "done" [],
          taken 3 "running" [stoppedIn "main"]])
        [.call (.reset (textArgs "mode" "run")), .call .waitStop]).log.take 4 =
        [.waited none, .restarted, .arrived (stopIn "main"), .sent (ascii "-exec-continue")] := by
  decide +kernel

end Smolmux.Mcp
