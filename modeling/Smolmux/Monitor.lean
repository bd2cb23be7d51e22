import Smolmux.Bytes

/-! The keyboard side of the monitor (`monitor.c`): bytes typed are sent to the device, but for
the escape key and the command behind it. The bytes come in reads, and a read is worked off to
its end. -/

namespace Smolmux.Monitor
open List

inductive EscKind
  | forward | quit | help | status | restartC | takeover | release | brk | suspend | resume
  deriving DecidableEq

def escKind (ch : UInt8) : EscKind :=
  if ch = 113 then .quit
  else if ch = 104 ∨ ch = 63 then .help
  else if ch = 115 then .status
  else if ch = 99 then .restartC
  else if ch = 116 then .takeover
  else if ch = 114 then .release
  else if ch = 98 then .brk
  else if ch = 122 then .suspend
  else if ch = 90 then .resume
  else .forward

inductive Effect
  /-- A message with data for the device. -/
  | send (data : Bytes)
  | command (kind : EscKind)
  /-- `observer_restart_hint`. -/
  | hint
  | quit
  deriving DecidableEq

variable (esc : UInt8) (controller : Bool)

def handleEscape (ch : UInt8) : Effect :=
  if ch = esc then .quit
  else
    match escKind ch with
    | .quit => .quit
    | .forward => if controller then .send [esc, ch] else .hint
    | kind => .command kind

structure Stdin where
  escapeMode : Bool
  out : Bytes
  done : List Effect

/-- One turn of the loop over the bytes of a read; it goes on after a quit. -/
def stdinByte (s : Stdin) (ch : UInt8) : Stdin :=
  if s.escapeMode then
    { s with escapeMode := false, done := s.done ++ [handleEscape esc controller ch] }
  else if ch = esc then
    if s.out ≠ [] ∧ controller then ⟨true, [], s.done ++ [.send s.out]⟩
    else { s with escapeMode := true }
  else { s with out := s.out ++ [ch] }

def handleStdinData (mode : Bool) (buf : Bytes) : Bool × List Effect :=
  if buf = [] then (mode, [.quit])
  else
    let s := buf.foldl (stdinByte esc controller) ⟨mode, [], []⟩
    (s.escapeMode,
      s.done ++ if s.out = [] then [] else if controller then [.send s.out] else [.hint])

/-- The loop reads as long as nothing has made it quit. -/
def monitor : (mode : Bool) → List Bytes → List Effect
  | _, [] => []
  | mode, buf :: bufs =>
    let r := handleStdinData esc controller mode buf
    r.2 ++ if .quit ∈ r.2 then [] else monitor r.1 bufs

inductive Act
  | byte (c : UInt8)
  | command (kind : EscKind)
  | quit
  deriving DecidableEq

def Effect.acts : Effect → List Act
  | .send data => data.map .byte
  | .command kind => [.command kind]
  | .hint => []
  | .quit => [.quit]

/-- What a key asks for. -/
def keyActs (mode : Bool) (ch : UInt8) : List Act :=
  if mode then (handleEscape esc controller ch).acts
  else if ch ≠ esc ∧ controller then [.byte ch] else []

def keyMode (mode : Bool) (ch : UInt8) : Bool := !mode && ch == esc

def acts : (mode : Bool) → Bytes → List Act
  | _, [] => []
  | mode, ch :: keys => keyActs esc controller mode ch ++ acts (keyMode esc mode ch) keys

def modeAfter (mode : Bool) (keys : Bytes) : Bool := keys.foldl (keyMode esc) mode

def untilQuit : List Act → List Act
  | [] => []
  | a :: as => if a = .quit then [a] else a :: untilQuit as

section Reading

variable {mode : Bool} {as bs : List Act}

theorem modeAfter_append (mode : Bool) (xs ys : Bytes) :
    modeAfter esc mode (xs ++ ys) = modeAfter esc (modeAfter esc mode xs) ys :=
  foldl_append

theorem acts_append (mode : Bool) (xs ys : Bytes) : acts esc controller mode (xs ++ ys) =
    acts esc controller mode xs ++ acts esc controller (modeAfter esc mode xs) ys := by
  induction xs generalizing mode with
  | nil => rfl
  | cons ch xs ih => rw [cons_append, acts, ih, acts, append_assoc]; rfl

/-- The acts of what has been done and of what is still to be sent. -/
def Stdin.acts (controller : Bool) (s : Stdin) : List Act :=
  s.done.flatMap Effect.acts ++ if controller then s.out.map .byte else []

theorem acts_stdinByte {s : Stdin} (h : s.escapeMode → controller → s.out = []) (ch : UInt8) :
    (stdinByte esc controller s ch).acts controller =
        s.acts controller ++ keyActs esc controller s.escapeMode ch ∧
      (stdinByte esc controller s ch).escapeMode = keyMode esc s.escapeMode ch ∧
      ((stdinByte esc controller s ch).escapeMode → controller →
        (stdinByte esc controller s ch).out = []) := by
  obtain ⟨mode, out, done⟩ := s
  unfold stdinByte keyActs keyMode Stdin.acts
  cases mode with
  | true =>
    cases controller with
    | true =>
      obtain rfl : out = [] := h rfl rfl
      simp
    | false => simp
  | false =>
    by_cases hesc : ch = esc
    · cases controller with
      | false => simp [hesc]
      | true => cases out <;> simp [hesc, Effect.acts]
    · cases controller <;> simp [hesc]

theorem acts_foldl (keys : Bytes) {s : Stdin} (h : s.escapeMode → controller → s.out = []) :
    (keys.foldl (stdinByte esc controller) s).acts controller =
        s.acts controller ++ acts esc controller s.escapeMode keys ∧
      (keys.foldl (stdinByte esc controller) s).escapeMode = modeAfter esc s.escapeMode keys := by
  induction keys generalizing s with
  | nil => exact ⟨(append_nil _).symm, rfl⟩
  | cons ch keys ih =>
    obtain ⟨hacts, hmode, hkept⟩ := acts_stdinByte esc controller h ch
    obtain ⟨hrest, hlast⟩ := ih hkept
    refine ⟨?_, by rw [foldl_cons, hlast, hmode]; rfl⟩
    rw [foldl_cons, hrest, hacts, hmode, acts, append_assoc]

theorem acts_handleStdinData (mode : Bool) {buf : Bytes} (h : buf ≠ []) :
    (handleStdinData esc controller mode buf).2.flatMap Effect.acts =
        acts esc controller mode buf ∧
      (handleStdinData esc controller mode buf).1 = modeAfter esc mode buf := by
  obtain ⟨hacts, hmode⟩ := acts_foldl esc controller buf (s := ⟨mode, [], []⟩) fun _ _ => rfl
  rw [handleStdinData, if_neg h]
  refine ⟨?_, hmode⟩
  rw [flatMap_append]
  have hnone : Stdin.acts controller ⟨mode, [], []⟩ = [] := by cases controller <;> rfl
  rw [hnone, nil_append] at hacts
  rw [← hacts, Stdin.acts]
  congr 1
  split_ifs with hout hsend hsend
  · rw [hout]; rfl
  · rfl
  · rw [flatMap_singleton]; rfl
  · rfl

theorem quit_mem_acts {effects : List Effect} :
    .quit ∈ effects.flatMap Effect.acts ↔ .quit ∈ effects := by
  rw [mem_flatMap]
  constructor
  · rintro ⟨effect, hmem, hquit⟩
    cases effect with
    | quit => exact hmem
    | send data => simp [Effect.acts] at hquit
    | command kind => simp [Effect.acts] at hquit
    | hint => cases hquit
  · exact fun hmem => ⟨_, hmem, mem_singleton_self _⟩

theorem untilQuit_append (h : .quit ∉ as) : untilQuit (as ++ bs) = as ++ untilQuit bs := by
  induction as with
  | nil => rfl
  | cons a as ih =>
    rw [mem_cons, not_or] at h
    rw [cons_append, untilQuit, if_neg (Ne.symm h.1), ih h.2, cons_append]

theorem untilQuit_left (h : .quit ∈ as) : untilQuit (as ++ bs) = untilQuit as := by
  induction as with
  | nil => cases h
  | cons a as ih =>
    rw [cons_append, untilQuit, untilQuit]
    split_ifs with ha
    · rfl
    · rw [ih ((mem_cons.mp h).resolve_left (Ne.symm ha))]

theorem untilQuit_eq_self (h : ∀ x y, as = x ++ .quit :: y → y = []) : untilQuit as = as := by
  induction as with
  | nil => rfl
  | cons a as ih =>
    rw [untilQuit]
    split_ifs with ha
    · rw [h [] as (ha ▸ rfl)]
    · rw [ih fun x y heq => h (a :: x) y (heq ▸ rfl)]

theorem quit_last (as x y : List Act) (h : untilQuit as = x ++ .quit :: y) : y = [] := by
  induction as generalizing x with
  | nil => simp [untilQuit] at h
  | cons a as ih =>
    rw [untilQuit] at h
    cases x with
    | nil =>
      split_ifs at h with ha
      · exact (cons.inj h).2.symm
      · exact absurd (cons.inj h).1 ha
    | cons b x =>
      split_ifs at h
      · simp at h
      · exact ih x (cons.inj h).2

/-- Nothing is asked for behind the first quit in the read that has it. -/
def QuitLast (mode : Bool) (reads : List Bytes) : Prop :=
  ∀ pre buf post, reads = pre ++ buf :: post →
    .quit ∉ acts esc controller mode pre.flatten → ∀ x y,
      acts esc controller (modeAfter esc mode pre.flatten) buf = x ++ .quit :: y → y = []

theorem quitLast_cons (mode : Bool) (buf : Bytes) (reads : List Bytes) :
    QuitLast esc controller mode (buf :: reads) ↔
      (∀ x y, acts esc controller mode buf = x ++ .quit :: y → y = []) ∧
        (.quit ∉ acts esc controller mode buf →
          QuitLast esc controller (modeAfter esc mode buf) reads) := by
  constructor
  · refine fun h => ⟨h [] buf reads rfl nofun, fun hnone pre b post heq hpre => ?_⟩
    have hread := h (buf :: pre) b post (heq ▸ rfl)
    rw [flatten_cons, acts_append, mem_append, not_or, modeAfter_append] at hread
    exact hread ⟨hnone, hpre⟩
  · rintro ⟨hfirst, hrest⟩ pre b post heq hpre
    cases pre with
    | nil =>
      obtain ⟨rfl, -⟩ := cons.inj heq
      exact hfirst
    | cons c pre =>
      obtain ⟨rfl, hreads⟩ := cons.inj heq
      rw [flatten_cons, acts_append, mem_append, not_or] at hpre
      rw [flatten_cons, modeAfter_append]
      exact hrest hpre.1 pre b post hreads hpre.2

theorem acts_monitor {reads : List Bytes} (hsome : ∀ buf ∈ reads, buf ≠ []) (mode : Bool) :
    (monitor esc controller mode reads).flatMap Effect.acts =
      untilQuit (acts esc controller mode reads.flatten) ↔ QuitLast esc controller mode reads := by
  induction reads generalizing mode with
  | nil => exact iff_of_true rfl fun pre buf post heq => by simp at heq
  | cons buf reads ih =>
    obtain ⟨hacts, hmode⟩ :=
      acts_handleStdinData esc controller mode (hsome buf mem_cons_self)
    rw [monitor, flatMap_append, hacts, flatten_cons, acts_append, hmode, quitLast_cons]
    split_ifs with hstop
    · -- the monitor stops behind this read
      rw [← quit_mem_acts, hacts] at hstop
      rw [untilQuit_left hstop, flatMap_nil, append_nil]
      refine ⟨fun h => ⟨fun x y hxy => quit_last _ x y (h ▸ hxy), fun hnone => absurd hstop hnone⟩,
        fun h => (untilQuit_eq_self h.1).symm⟩
    · rw [← quit_mem_acts, hacts] at hstop
      rw [untilQuit_append hstop, append_cancel_left_eq,
        ih fun b hb => hsome b (mem_cons_of_mem buf hb)]
      refine ⟨fun h => ⟨fun x y hxy => ?_, fun _ => h⟩, fun h => h.2 hstop⟩
      exact absurd (hxy ▸ mem_append_right x mem_cons_self) hstop

end Reading

/-- What the keys do is a matter of the keys alone, not of the reads, and nothing follows a quit,
just when nothing is asked for behind the quit in its read. A command is never sent as data. -/
theorem keys_chunk_independent (esc : UInt8) (controller : Bool) (reads : List Bytes)
    (hsome : ∀ buf ∈ reads, buf ≠ []) :
    let done := (monitor esc controller false reads).flatMap Effect.acts
    (done = untilQuit (acts esc controller false reads.flatten) ∧
        (∀ x y, done = x ++ .quit :: y → y = []) ↔ QuitLast esc controller false reads) ∧
      ∀ ch, ch = esc ∨ escKind ch ≠ .forward → ∀ c, .byte c ∉ keyActs esc controller true ch := by
  intro done
  have hdone : done = _ ↔ _ := acts_monitor esc controller hsome false
  refine ⟨⟨fun h => hdone.mp h.1, fun h => ?_⟩, fun ch hcommand c => ?_⟩
  · have heq := hdone.mpr h
    exact ⟨heq, fun x y hxy => quit_last _ x y (heq ▸ hxy)⟩
  · rw [keyActs, if_pos rfl, handleEscape]
    by_cases hesc : ch = esc
    · simp [hesc, Effect.acts]
    · rw [if_neg hesc]
      split
      · simp [Effect.acts]
      next hforward => exact absurd hforward (hcommand.resolve_left hesc)
      · simp [Effect.acts]

/-- The escape key is the last byte of a read and its command the first of the next. -/
theorem keys_chunk_independent_split :
    (monitor 29 true false [[97, 29], [113]]).flatMap Effect.acts = [.byte 97, .quit] := by
  refine ((keys_chunk_independent 29 true [[97, 29], [113]] (by decide)).1.mpr ?_).1
  rw [quitLast_cons, quitLast_cons]
  refine ⟨fun x y hxy => ?_, fun _ => ⟨fun x y hxy => ?_, fun _ pre buf post heq => ?_⟩⟩
  · have hmem : Act.quit ∈ acts 29 true false [97, 29] := hxy ▸ mem_append_right x mem_cons_self
    exact absurd hmem (by decide)
  · have hlength : (x ++ Act.quit :: y).length = 1 := hxy ▸ rfl
    exact length_eq_zero_iff.mp (by simp at hlength; omega)
  · simp at heq

/-- A byte behind the quit of its read is sent; in a read of its own it is not. -/
theorem byte_after_quit_sent :
    (monitor 29 true false [[29, 113, 120]]).flatMap Effect.acts = [.quit, .byte 120] ∧
      (monitor 29 true false [[29, 113], [120]]).flatMap Effect.acts = [.quit] := by
  decide

end Smolmux.Monitor
