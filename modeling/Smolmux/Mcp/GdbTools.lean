import Smolmux.Framing
import Smolmux.JsonText
import Smolmux.MiCommand

/-! The tools of `gdb_mcp.c` that put text of the caller into a command for gdb. The
growable string buffers are taken to get their memory. -/

namespace Smolmux.Mcp
open Protocol Mi List

structure MiReply where
  cls : Bytes
  results : Json

/-- `replies` are the answers to the commands to come, where nothing stands for a timeout,
a lost connection or a failed send; `sent` is the data of the `send` messages. -/
structure GdbMcp where
  nextToken : Nat
  replies : List (Option MiReply)
  sent : List Bytes

/-- Zero stands for no command. -/
def followingToken (token : Nat) : Nat :=
  let next := (token + 1) % 2 ^ 32
  if next = 0 then 1 else next

def gdbMiCommand (g : GdbMcp) (cmd : Bytes) : GdbMcp × Option MiReply :=
  ({ nextToken := followingToken g.nextToken
     replies := g.replies.tail
     sent := g.sent ++ [decimal g.nextToken ++ cmd ++ [newline]] }, g.replies.head?.join)

def fmtdup (text : Bytes) : Bytes := stored 1024 text

def jstr (obj : Option Json) (key : String) (dflt : Bytes) : Bytes :=
  (obj.bind (·.getString key)).getD dflt

def itemAnyCase (j : Json) (key : String) : Option Json :=
  match j with
  | .obj fields => (fields.find? fun f => f.1.toLower == key.toLower).map Prod.snd
  | _ => none

def miErrorText : Option MiReply → Option Bytes
  | none => some (ascii "[ERROR] no response from GDB (timeout or link down)")
  | some r =>
    if r.cls = ascii "error" then
      some (fmtdup (ascii "[ERROR] " ++ (r.results.getString "msg").getD (ascii "GDB error")))
    else none

def missing (argument : String) : Bytes :=
  ascii "[ERROR] missing '" ++ ascii argument ++ ascii "'"

def fileCommand (exe : Bytes) : Bytes := ascii "-file-exec-and-symbols " ++ quotes exe

def targetCommand (target : Bytes) : Bytes := ascii "-target-select " ++ target

def selectTarget (g : GdbMcp) (out target : Bytes) : GdbMcp × Bytes :=
  let r := gdbMiCommand g (stored 512 (targetCommand target))
  if (r.2.any fun reply => reply.cls ≠ ascii "error") = true then
    (r.1, out ++ ascii "\nConnected target: " ++ target)
  else
    (r.1, out ++ ascii "\nTarget " ++ target ++ ascii " not (re)selected " ++
      [0xE2, 0x80, 0x94] ++ ascii " the broker already owns the connection")

def toolLaunch (g : GdbMcp) (args : Json) : GdbMcp × Bytes :=
  match args.getString "executable" with
  | none => (g, missing "executable")
  | some exe =>
    let r := gdbMiCommand g (stored 512 (fileCommand exe))
    match miErrorText r.2 with
    | some err => (r.1, err)
    | none =>
      let out := ascii "Loaded symbols: " ++ exe
      match args.getString "target" with
      | some (c :: cs) => selectTarget r.1 out (c :: cs)
      | _ => (r.1, out)

def breakCommand (temporary : Bool) (cond : Option Bytes) (loc : Bytes) : Bytes :=
  let flag := if temporary then ascii " -t" else []
  let condition :=
    match cond with
    | some (c :: cs) => ascii " -c " ++ quotes (c :: cs)
    | _ => []
  ascii "-break-insert" ++ flag ++ condition ++ ascii " " ++ loc

def toolBreakpoint (g : GdbMcp) (args : Json) : GdbMcp × Bytes :=
  match args.getString "location" with
  | none => (g, missing "location")
  | some loc =>
    let r := gdbMiCommand g
      (breakCommand (args.getBool "temporary" false) (args.getString "condition") loc)
    match miErrorText r.2 with
    | some err => (r.1, err)
    | none =>
      let bkpt := r.2.bind fun reply => itemAnyCase reply.results "bkpt"
      (r.1, fmtdup (ascii "Breakpoint " ++ jstr bkpt "number" (ascii "?") ++ ascii " at " ++
        jstr bkpt "addr" loc))

def formatMemory (result : Json) : Bytes :=
  match itemAnyCase result "memory" with
  | some (.arr (region :: regions)) =>
    ((region :: regions).map fun r => ascii "  " ++ jstr (some r) "begin" (ascii "?") ++
      ascii ": " ++ jstr (some r) "contents" [] ++ [newline]).flatten
  | _ => ascii "No data"

def memoryLength (args : Json) : Nat :=
  let length := args.getInt "length" 256
  if length ≤ 0 then 256 else length.toNat

def memoryCommand (addr : Bytes) (length : Nat) : Bytes :=
  ascii "-data-read-memory-bytes " ++ addr ++ ascii " " ++ decimal length

def toolReadMemory (g : GdbMcp) (args : Json) : GdbMcp × Bytes :=
  match args.getString "address" with
  | none => (g, missing "address")
  | some addr =>
    let r := gdbMiCommand g (stored 256 (memoryCommand addr (memoryLength args)))
    match miErrorText r.2, r.2 with
    | none, some reply => (r.1, formatMemory reply.results)
    | err, _ => (r.1, err.getD [])

def evaluateCommand (expr : Bytes) : Bytes := ascii "-data-evaluate-expression " ++ quotes expr

def toolEvaluate (g : GdbMcp) (args : Json) : GdbMcp × Bytes :=
  match args.getString "expression" with
  | none => (g, missing "expression")
  | some expr =>
    let r := gdbMiCommand g (stored 512 (evaluateCommand expr))
    match miErrorText r.2 with
    | some err => (r.1, err)
    | none => (r.1, fmtdup (jstr (r.2.map (·.results)) "value" (ascii "void")))

def blockedCommands : List Bytes :=
  [ascii "shell", ascii "pipe", ascii "python", ascii "guile", ascii "make", ascii "eval"]

def isLineEnd (c : UInt8) : Bool := c == 13 || c == 10

def endsName : Bytes → Bool
  | [] => true
  | c :: _ => isBlank c || isLineEnd c

def commandText (cmd : Bytes) : Bytes :=
  ((cmd.dropWhile isBlank).dropWhile isDigit).dropWhile isBlank

def textIsBlocked : Bytes → Bool
  | [] => false
  | c :: cs =>
    c == 33 || c == 124 || blockedCommands.any fun name =>
      name.isPrefixOf (c :: cs) && endsName ((c :: cs).drop name.length)

def commandIsBlocked (cmd : Bytes) : Bool := textIsBlocked (commandText cmd)

def sanitized (command : Bytes) : Bytes := (command.filter fun c => !isLineEnd c).take 1023

def toolCommand (codec : Codec) (g : GdbMcp) (args : Json) : GdbMcp × Bytes :=
  match args.getString "command" with
  | none => (g, missing "command")
  | some command =>
    if commandIsBlocked command then
      (g, ascii "[ERROR] blocked command (shell/pipe/python/guile/make)")
    else
      let r := gdbMiCommand g (sanitized command)
      match r.2 with
      | none => (r.1, ascii "[ERROR] no response from GDB (timeout or link down)")
      | some reply =>
        let json := codec.print reply.results
        if reply.cls = ascii "error" then
          (r.1, fmtdup (ascii "[" ++ reply.cls ++ ascii "] " ++ json))
        else (r.1, fmtdup (ascii "^" ++ reply.cls ++ ascii " " ++ json))

variable {cmd : Bytes}

theorem not_blank_of_digit {c : UInt8} (h : isDigit c) : isBlank c = false := by
  rw [Bool.eq_false_iff]
  intro hblank
  simp only [isBlank, Bool.or_eq_true, beq_iff_eq] at hblank
  rcases hblank with rfl | rfl
  · exact absurd h (by decide)
  · exact absurd h (by decide)

def blockedWords : List Bytes := ascii "!" :: ascii "|" :: blockedCommands

/-- A blocked word with what stands behind it. -/
def Blocks (word rest : Bytes) : Prop :=
  word = ascii "!" ∨ word = ascii "|" ∨ word ∈ blockedCommands ∧ endsName rest = true

theorem Blocks.mem {word rest : Bytes} (h : Blocks word rest) : word ∈ blockedWords := by
  rcases h with rfl | rfl | ⟨h, -⟩
  · exact mem_cons_self
  · exact mem_cons_of_mem _ mem_cons_self
  · exact mem_cons_of_mem _ (mem_cons_of_mem _ h)

theorem textIsBlocked_iff {text : Bytes} :
    textIsBlocked text = true ↔ ∃ word rest, text = word ++ rest ∧ Blocks word rest := by
  have hmark : ascii "!" = [33] ∧ ascii "|" = [124] := ⟨rfl, rfl⟩
  constructor
  · intro h
    cases text with
    | nil => cases h
    | cons c cs =>
      simp only [textIsBlocked, Bool.or_eq_true, beq_iff_eq, any_eq_true, Bool.and_eq_true] at h
      rcases h with (rfl | rfl) | ⟨name, hname, hstart, hover⟩
      · exact ⟨_, cs, by rw [hmark.1]; rfl, .inl rfl⟩
      · exact ⟨_, cs, by rw [hmark.2]; rfl, .inr (.inl rfl)⟩
      · obtain ⟨rest, hrest⟩ := isPrefixOf_iff_prefix.mp hstart
        rw [← hrest, drop_left] at hover
        exact ⟨name, rest, hrest.symm, .inr (.inr ⟨hname, hover⟩)⟩
  · rintro ⟨word, rest, rfl, rfl | rfl | ⟨hname, hover⟩⟩
    · rfl
    · rfl
    · have hne : word ≠ [] := (by decide : ∀ name ∈ blockedCommands, name ≠ []) word hname
      obtain ⟨c, cs, rfl⟩ := exists_cons_of_ne_nil hne
      simp only [cons_append, textIsBlocked, Bool.or_eq_true, any_eq_true, Bool.and_eq_true]
      refine .inr ⟨c :: cs, hname, isPrefixOf_iff_prefix.mpr (prefix_append _ _), ?_⟩
      rwa [← cons_append, drop_left]

theorem blockedWords_head {word : Bytes} (h : word ∈ blockedWords) :
    ∃ c cs, word = c :: cs ∧ isBlank c = false ∧ isDigit c = false := by
  have hfirst : ∀ word ∈ blockedWords, word ≠ [] ∧
      word.head?.all (fun c => !isBlank c && !isDigit c) = true := by decide
  obtain ⟨hne, hc⟩ := hfirst word h
  obtain ⟨c, cs, rfl⟩ := exists_cons_of_ne_nil hne
  exact ⟨c, cs, rfl, by simpa using hc⟩

theorem textIsBlocked_digit {c : UInt8} {cs : Bytes} (h : isDigit c) :
    textIsBlocked (c :: cs) = false := by
  rw [Bool.eq_false_iff]
  intro hblocked
  obtain ⟨word, rest, htext, hblocks⟩ := textIsBlocked_iff.mp hblocked
  obtain ⟨d, ds, rfl, -, hdigit⟩ := blockedWords_head hblocks.mem
  rw [← (cons.inj htext).1, h] at hdigit
  cases hdigit

theorem commandText_token {token : Bytes} (htoken : ∀ c ∈ token, isDigit c)
    (hne : token ≠ []) :
    commandText (token ++ cmd) = (cmd.dropWhile isDigit).dropWhile isBlank := by
  obtain ⟨c, cs, rfl⟩ := exists_cons_of_ne_nil hne
  have hblank : isBlank c = false := not_blank_of_digit (htoken c mem_cons_self)
  rw [commandText, cons_append, dropWhile_cons_of_neg (by simp [hblank]),
    ← cons_append, dropWhile_append_of_pos htoken]

theorem commandIsBlocked_token {token : Bytes} (htoken : ∀ c ∈ token, isDigit c)
    (hne : token ≠ []) (h : commandIsBlocked cmd = false) :
    commandIsBlocked (token ++ cmd) = false := by
  rw [commandIsBlocked, commandText_token htoken hne]
  rw [commandIsBlocked, commandText] at h
  by_cases hblank : cmd.dropWhile isBlank = cmd
  · rwa [hblank] at h
  · -- the command starts with a blank, so the token ends before it
    have hdigit : cmd.dropWhile isDigit = cmd := by
      cases cmd with
      | nil => rfl
      | cons c cs =>
        rw [dropWhile_cons_of_neg]
        intro hc
        exact hblank (dropWhile_cons_of_neg (by simp [not_blank_of_digit hc]))
    rw [hdigit]
    cases htext : cmd.dropWhile isBlank with
    | nil => rfl
    | cons c cs =>
      have hc : isBlank c = false := by
        have := head?_dropWhile_not isBlank cmd
        rw [htext] at this
        simpa using this
      by_cases hcd : isDigit c
      · exact textIsBlocked_digit hcd
      · rw [htext, dropWhile_cons_of_neg hcd, dropWhile_cons_of_neg (by simp [hc])] at h
        exact h

/-- What the check skips: blanks, a token and blanks. -/
def Lead (lead : Bytes) : Prop :=
  ∃ front token back, lead = front ++ token ++ back ∧ (∀ c ∈ front, isBlank c) ∧
    (∀ c ∈ token, isDigit c) ∧ ∀ c ∈ back, isBlank c

theorem commandText_lead {lead word : Bytes} (hlead : Lead lead) (hword : word ∈ blockedWords)
    (rest : Bytes) : commandText (lead ++ word ++ rest) = word ++ rest := by
  obtain ⟨front, token, back, rfl, hfront, htoken, hback⟩ := hlead
  obtain ⟨c, cs, rfl, hblank, hdigit⟩ := blockedWords_head hword
  simp only [commandText, append_assoc, cons_append]
  rw [dropWhile_append_of_pos hfront]
  cases token with
  | nil =>
    rw [nil_append, dropWhile_append_of_pos hback, dropWhile_cons_of_neg (by simp [hblank]),
      dropWhile_cons_of_neg (by simp [hdigit]), dropWhile_cons_of_neg (by simp [hblank])]
  | cons d ds =>
    have hd := not_blank_of_digit (htoken d mem_cons_self)
    rw [cons_append, dropWhile_cons_of_neg (by simp [hd]), ← cons_append,
      dropWhile_append_of_pos htoken]
    cases back with
    | nil => rw [nil_append, dropWhile_cons_of_neg (by simp [hdigit]),
        dropWhile_cons_of_neg (by simp [hblank])]
    | cons b bs =>
      have hb : isDigit b = false := by
        rw [Bool.eq_false_iff]
        intro h
        have := not_blank_of_digit h
        simp [hback b mem_cons_self] at this
      rw [cons_append, dropWhile_cons_of_neg (by simp [hb]), ← cons_append,
        dropWhile_append_of_pos hback, dropWhile_cons_of_neg (by simp [hblank])]

theorem commandIsBlocked_iff : commandIsBlocked cmd = true ↔
    ∃ lead word rest, cmd = lead ++ word ++ rest ∧ Lead lead ∧ Blocks word rest := by
  constructor
  · intro h
    obtain ⟨word, rest, htext, hblocks⟩ := textIsBlocked_iff.mp h
    have hparts {p : UInt8 → Bool} (text : Bytes) : text = text.takeWhile p ++ text.dropWhile p :=
      takeWhile_append_dropWhile.symm
    refine ⟨_, word, rest, ?_, ⟨cmd.takeWhile isBlank, (cmd.dropWhile isBlank).takeWhile isDigit,
      ((cmd.dropWhile isBlank).dropWhile isDigit).takeWhile isBlank, rfl, ?_, ?_, ?_⟩, hblocks⟩
    · rw [append_assoc, ← htext, commandText, append_assoc, append_assoc,
        takeWhile_append_dropWhile, takeWhile_append_dropWhile, takeWhile_append_dropWhile]
    all_goals exact fun c hc => mem_takeWhile_imp hc
  · rintro ⟨lead, word, rest, rfl, hlead, hblocks⟩
    rw [commandIsBlocked, commandText_lead hlead hblocks.mem]
    exact textIsBlocked_iff.mpr ⟨word, rest, rfl, hblocks⟩

/-- A line has one blocked word at most: none of them begins with another one. -/
theorem blockedWord_unique {lead word rest lead' word' rest' : Bytes} (hlead : Lead lead)
    (hword : word ∈ blockedWords) (hlead' : Lead lead') (hword' : word' ∈ blockedWords)
    (h : lead ++ word ++ rest = lead' ++ word' ++ rest') : word = word' ∧ rest = rest' := by
  have hfree : ∀ word ∈ blockedWords, ∀ word' ∈ blockedWords, word.isPrefixOf word' = true →
      word = word' := by decide +kernel
  have htext := congrArg commandText h
  rw [commandText_lead hlead hword, commandText_lead hlead' hword'] at htext
  obtain rfl : word = word' := by
    rcases prefix_or_prefix_of_prefix ⟨rest, htext⟩ (prefix_append word' rest') with hle | hle
    · exact hfree _ hword _ hword' (List.isPrefixOf_iff_prefix.mpr hle)
    · exact (hfree _ hword' _ hword (List.isPrefixOf_iff_prefix.mpr hle)).symm
  exact ⟨rfl, append_cancel_left htext⟩

def bare (command : Bytes) : Bytes := command.filter fun c => !isLineEnd c

/-- A blocked word that the line ends in it or before it hide from the check. -/
def Hidden (command : Bytes) : Prop :=
  ∃ front rest lead word c, command = front ++ c :: rest ∧ bare front ++ [c] = lead ++ word ∧
    Lead lead ∧ (∃ d ∈ front, isLineEnd d) ∧ isLineEnd c = false ∧ word ∈ blockedWords ∧
    ((lead ++ word).length < 1023 ∧ Blocks word (bare rest) ∨ (lead ++ word).length = 1023)

/-- A word that begins with a blocked one and is cut to it by the buffer. -/
def Cut (command : Bytes) : Prop :=
  ∃ lead word rest, command = lead ++ word ++ rest ∧ Lead lead ∧ word ∈ blockedCommands ∧
    (lead ++ word).length = 1023 ∧ endsName rest = false

theorem endsName_take {n : Nat} (hn : 0 < n) (rest : Bytes) :
    endsName (rest.take n) = endsName rest := by
  obtain ⟨n, rfl⟩ := Nat.exists_eq_succ_of_ne_zero hn.ne'
  cases rest <;> rfl

theorem endsName_bare {rest : Bytes} (h : endsName rest = false) :
    endsName (bare rest) = false := by
  cases rest with
  | nil => cases h
  | cons c cs =>
    rw [endsName, Bool.or_eq_false_iff] at h
    rw [bare, filter_cons_of_pos (by simp [h.2]), endsName, h.1, h.2]
    rfl

theorem sanitized_append {front : Bytes} (rest : Bytes) (h : (bare front).length ≤ 1023) :
    sanitized (front ++ rest) = bare front ++ (bare rest).take (1023 - (bare front).length) := by
  rw [sanitized, filter_append, take_append, ← bare, ← bare, take_of_length_le h]

theorem bare_eq_self {text : Bytes} (h : ¬ ∃ c ∈ text, isLineEnd c = true) : bare text = text :=
  filter_eq_self.mpr fun c hc => by simpa using fun hend => h ⟨c, hc, hend⟩

/-- Where the text begins in the line that is sent, it begins in the command, line ends apart. -/
theorem command_split {command text rest : Bytes} (hne : text ≠ [])
    (h : bare command = text ++ rest) :
    ∃ front c back, command = front ++ c :: back ∧ bare front ++ [c] = text ∧
      isLineEnd c = false ∧ bare back = rest := by
  obtain ⟨init, c, rfl⟩ := (eq_nil_or_concat' text).resolve_left hne
  rw [append_assoc, singleton_append] at h
  obtain ⟨front, tail, rfl, hfront, htail⟩ := filter_eq_append_iff.mp h
  obtain ⟨ends, back, rfl, hends, hc, hback⟩ := filter_eq_cons_iff.mp htail
  refine ⟨front ++ ends, c, back, (append_assoc _ _ _).symm, ?_, by simpa using hc, hback⟩
  rw [bare, filter_append, hfront, filter_eq_nil_iff.mpr hends, append_nil]

theorem hidden_or_cut {command : Bytes} (hraw : commandIsBlocked command = false)
    (hsent : commandIsBlocked (sanitized command) = true) : Hidden command ∨ Cut command := by
  obtain ⟨lead, word, tail, hline, hlead, hblocks⟩ := commandIsBlocked_iff.mp hsent
  have hne : lead ++ word ≠ [] := by
    obtain ⟨c, cs, rfl, -⟩ := blockedWords_head hblocks.mem
    simp
  have hlen : (lead ++ word).length ≤ 1023 := by
    have := congrArg length hline
    rw [sanitized, length_take, length_append] at this
    omega
  obtain ⟨rest, hrest⟩ : lead ++ word <+: bare command :=
    IsPrefix.trans ⟨tail, hline.symm⟩ (List.take_prefix _ _)
  have htail : tail = rest.take (1023 - (lead ++ word).length) := by
    rw [sanitized, ← bare, ← hrest, take_append, take_of_length_le hlen] at hline
    exact (append_cancel_left hline).symm
  obtain ⟨front, c, back, rfl, hfront, hc, hback⟩ := command_split hne hrest.symm
  by_cases hends : ∃ d ∈ front, isLineEnd d = true
  · refine .inl ⟨front, back, lead, word, c, rfl, hfront, hlead, hends, hc, hblocks.mem, ?_⟩
    rcases hlen.eq_or_lt with heq | hlt
    · exact .inr heq
    · refine .inl ⟨hlt, ?_⟩
      rwa [Blocks, hback, ← endsName_take (Nat.sub_pos_of_lt hlt), ← htail]
  · -- no line end before the word ends, so the check saw the same word
    rw [bare_eq_self hends] at hfront
    have hcommand : front ++ c :: back = lead ++ word ++ back := by
      rw [← hfront, append_assoc, singleton_append]
    have hgoes : ¬ Blocks word back := by
      intro h
      rw [commandIsBlocked_iff.mpr ⟨lead, word, back, hcommand, hlead, h⟩] at hraw
      cases hraw
    rcases hblocks with hmark | hmark | ⟨hname, hover⟩
    · exact absurd (.inl hmark) hgoes
    · exact absurd (.inr (.inl hmark)) hgoes
    · have hback' : endsName back = false := by
        simpa using fun h => hgoes (.inr (.inr ⟨hname, h⟩))
      refine .inr ⟨lead, word, back, hcommand, hlead, hname, hlen.eq_or_lt.resolve_right ?_, hback'⟩
      intro hlt
      rw [htail, endsName_take (Nat.sub_pos_of_lt hlt), ← hback, endsName_bare hback'] at hover
      cases hover

theorem lineEnd_notMem {lead word : Bytes} (hlead : Lead lead) (hword : word ∈ blockedWords) :
    ¬ ∃ c ∈ lead ++ word, isLineEnd c = true := by
  have hwords : ∀ word ∈ blockedWords, ∀ c ∈ word, isLineEnd c = false := by
    decide +kernel
  obtain ⟨front, token, back, rfl, hfront, htoken, hback⟩ := hlead
  have hblank : ∀ c, isLineEnd c = true → isBlank c = false ∧ isDigit c = false := by
    intro c hc
    simp only [isLineEnd, Bool.or_eq_true, beq_iff_eq] at hc
    rcases hc with rfl | rfl <;> decide
  rintro ⟨c, hmem, hc⟩
  obtain ⟨hnb, hnd⟩ := hblank c hc
  simp only [mem_append] at hmem
  rcases hmem with ((hmem | hmem) | hmem) | hmem
  · simp [hfront c hmem] at hnb
  · simp [htoken c hmem] at hnd
  · simp [hback c hmem] at hnb
  · simp [hwords word hword c hmem] at hc

theorem accepted_of_hidden {command : Bytes} (h : Hidden command) :
    commandIsBlocked command = false := by
  obtain ⟨front, rest, lead, word, c, rfl, hfront, hlead, ⟨d, hd, hend⟩, -, hword, -⟩ := h
  rw [Bool.eq_false_iff]
  intro hblocked
  obtain ⟨lead', word', rest', hcommand, hlead', hblocks⟩ := commandIsBlocked_iff.mp hblocked
  rcases append_eq_append_iff.mp hcommand with ⟨tail, hseen, -⟩ | ⟨tail, hseen, -⟩
  · exact lineEnd_notMem hlead' hblocks.mem ⟨d, hseen ▸ mem_append_left _ hd, hend⟩
  · -- the word the check sees would be the start of the word that is sent
    have hline : lead ++ word ++ [] = lead' ++ word' ++ (bare tail ++ [c]) := by
      rw [append_nil, ← hfront, hseen, bare, filter_append, ← bare, ← bare,
        bare_eq_self (lineEnd_notMem hlead' hblocks.mem), append_assoc]
    simpa using (blockedWord_unique hlead hword hlead' hblocks.mem hline).2

theorem blocked_of_hidden {command : Bytes} (h : Hidden command) :
    commandIsBlocked (sanitized command) = true := by
  obtain ⟨front, rest, lead, word, c, rfl, hfront, hlead, -, hc, hword, hover⟩ := h
  have hbare : bare (front ++ [c]) = lead ++ word := by
    rw [← hfront, bare, filter_append, filter_singleton, hc]
    rfl
  have hlen : (lead ++ word).length ≤ 1023 := by omega
  rw [append_cons, sanitized_append rest (by rwa [hbare]), hbare]
  refine commandIsBlocked_iff.mpr ⟨lead, word, _, rfl, hlead, ?_⟩
  rcases hover with ⟨hlt, hover⟩ | heq
  · rwa [Blocks, endsName_take (Nat.sub_pos_of_lt hlt)]
  · rw [heq, Nat.sub_self, take_zero]
    simpa [Blocks, endsName, blockedWords] using hword

theorem accepted_of_cut {command : Bytes} (h : Cut command) : commandIsBlocked command = false := by
  obtain ⟨lead, word, rest, rfl, hlead, hname, -, hover⟩ := h
  have hword : word ∈ blockedWords := mem_cons_of_mem _ (mem_cons_of_mem _ hname)
  rw [Bool.eq_false_iff]
  intro hblocked
  obtain ⟨lead', word', rest', hcommand, hlead', hblocks⟩ := commandIsBlocked_iff.mp hblocked
  obtain ⟨rfl, rfl⟩ := blockedWord_unique hlead hword hlead' hblocks.mem hcommand
  have hmarks : ∀ word ∈ blockedCommands, word ≠ ascii "!" ∧ word ≠ ascii "|" := by decide
  simp [Blocks, hover, hmarks word hname] at hblocks

theorem blocked_of_cut {command : Bytes} (h : Cut command) :
    commandIsBlocked (sanitized command) = true := by
  obtain ⟨lead, word, rest, rfl, hlead, hname, hlen, -⟩ := h
  have hword : word ∈ blockedWords := mem_cons_of_mem _ (mem_cons_of_mem _ hname)
  have hbare := bare_eq_self (lineEnd_notMem hlead hword)
  rw [sanitized_append rest (by rw [hbare, hlen]), hbare, hlen, Nat.sub_self, take_zero]
  exact commandIsBlocked_iff.mpr ⟨lead, word, [], rfl, hlead, .inr (.inr ⟨hname, rfl⟩)⟩

theorem toolCommand_accepted (codec : Codec) (g : GdbMcp) {args : Json} {command : Bytes}
    (hcommand : args.getString "command" = some command) (h : commandIsBlocked command = false) :
    (toolCommand codec g args).1.sent =
      g.sent ++ [decimal g.nextToken ++ sanitized command ++ [newline]] := by
  simp only [toolCommand, hcommand, h, Bool.false_eq_true, if_false]
  cases (gdbMiCommand g (sanitized command)).2 with
  | none => rfl
  | some reply =>
    dsimp only
    split_ifs <;> rfl

/-- What the raw-command tool sends is one that the check accepts, with the token in front and
without it, just when no blocked word is hidden in the command by line ends or cut out of it. -/
theorem sent_command_accepted (codec : Codec) (g : GdbMcp) (args : Json) :
    (∃ lines, (toolCommand codec g args).1.sent = g.sent ++ lines ∧ ∀ line ∈ lines, ∃ cmd,
      line = decimal g.nextToken ++ cmd ++ [newline] ∧ commandIsBlocked cmd = false ∧
      commandIsBlocked (decimal g.nextToken ++ cmd) = false) ↔
      ∀ command, args.getString "command" = some command → ¬ (Hidden command ∨ Cut command) := by
  constructor
  · rintro ⟨lines, hlines, haccepted⟩ command hcommand hkind
    have hraw : commandIsBlocked command = false := hkind.elim accepted_of_hidden accepted_of_cut
    have hsent : commandIsBlocked (sanitized command) = true :=
      hkind.elim blocked_of_hidden blocked_of_cut
    rw [toolCommand_accepted codec g hcommand hraw] at hlines
    obtain ⟨cmd, hline, hcmd, -⟩ := haccepted _ (append_cancel_left hlines ▸ mem_singleton_self _)
    rw [← append_cancel_left (append_cancel_right hline), hsent] at hcmd
    cases hcmd
  · intro h
    cases hcommand : args.getString "command" with
    | none => exact ⟨[], by simp [toolCommand, hcommand], nofun⟩
    | some command =>
      by_cases hraw : commandIsBlocked command = true
      · exact ⟨[], by simp [toolCommand, hcommand, hraw], nofun⟩
      · rw [Bool.not_eq_true] at hraw
        have hcmd : commandIsBlocked (sanitized command) = false := by
          rw [Bool.eq_false_iff]
          exact fun hsent => h command hcommand (hidden_or_cut hraw hsent)
        refine ⟨_, toolCommand_accepted codec g hcommand hraw, fun line hline =>
          ⟨_, mem_singleton.mp hline, hcmd, ?_⟩⟩
        exact commandIsBlocked_token (decimal_digits _) (decimal_ne_nil _) hcmd

def gdbServer : GdbMcp := ⟨1, [], []⟩

def textArgs (key text : String) : Json := .obj [(key, .str (ascii text))]

/-- The check sees `she`, a newline and `ll id`; the line that goes out is `shell id`. -/
theorem blocked_command_sent :
    (toolCommand JsonText.textCodec gdbServer (textArgs "command" "she\nll id")).1.sent =
        [decimal 1 ++ ascii "shell id" ++ [newline]] ∧
      commandIsBlocked (ascii "shell id") = true :=
  ⟨rfl, by decide⟩

/-- What a tool means to ask gdb for: an operation with these options and operands, or
with this text as it stands. -/
inductive Ask
  | words (name : Bytes) (options operands : List Bytes)
  | text (name args : Bytes)

/-- The operations that take what starts with a dash for an option. -/
def readsOptions (name : Bytes) : Bool :=
  name == ascii "break-insert" || name == ascii "data-read-memory-bytes"

def Ask.Met : Ask → Mi.Input → Prop
  | .words name options operands, input =>
    input.name = name ∧ argv input.args = some (options ++ operands) ∧
      (readsOptions name = true → ∀ text ∈ operands.head?, text.head? ≠ some dash)
  -- every operation takes `--thread` and the like in front of its text
  | .text name args, input => input.name = name ∧ input.args = args ∧ args.head? ≠ some dash

/-- The line is one command, and gdb reads it as what is asked for. -/
def Carries (line : Bytes) (ask : Ask) : Prop :=
  ∃ cmd input, line = cmd ++ [newline] ∧ newline ∉ cmd ∧ Mi.parse cmd = some input ∧
    ask.Met input

inductive MiTool
  | launch
  | breakpoint
  | readMemory
  | evaluate

def MiTool.call : MiTool → GdbMcp → Json → GdbMcp × Bytes
  | .launch => toolLaunch
  | .breakpoint => toolBreakpoint
  | .readMemory => toolReadMemory
  | .evaluate => toolEvaluate

def MiTool.argument : MiTool → String
  | .launch => "executable"
  | .breakpoint => "location"
  | .readMemory => "address"
  | .evaluate => "expression"

def breakOptions (temporary : Bool) (cond : Option Bytes) : List Bytes :=
  (if temporary then [ascii "-t"] else []) ++
    match cond with
    | some (c :: cs) => [ascii "-c", c :: cs]
    | _ => []

def MiTool.asks (tool : MiTool) (args : Json) (text : Bytes) : List Ask :=
  match tool with
  | .launch =>
    .words (ascii "file-exec-and-symbols") [] [text] ::
      match args.getString "target" with
      | some (c :: cs) => [.text (ascii "target-select") (c :: cs)]
      | _ => []
  | .breakpoint =>
    [.words (ascii "break-insert")
      (breakOptions (args.getBool "temporary" false) (args.getString "condition")) [text]]
  | .readMemory =>
    [.words (ascii "data-read-memory-bytes") [] [text, decimal (memoryLength args)]]
  | .evaluate => [.words (ascii "data-evaluate-expression") [] [text]]

structure Quotable (text : Bytes) : Prop where
  unescaped : Unescaped text
  oneLine : newline ∉ text

structure Raw (text : Bytes) : Prop where
  unspaced : ∀ c ∈ text.head?, isSpace c = false
  operand : text.head? ≠ some dash
  oneLine : newline ∉ text

/-- Gdb has answered, and not with an error, where the tool would go on to the target. -/
def GdbMcp.Loads (g : GdbMcp) : Prop := miErrorText g.replies.head?.join = none

/-- The caller's text needs no escape where it is put, and the command fits its buffer. -/
def MiTool.Clean (tool : MiTool) (g : GdbMcp) (args : Json) (text : Bytes) : Prop :=
  match tool with
  | .launch =>
    (Quotable text ∧ (fileCommand text).length < 512) ∧
      ∀ target, args.getString "target" = some target → g.Loads →
        Raw target ∧ (targetCommand target).length < 512
  | .breakpoint =>
    Operand text ∧ ∀ cond, args.getString "condition" = some cond → Quotable cond
  | .readMemory => Operand text ∧ (memoryCommand text (memoryLength args)).length < 256
  | .evaluate => Quotable text ∧ (evaluateCommand text).length < 512

variable {cond : Option Bytes} {loc : Bytes} (token : Nat) (temporary : Bool)

theorem newline_not_digit {n : Nat} : newline ∉ decimal n := by
  intro h
  exact absurd (decimal_digits n _ h) (by decide)

theorem newline_not_word {text : Bytes} (h : Word text) : newline ∉ text := by
  intro hmem
  exact absurd (h.unspaced _ hmem) (by decide)

theorem newline_quotes_iff {text : Bytes} : newline ∉ quotes text ↔ newline ∉ text := by
  simp [quotes, show newline ≠ quote by decide]

theorem carries_iff {name args : Bytes} {ask : Ask} (hname : ∀ c ∈ name, isSpace c = false) :
    Carries (decimal token ++ (dash :: (name ++ 32 :: args)) ++ [newline]) ask ↔
      newline ∉ args ∧ ask.Met ⟨decimal token, name, args.dropWhile isSpace⟩ := by
  have hnewline : newline ∉ name := fun h => absurd (hname _ h) (by decide)
  have hline : newline ∉ decimal token ++ (dash :: (name ++ 32 :: args)) ↔ newline ∉ args := by
    simp [newline_not_digit, hnewline, show newline ≠ dash by decide, show newline ≠ 32 by decide]
  have hparse : parse (decimal token ++ dash :: (name ++ 32 :: args)) = _ :=
    parse_command (decimal_digits token) hname
  constructor
  · rintro ⟨cmd, input, hcmd, hone, hinput, hmet⟩
    obtain rfl := append_cancel_right hcmd
    rw [hparse] at hinput
    obtain rfl := Option.some.inj hinput
    exact ⟨hline.mp hone, hmet⟩
  · rintro ⟨hone, hmet⟩
    exact ⟨_, _, rfl, hline.mpr hone, hparse, hmet⟩

theorem carries_words_iff {name args : Bytes} {options operands : List Bytes}
    (hname : ∀ c ∈ name, isSpace c = false) :
    Carries (decimal token ++ (dash :: (name ++ 32 :: args)) ++ [newline])
        (.words name options operands) ↔
      newline ∉ args ∧ argv args = some (options ++ operands) ∧
        (readsOptions name = true → ∀ text ∈ operands.head?, text.head? ≠ some dash) := by
  rw [carries_iff token hname]
  simp only [Ask.Met, argv_dropWhile, true_and]

theorem stored_command {size : Nat} {name args : Bytes} (h : name.length + 3 ≤ size) :
    stored size (dash :: (name ++ 32 :: args)) =
      dash :: (name ++ 32 :: args.take (size - (name.length + 3))) := by
  obtain ⟨n, rfl⟩ := Nat.exists_eq_add_of_le h
  have htake : name.length + 3 + n - 1 = name.length + 1 + n + 1 := by omega
  rw [stored, htake, take_succ_cons, take_append, take_of_length_le (by omega),
    show name.length + 1 + n - name.length = n + 1 by omega, take_succ_cons, Nat.add_sub_cancel_left]

theorem carries_quotes_iff {size : Nat} {name text : Bytes}
    (hname : ∀ c ∈ name, isSpace c = false) (hplain : readsOptions name = false)
    (hsize : name.length + 3 < size) :
    let command := dash :: (name ++ 32 :: quotes text)
    Carries (decimal token ++ stored size command ++ [newline]) (.words name [] [text]) ↔
      Quotable text ∧ command.length < size := by
  have hlength : (dash :: (name ++ 32 :: quotes text)).length = name.length + 4 + text.length := by
    simp only [quotes, length_cons, length_append, length_nil]
    omega
  have hread : argv (quotes text) = some [text] ↔ Unescaped text := by
    rw [← append_nil (quotes text), argv_quotes_iff le_rfl]
    exact and_iff_left rfl
  simp only [hlength]
  by_cases hfits : name.length + 4 + text.length < size
  · rw [stored_fits (by rwa [hlength]), carries_words_iff token hname, newline_quotes_iff,
      nil_append, hread]
    simp only [hplain, hfits, Bool.false_eq_true, false_implies, and_true]
    exact ⟨fun h => ⟨h.2, h.1⟩, fun h => ⟨h.2, h.1⟩⟩
  · refine iff_of_false (fun h => ?_) fun h => hfits h.2
    rw [stored_command hsize.le, carries_words_iff token hname] at h
    obtain ⟨n, hn⟩ := Nat.exists_eq_add_of_lt hsize
    have hnext : Scan.gap.next quote = some (.quoted [], []) := by decide
    rw [show size - (name.length + 3) = n + 1 by omega, quotes, take_succ_cons, argv,
      argvFrom_cons_nil hnext] at h
    have hwidth := argvFrom_width h.2.1
    simp only [nil_append, width_cons, width_nil, Scan.weight, length_nil, length_take] at hwidth
    omega

theorem decimal_word (n : Nat) : Word (decimal n) := by
  refine ⟨decimal_ne_nil n, ?_, ?_⟩
  · intro c hc
    rw [Bool.eq_false_iff]
    intro hspace
    have hdigit := decimal_digits n c hc
    simp only [isDigit, isSpace, Bool.or_eq_true, Bool.and_eq_true, beq_iff_eq,
      decide_eq_true_eq] at hdigit hspace
    rcases hspace with rfl | hspace
    · exact absurd hdigit.1 (by decide)
    · exact absurd (UInt8.le_trans hdigit.1 hspace.2) (by decide)
  · intro hquote
    exact absurd (decimal_digits n _ (mem_of_mem_head? hquote)) (by decide)

theorem operand_iff {text : Bytes} : Operand text ↔ Word text ∧ text.head? ≠ some dash :=
  ⟨fun h => ⟨h.toWord, h.operand⟩, fun h => ⟨h.1, h.2⟩⟩

theorem carries_memory_iff {addr : Bytes} (length : Nat) :
    Carries (decimal token ++ stored 256 (memoryCommand addr length) ++ [newline])
        (.words (ascii "data-read-memory-bytes") [] [addr, decimal length]) ↔
      Operand addr ∧ (memoryCommand addr length).length < 256 := by
  have hname : ∀ c ∈ ascii "data-read-memory-bytes", isSpace c = false := by simp [ascii, isSpace]
  have hnameLength : (ascii "data-read-memory-bytes").length = 22 := by decide
  have hcommand : memoryCommand addr length =
      dash :: (ascii "data-read-memory-bytes" ++ 32 :: (addr ++ 32 :: decimal length)) := by
    simp [memoryCommand, ascii, dash]
  have hlength : (memoryCommand addr length).length =
      25 + addr.length + (decimal length).length := by
    simp only [hcommand, length_cons, length_append, hnameLength]
    omega
  rw [hlength, hcommand, stored_command (by rw [hnameLength]; decide), carries_words_iff token hname,
    hnameLength, operand_iff]
  constructor
  · rintro ⟨-, hargs, hdash⟩
    have hwidth := argvFrom_width hargs
    simp only [nil_append, width_cons, width_nil, Scan.weight, length_take, length_append,
      length_cons] at hwidth
    rw [take_of_length_le (by simp only [length_append, length_cons]; omega)] at hargs
    exact ⟨⟨word_of_argv hargs (by simp) (by simp [isSpace]), hdash rfl addr rfl⟩, by omega⟩
  · rintro ⟨⟨hword, hdash⟩, hfits⟩
    rw [take_of_length_le (by simp only [length_append, length_cons]; omega),
      argv_word_blank hword, argv_word (decimal_word length)]
    refine ⟨?_, rfl, fun _ text htext => Option.some.inj htext ▸ hdash⟩
    simp only [mem_append, mem_cons, not_or]
    exact ⟨newline_not_word hword, by decide, newline_not_digit⟩

theorem carries_target_iff {target : Bytes} :
    Carries (decimal token ++ stored 512 (targetCommand target) ++ [newline])
        (.text (ascii "target-select") target) ↔
      Raw target ∧ (targetCommand target).length < 512 := by
  have hname : ∀ c ∈ ascii "target-select", isSpace c = false := by simp [ascii, isSpace]
  have hnameLength : (ascii "target-select").length = 13 := by decide
  have hcommand : targetCommand target = dash :: (ascii "target-select" ++ 32 :: target) := by
    simp [targetCommand, ascii, dash]
  have hlength : (targetCommand target).length = 15 + target.length := by
    simp only [hcommand, length_cons, length_append, hnameLength]
    omega
  have hspace : target.dropWhile isSpace = target ↔ ∀ c ∈ target.head?, isSpace c = false := by
    cases target with
    | nil => simp
    | cons c cs =>
      by_cases hc : isSpace c = true
      · refine iff_of_false (fun h => ?_) (by simp [hc])
        have := (dropWhile_suffix isSpace (l := cs)).length_le
        rw [dropWhile_cons_of_pos hc] at h
        rw [h, length_cons] at this
        omega
      · simp [dropWhile_cons_of_neg hc, hc]
  rw [hlength, hcommand, stored_command (by rw [hnameLength]; decide), carries_iff token hname,
    hnameLength]
  simp only [Ask.Met, true_and]
  constructor
  · rintro ⟨hone, hargs, hdash⟩
    have hle := (dropWhile_suffix isSpace (l := target.take 496)).length_le
    rw [show 512 - (13 + 3) = 496 from rfl] at hone hargs
    rw [hargs, length_take] at hle
    rw [take_of_length_le (by omega)] at hone hargs
    exact ⟨⟨hspace.mp hargs, hdash, hone⟩, by omega⟩
  · rintro ⟨hraw, hfits⟩
    rw [take_of_length_le (by omega)]
    exact ⟨hraw.oneLine, hspace.mpr hraw.unspaced, hraw.operand⟩

def breakText (temporary : Bool) (cond : Option Bytes) (loc : Bytes) : Bytes :=
  (if temporary then ascii "-t " else []) ++
    (match cond with
      | some (c :: cs) => ascii "-c " ++ (quotes (c :: cs) ++ ascii " ")
      | _ => []) ++ loc

theorem breakCommand_eq (cond : Option Bytes) (loc : Bytes) :
    breakCommand temporary cond loc =
      dash :: (ascii "break-insert" ++ 32 :: breakText temporary cond loc) := by
  match temporary, cond with
  | true, none => rfl
  | true, some [] => rfl
  | false, none => rfl
  | false, some [] => rfl
  | true, some (c :: cs) => simp [breakCommand, breakText, ascii, dash]
  | false, some (c :: cs) => simp [breakCommand, breakText, ascii, dash]

theorem argv_location_iff : argv loc = some [loc] ↔ Word loc := by
  refine ⟨fun h => ?_, argv_word⟩
  have hline : argv (loc ++ []) = some [loc] := by rwa [append_nil]
  exact word_of_argv hline le_rfl nofun

theorem word_flags : Word (ascii "-c") ∧ Word (ascii "-t") := by decide +kernel

theorem argv_condition_iff :
    argv (breakText false cond loc) = some (breakOptions false cond ++ [loc]) ↔
      Word loc ∧ ∀ text, cond = some text → Unescaped text := by
  match cond with
  | none => exact argv_location_iff.trans (and_iff_left nofun).symm
  | some [] => exact argv_location_iff.trans (and_iff_left (by rintro text ⟨⟩; exact nofun)).symm
  | some (c :: cs) =>
    have htext : breakText false (some (c :: cs)) loc =
        ascii "-c" ++ 32 :: (quotes (c :: cs) ++ 32 :: loc) := by
      simp [breakText, ascii]
    have hoptions : breakOptions false (some (c :: cs)) ++ [loc] =
      ascii "-c" :: [c :: cs, loc] := rfl
    rw [htext, argv_word_blank word_flags.1, hoptions, Option.map_eq_some_iff]
    simp only [cons.injEq, true_and, exists_eq_right]
    rw [argv_quotes_iff (by simp), argvFrom_closed_blank, argv_location_iff, and_comm]
    simp

theorem argv_breakText_iff :
    argv (breakText temporary cond loc) = some (breakOptions temporary cond ++ [loc]) ↔
      Word loc ∧ ∀ text, cond = some text → Unescaped text := by
  cases temporary with
  | false => exact argv_condition_iff
  | true =>
    have htext : breakText true cond loc = ascii "-t" ++ 32 :: breakText false cond loc := by
      simp [breakText, ascii]
    have hoptions : breakOptions true cond ++ [loc] =
        ascii "-t" :: (breakOptions false cond ++ [loc]) := by simp [breakOptions]
    rw [htext, argv_word_blank word_flags.2, hoptions, Option.map_eq_some_iff]
    simp only [cons.injEq, true_and, exists_eq_right]
    exact argv_condition_iff

theorem newline_breakText_iff : newline ∉ breakText temporary cond loc ↔
    newline ∉ loc ∧ ∀ text, cond = some text → newline ∉ text := by
  have hflag : newline ∉ (if temporary then ascii "-t " else []) := by
    cases temporary <;> decide
  have hfront : newline ∉ ascii "-c " := by decide
  have hback : newline ∉ ascii " " := by decide
  simp only [breakText, mem_append, hflag, false_or, not_or, and_comm (b := newline ∉ loc)]
  refine and_congr_right fun _ => ?_
  match cond with
  | none => simp
  | some [] => simp
  | some (c :: cs) =>
    simp only [mem_append, hfront, hback, false_or, or_false, newline_quotes_iff,
      Option.some.injEq, forall_eq']

theorem carries_break_iff :
    Carries (decimal token ++ breakCommand temporary cond loc ++ [newline])
        (.words (ascii "break-insert") (breakOptions temporary cond) [loc]) ↔
      Operand loc ∧ ∀ text, cond = some text → Quotable text := by
  rw [breakCommand_eq, carries_words_iff token (by simp [ascii, isSpace]), newline_breakText_iff,
    argv_breakText_iff, operand_iff]
  constructor
  · rintro ⟨⟨-, hone⟩, ⟨hword, hcond⟩, hdash⟩
    exact ⟨⟨hword, hdash rfl loc rfl⟩, fun text htext => ⟨hcond text htext, hone text htext⟩⟩
  · rintro ⟨⟨hword, hdash⟩, hcond⟩
    exact ⟨⟨newline_not_word hword, fun text htext => (hcond text htext).oneLine⟩,
      ⟨hword, fun text htext => (hcond text htext).unescaped⟩,
      fun _ text htext => Option.some.inj htext ▸ hdash⟩

theorem carries_file_iff {text : Bytes} :
    Carries (decimal token ++ stored 512 (fileCommand text) ++ [newline])
        (.words (ascii "file-exec-and-symbols") [] [text]) ↔
      Quotable text ∧ (fileCommand text).length < 512 := by
  have hcommand : fileCommand text =
      dash :: (ascii "file-exec-and-symbols" ++ 32 :: quotes text) := by
    simp [fileCommand, ascii, dash]
  rw [hcommand]
  exact carries_quotes_iff token (by simp [ascii, isSpace]) (by decide) (by decide)

theorem carries_evaluate_iff {text : Bytes} :
    Carries (decimal token ++ stored 512 (evaluateCommand text) ++ [newline])
        (.words (ascii "data-evaluate-expression") [] [text]) ↔
      Quotable text ∧ (evaluateCommand text).length < 512 := by
  have hcommand : evaluateCommand text =
      dash :: (ascii "data-evaluate-expression" ++ 32 :: quotes text) := by
    simp [evaluateCommand, ascii, dash]
  rw [hcommand]
  exact carries_quotes_iff token (by simp [ascii, isSpace]) (by decide) (by decide)

section Tools

variable {g : GdbMcp} {args : Json} {text : Bytes}

/-- Each line that went out since `g` is read as what is asked for in its place. -/
def Carried (g g' : GdbMcp) (asks : List Ask) : Prop :=
  ∃ lines asked, g'.sent = g.sent ++ lines ∧ lines ≠ [] ∧ asked <+: asks ∧
    List.Forall₂ Carries lines asked

theorem carried_once {g' : GdbMcp} {ask : Ask} {asks : List Ask}
    (h : g' = (gdbMiCommand g cmd).1) :
    Carried g g' (ask :: asks) ↔ Carries (decimal g.nextToken ++ cmd ++ [newline]) ask := by
  subst h
  constructor
  · rintro ⟨lines, asked, hsent, -, hasked, hcarries⟩
    obtain rfl := append_cancel_left hsent
    cases hcarries with
    | cons hline _ =>
      obtain rfl := (prefix_cons_iff.mp hasked).elim nofun fun ⟨_, heq, _⟩ => (cons.inj heq).1
      exact hline
  · intro hline
    exact ⟨_, [ask], rfl, cons_ne_nil _ _, (prefix_cons_inj _).mpr nil_prefix, .cons hline .nil⟩

theorem carried_twice {g' : GdbMcp} {cmd' : Bytes} {ask ask' : Ask}
    (h : g' = (gdbMiCommand (gdbMiCommand g cmd).1 cmd').1) :
    Carried g g' [ask, ask'] ↔ Carries (decimal g.nextToken ++ cmd ++ [newline]) ask ∧
      Carries (decimal (gdbMiCommand g cmd).1.nextToken ++ cmd' ++ [newline]) ask' := by
  subst h
  constructor
  · rintro ⟨lines, asked, hsent, -, hasked, hcarries⟩
    obtain rfl := append_cancel_left ((append_assoc _ _ _).symm.trans hsent)
    cases hcarries with
    | cons hline hrest =>
      cases hrest with
      | cons hline' hend =>
        cases hend
        cases hasked.eq_of_length rfl
        exact ⟨hline, hline'⟩
  · rintro ⟨hline, hline'⟩
    exact ⟨_, _, append_assoc _ _ _, cons_ne_nil _ _, prefix_refl _, .cons hline (.cons hline' .nil)⟩

theorem toolEvaluate_state (h : args.getString "expression" = some text) :
    (toolEvaluate g args).1 = (gdbMiCommand g (stored 512 (evaluateCommand text))).1 := by
  simp only [toolEvaluate, h]
  split <;> rfl

theorem toolReadMemory_state (h : args.getString "address" = some text) :
    (toolReadMemory g args).1 =
      (gdbMiCommand g (stored 256 (memoryCommand text (memoryLength args)))).1 := by
  simp only [toolReadMemory, h]
  split <;> rfl

theorem toolBreakpoint_state (h : args.getString "location" = some text) :
    (toolBreakpoint g args).1 = (gdbMiCommand g (breakCommand (args.getBool "temporary" false)
      (args.getString "condition") text)).1 := by
  simp only [toolBreakpoint, h]
  split <;> rfl

theorem selectTarget_state (out target : Bytes) :
    (selectTarget g out target).1 = (gdbMiCommand g (stored 512 (targetCommand target))).1 := by
  unfold selectTarget
  dsimp only
  split_ifs <;> rfl

theorem toolLaunch_state (h : args.getString "executable" = some text) :
    let g' := (gdbMiCommand g (stored 512 (fileCommand text))).1
    (toolLaunch g args).1 = g' ∧ (g.Loads → ∀ c cs, args.getString "target" ≠ some (c :: cs)) ∨
      g.Loads ∧ ∃ c cs, args.getString "target" = some (c :: cs) ∧
        (toolLaunch g args).1 = (gdbMiCommand g' (stored 512 (targetCommand (c :: cs)))).1 := by
  have hreply : (gdbMiCommand g (stored 512 (fileCommand text))).2 = g.replies.head?.join := rfl
  simp only [toolLaunch, h, hreply, GdbMcp.Loads]
  split
  · next err herr => exact .inl ⟨rfl, fun hloads => by simp [herr] at hloads⟩
  · next hloads =>
    split
    · next c cs htarget => exact .inr ⟨hloads, c, cs, htarget, selectTarget_state _ _⟩
    · next htarget => exact .inl ⟨rfl, fun _ => htarget⟩

theorem raw_nil : Raw [] := ⟨nofun, nofun, not_mem_nil⟩

theorem toolLaunch_carried (htext : args.getString "executable" = some text) :
    Carried g (toolLaunch g args).1 (MiTool.launch.asks args text) ↔
      MiTool.launch.Clean g args text := by
  simp only [MiTool.Clean, MiTool.asks]
  rcases toolLaunch_state htext with ⟨hstate, htarget⟩ | ⟨hloads, c, cs, htarget, hstate⟩
  · rw [carried_once hstate, carries_file_iff]
    refine (and_iff_left ?_).symm
    intro target hsome hloads
    cases target with
    | nil => exact ⟨raw_nil, by decide⟩
    | cons c cs => exact absurd hsome (htarget hloads c cs)
  · simp only [htarget]
    rw [carried_twice hstate, carries_file_iff, carries_target_iff]
    simp [hloads]

/-- A tool refuses, or gdb reads each line that it sends as the operation that is meant with the
caller's text for its argument, just when the text is clean. Only `gdb_launch` sends more than
one line, the second when the first has succeeded. -/
theorem mi_commands_carry_arguments (tool : MiTool) (g : GdbMcp) (args : Json) :
    match args.getString tool.argument with
    | none => tool.call g args = (g, missing tool.argument)
    | some text => Carried g (tool.call g args).1 (tool.asks args text) ↔ tool.Clean g args text := by
  cases htext : args.getString tool.argument with
  | none =>
    cases tool with
    | launch => simp only [MiTool.call, MiTool.argument, toolLaunch] at htext ⊢; rw [htext]
    | breakpoint => simp only [MiTool.call, MiTool.argument, toolBreakpoint] at htext ⊢; rw [htext]
    | readMemory => simp only [MiTool.call, MiTool.argument, toolReadMemory] at htext ⊢; rw [htext]
    | evaluate => simp only [MiTool.call, MiTool.argument, toolEvaluate] at htext ⊢; rw [htext]
  | some text =>
    cases tool with
    | launch => exact toolLaunch_carried htext
    | breakpoint => exact (carried_once (toolBreakpoint_state htext)).trans (carries_break_iff _ _)
    | readMemory =>
      exact (carried_once (toolReadMemory_state htext)).trans (carries_memory_iff _ _)
    | evaluate => exact (carried_once (toolEvaluate_state htext)).trans (carries_evaluate_iff _)

/-- An expression with a quote and newlines makes gdb run another operation. -/
theorem evaluate_injects_command :
    let sent := (toolEvaluate gdbServer (textArgs "expression" "0\"\n-exec-run\n\"")).1.sent
    let read := Framing.items newline some sent.flatten
    read = [ascii "1-data-evaluate-expression \"0\"", ascii "-exec-run", ascii "\"\""] ∧
      (Mi.parse (ascii "-exec-run")).map (·.name) = some (ascii "exec-run") := by
  decide

end Tools

end Smolmux.Mcp
