import Mathlib.Algebra.Ring.Nat
import Smolmux.Bytes

/-! Input lines of GDB/MI: a token of digits, an operation after a dash, and arguments
that are plain words or C strings in quotes. -/

namespace Smolmux.Mi
open List

def quote : UInt8 := 34
def backslash : UInt8 := 92
def dash : UInt8 := 45

def isSpace (c : UInt8) : Bool := c == 32 || (decide (9 ≤ c) && decide (c ≤ 13))

def isOctal (c : UInt8) : Bool := decide (48 ≤ c) && decide (c ≤ 55)

def escaped (c : UInt8) : UInt8 :=
  if c = 97 then 7
  else if c = 98 then 8
  else if c = 102 then 12
  else if c = 110 then 10
  else if c = 114 then 13
  else if c = 116 then 9
  else if c = 118 then 11
  else c

inductive Scan
  | gap
  | word (arg : Bytes)
  | quoted (arg : Bytes)
  | escape (arg : Bytes)
  | octal (arg : Bytes) (value digits : Nat)
  | closed
  deriving DecidableEq

def inQuotes (arg : Bytes) (c : UInt8) : Scan × List Bytes :=
  if c = quote then (.closed, [arg])
  else if c = backslash then (.escape arg, [])
  else (.quoted (arg ++ [c]), [])

/-- One byte more: the arguments that it ends, or nothing where the line is refused. -/
def Scan.next : Scan → UInt8 → Option (Scan × List Bytes)
  | .gap, c =>
    if isSpace c then some (.gap, [])
    else if c = quote then some (.quoted [], [])
    else some (.word [c], [])
  | .word arg, c => if isSpace c then some (.gap, [arg]) else some (.word (arg ++ [c]), [])
  | .quoted arg, c => some (inQuotes arg c)
  | .escape arg, c =>
    if isOctal c then some (.octal arg (c.toNat - 48) 1, [])
    else some (.quoted (arg ++ [escaped c]), [])
  | .octal arg value digits, c =>
    if isOctal c && decide (digits < 3) then
      some (.octal arg (8 * value + (c.toNat - 48)) (digits + 1), [])
    else some (inQuotes (arg ++ [UInt8.ofNat value]) c)
  -- a closing quote has to be followed by white space
  | .closed, c => if isSpace c then some (.gap, []) else none

def Scan.finish : Scan → Option (List Bytes)
  | .gap | .closed => some []
  | .word arg => some [arg]
  | .quoted _ | .escape _ | .octal _ _ _ => none

def argvFrom : Scan → Bytes → Option (List Bytes)
  | s, [] => s.finish
  | s, c :: cs => (s.next c).bind fun r => (argvFrom r.1 cs).map (r.2 ++ ·)

def argv (args : Bytes) : Option (List Bytes) := argvFrom .gap args

structure Input where
  token : Bytes
  name : Bytes
  args : Bytes

/-- A line without its newline; nothing where it is not an MI command. -/
def parse (line : Bytes) : Option Input :=
  match line.dropWhile isDigit with
  | [] => none
  | c :: cs =>
    if c = dash then
      some ⟨line.takeWhile isDigit, cs.takeWhile (!isSpace ·),
        (cs.dropWhile (!isSpace ·)).dropWhile isSpace⟩
    else none

def Unescaped (text : Bytes) : Prop := ∀ c ∈ text, c ≠ quote ∧ c ≠ backslash

/-- Text that stands for itself outside of quotes. -/
structure Word (text : Bytes) : Prop where
  nonempty : text ≠ []
  unspaced : ∀ c ∈ text, isSpace c = false
  plain : text.head? ≠ some quote

structure Operand (text : Bytes) : Prop extends Word text where
  operand : text.head? ≠ some dash

instance (text : Bytes) : Decidable (Unescaped text) :=
  inferInstanceAs (Decidable (∀ c ∈ text, c ≠ quote ∧ c ≠ backslash))

instance (text : Bytes) : Decidable (Word text) :=
  haveI : Decidable (∀ c ∈ text, isSpace c = false) := List.decidableBAll _ text
  decidable_of_iff (text ≠ [] ∧ (∀ c ∈ text, isSpace c = false) ∧ text.head? ≠ some quote)
    ⟨fun h => ⟨h.1, h.2.1, h.2.2⟩, fun h => ⟨h.1, h.2, h.3⟩⟩

variable {text : Bytes}

theorem argvFrom_cons {s s' : Scan} {c : UInt8} {cs : Bytes} {out : List Bytes}
    (h : s.next c = some (s', out)) :
    argvFrom s (c :: cs) = (argvFrom s' cs).map (out ++ ·) := by
  simp [argvFrom, h]

theorem argvFrom_cons_nil {s s' : Scan} {c : UInt8} {cs : Bytes} (h : s.next c = some (s', [])) :
    argvFrom s (c :: cs) = argvFrom s' cs := by
  rw [argvFrom_cons h]
  simp

theorem argvFrom_quoted (h : Unescaped text) (arg rest : Bytes) :
    argvFrom (.quoted arg) (text ++ quote :: rest) =
      (argvFrom .closed rest).map ((arg ++ text) :: ·) := by
  induction text generalizing arg with
  | nil =>
    have hnext : (Scan.quoted arg).next quote = some (.closed, [arg]) := by
      simp [Scan.next, inQuotes]
    rw [nil_append, argvFrom_cons hnext, append_nil]
    rfl
  | cons c cs ih =>
    obtain ⟨hquote, hback⟩ := h c mem_cons_self
    have hnext : (Scan.quoted arg).next c = some (.quoted (arg ++ [c]), []) := by
      simp [Scan.next, inQuotes, hquote, hback]
    rw [cons_append, argvFrom_cons hnext, ih fun d hd => h d (mem_cons_of_mem _ hd)]
    simp [Option.map_map, Function.comp_def]

theorem argvFrom_word (h : ∀ c ∈ text, isSpace c = false) (arg rest : Bytes) :
    argvFrom (.word arg) (text ++ rest) = argvFrom (.word (arg ++ text)) rest := by
  induction text generalizing arg with
  | nil => simp
  | cons c cs ih =>
    have hnext : (Scan.word arg).next c = some (.word (arg ++ [c]), []) := by
      simp [Scan.next, h c mem_cons_self]
    rw [cons_append, argvFrom_cons hnext, ih fun d hd => h d (mem_cons_of_mem _ hd)]
    simp

theorem argvFrom_closed_blank (rest : Bytes) : argvFrom .closed (32 :: rest) = argv rest := by
  rw [argvFrom_cons (show Scan.closed.next 32 = some (.gap, []) by decide)]
  simp [argv]

theorem argvFrom_word_blank (arg rest : Bytes) :
    argvFrom (.word arg) (32 :: rest) = (argv rest).map (arg :: ·) := by
  have hnext : (Scan.word arg).next 32 = some (.gap, [arg]) := by
    simp only [Scan.next, show isSpace 32 = true by decide, if_true]
  rw [argvFrom_cons hnext]
  rfl

def quotes (text : Bytes) : Bytes := quote :: (text ++ [quote])

theorem argv_quotes_append (h : Unescaped text) (rest : Bytes) :
    argv (quotes text ++ rest) = (argvFrom .closed rest).map (text :: ·) := by
  have hnext : Scan.gap.next quote = some (.quoted [], []) := by decide
  rw [argv, quotes, cons_append, append_assoc, argvFrom_cons hnext,
    singleton_append, argvFrom_quoted h]
  simp [Function.comp_def]

theorem argv_word_append (h : Word text) (rest : Bytes) :
    argv (text ++ rest) = argvFrom (.word text) rest := by
  obtain ⟨c, cs, rfl⟩ := exists_cons_of_ne_nil h.nonempty
  have hquote : c ≠ quote := fun hc => h.plain (by simp [hc])
  have hnext : Scan.gap.next c = some (.word [c], []) := by
    simp [Scan.next, h.unspaced c mem_cons_self, hquote]
  rw [argv, cons_append, argvFrom_cons hnext,
    argvFrom_word fun d hd => h.unspaced d (mem_cons_of_mem _ hd)]
  simp

theorem argv_word (h : Word text) : argv text = some [text] := by
  have hread := argv_word_append h []
  rw [append_nil] at hread
  exact hread

theorem argv_word_blank (h : Word text) (rest : Bytes) :
    argv (text ++ 32 :: rest) = (argv rest).map (text :: ·) := by
  rw [argv_word_append h, argvFrom_word_blank]

theorem argv_dropWhile (args : Bytes) : argv (args.dropWhile isSpace) = argv args := by
  induction args with
  | nil => rfl
  | cons c cs ih =>
    by_cases hc : isSpace c = true
    · have hnext : Scan.gap.next c = some (.gap, []) := by simp only [Scan.next, hc, if_true]
      rw [dropWhile_cons_of_pos hc, ih, argv, argv, argvFrom_cons_nil hnext]
    · rw [dropWhile_cons_of_neg hc]

theorem parse_command {token name args : Bytes} (htoken : ∀ c ∈ token, isDigit c)
    (hname : ∀ c ∈ name, isSpace c = false) :
    parse (token ++ dash :: (name ++ 32 :: args)) =
      some ⟨token, name, args.dropWhile isSpace⟩ := by
  have hunspaced : ∀ c ∈ name, (!isSpace c) := fun c hc => by rw [hname c hc]; rfl
  have htail : (token ++ dash :: (name ++ 32 :: args)).dropWhile isDigit =
      dash :: (name ++ 32 :: args) := by
    rw [dropWhile_append_of_pos htoken]
    rfl
  have hhead : (token ++ dash :: (name ++ 32 :: args)).takeWhile isDigit = token := by
    rw [takeWhile_append_of_pos htoken]
    simp [show isDigit dash = false by decide]
  have htaken : (name ++ 32 :: args).takeWhile (!isSpace ·) = name := by
    rw [takeWhile_append_of_pos hunspaced]
    simp [show isSpace 32 = true by decide]
  have hdropped : (name ++ 32 :: args).dropWhile (!isSpace ·) = 32 :: args := by
    rw [dropWhile_append_of_pos hunspaced]
    simp [show isSpace 32 = true by decide]
  simp only [parse, htail, hhead, htaken, hdropped, if_true]
  rw [dropWhile_cons_of_pos (by decide)]

/-- What the arguments take of the line, each with one byte that ends it. -/
def width (outs : List Bytes) : Nat := (outs.map fun out => out.length + 1).sum

@[simp] theorem width_nil : width [] = 0 := rfl

@[simp] theorem width_cons (out : Bytes) (outs : List Bytes) :
    width (out :: outs) = out.length + 1 + width outs := rfl

def Scan.weight : Scan → Nat
  | .gap => 1
  | .word arg => arg.length + 1
  | .quoted arg | .escape arg => arg.length
  | .octal arg _ _ => arg.length + 1
  | .closed => 0

theorem inQuotes_weight (arg : Bytes) (c : UInt8) :
    (inQuotes arg c).1.weight + width (inQuotes arg c).2 ≤ arg.length + 1 := by
  unfold inQuotes
  split_ifs <;> simp [Scan.weight]

theorem Scan.next_weight {s s' : Scan} {c : UInt8} {outs : List Bytes}
    (h : s.next c = some (s', outs)) : s'.weight + width outs ≤ s.weight + 1 := by
  have hquotes (arg : Bytes) (hin : inQuotes arg c = (s', outs)) :
      s'.weight + width outs ≤ arg.length + 1 := by
    have := inQuotes_weight arg c
    rwa [hin] at this
  cases s with
  | gap | word arg | escape arg | closed =>
    simp only [Scan.next] at h
    split_ifs at h <;> cases h <;> simp [Scan.weight, Nat.add_comm]
  | quoted arg => exact hquotes arg (Option.some.inj h)
  | octal arg value digits =>
    simp only [Scan.next] at h
    split_ifs at h
    · cases h
      simp [Scan.weight]
    · have := hquotes _ (Option.some.inj h)
      simp only [length_append, length_singleton] at this
      exact this

/-- Escapes and quotes make arguments shorter than their text, and nothing makes one longer. -/
theorem argvFrom_width {s : Scan} {body : Bytes} {outs : List Bytes}
    (h : argvFrom s body = some outs) : width outs ≤ s.weight + body.length := by
  induction body generalizing s outs with
  | nil => cases s <;> cases h <;> simp [Scan.weight]
  | cons c cs ih =>
    cases hnext : s.next c with
    | none => simp [argvFrom, hnext] at h
    | some r =>
      obtain ⟨s', out⟩ := r
      rw [argvFrom_cons hnext, Option.map_eq_some_iff] at h
      obtain ⟨rest, hrest, rfl⟩ := h
      have hstep := Scan.next_weight hnext
      have hsum : width (out ++ rest) = width out + width rest := by simp [width]
      have := ih hrest
      rw [hsum, length_cons]
      omega

theorem unescaped_of_argvFrom {arg rest : Bytes} {outs : List Bytes}
    (h : argvFrom (.quoted arg) (text ++ quote :: rest) = some ((arg ++ text) :: outs))
    (hrest : rest.length ≤ width outs) : Unescaped text := by
  induction text generalizing arg with
  | nil => exact nofun
  | cons c cs ih =>
    by_cases hquote : c = quote
    · -- the argument ends before the text does
      have hnext : (Scan.quoted arg).next c = some (.closed, [arg]) := by
        simp [Scan.next, inQuotes, hquote]
      rw [cons_append, argvFrom_cons hnext, Option.map_eq_some_iff] at h
      obtain ⟨more, -, hout⟩ := h
      simpa using (cons.inj hout).1
    · by_cases hback : c = backslash
      · have hnext : (Scan.quoted arg).next c = some (.escape arg, []) := by
          simp [Scan.next, inQuotes, hback, show backslash ≠ quote by decide]
        rw [cons_append, argvFrom_cons_nil hnext] at h
        have hwidth := argvFrom_width h
        simp only [width_cons, length_append, length_cons, Scan.weight] at hwidth
        omega
      · have hnext : (Scan.quoted arg).next c = some (.quoted (arg ++ [c]), []) := by
          simp [Scan.next, inQuotes, hquote, hback]
        rw [cons_append, argvFrom_cons_nil hnext, append_cons arg c cs] at h
        have htail := ih h
        intro d hd
        rcases mem_cons.mp hd with rfl | hd
        · exact ⟨hquote, hback⟩
        · exact htail d hd

theorem argv_quotes_iff {rest : Bytes} {outs : List Bytes} (hrest : rest.length ≤ width outs) :
    argv (quotes text ++ rest) = some (text :: outs) ↔
      Unescaped text ∧ argvFrom .closed rest = some outs := by
  constructor
  · intro h
    have hscan : argvFrom (.quoted []) (text ++ quote :: rest) = some (text :: outs) := by
      have hnext : Scan.gap.next quote = some (.quoted [], []) := by decide
      rwa [argv, quotes, cons_append, append_assoc, argvFrom_cons_nil hnext] at h
    have htext : Unescaped text := unescaped_of_argvFrom hscan hrest
    refine ⟨htext, ?_⟩
    rw [argv_quotes_append htext, Option.map_eq_some_iff] at h
    obtain ⟨more, hmore, heq⟩ := h
    rw [hmore, (cons.inj heq).2]
  · rintro ⟨htext, hmore⟩
    rw [argv_quotes_append htext, hmore]
    rfl

theorem unspaced_of_argvFrom {arg rest : Bytes} {outs : List Bytes}
    (h : argvFrom (.word arg) (text ++ rest) = some ((arg ++ text) :: outs)) :
    ∀ c ∈ text, isSpace c = false := by
  induction text generalizing arg with
  | nil => exact nofun
  | cons c cs ih =>
    by_cases hc : isSpace c = true
    · have hnext : (Scan.word arg).next c = some (.gap, [arg]) := by
        simp only [Scan.next, hc, if_true]
      rw [cons_append, argvFrom_cons hnext, Option.map_eq_some_iff] at h
      obtain ⟨more, -, hout⟩ := h
      simpa using (cons.inj hout).1
    · have hnext : (Scan.word arg).next c = some (.word (arg ++ [c]), []) := by
        simp [Scan.next, hc]
      rw [cons_append, argvFrom_cons_nil hnext, append_cons arg c cs] at h
      have htail := ih h
      intro d hd
      rcases mem_cons.mp hd with rfl | hd
      · simpa using hc
      · exact htail d hd

theorem word_of_argv {rest : Bytes} {outs : List Bytes}
    (h : argv (text ++ rest) = some (text :: outs)) (hrest : rest.length ≤ width outs)
    (hspace : ∀ c ∈ rest.head?, isSpace c = true) : Word text := by
  have hfirst : ∀ c cs, text ++ rest = c :: cs → isSpace c = false ∧ c ≠ quote := by
    intro c cs hline
    have hlength := congrArg length hline
    rw [length_append, length_cons] at hlength
    refine ⟨?_, ?_⟩
    · rw [Bool.eq_false_iff]
      intro hc
      have hnext : Scan.gap.next c = some (.gap, []) := by simp only [Scan.next, hc, if_true]
      rw [argv, hline, argvFrom_cons_nil hnext] at h
      have hwidth := argvFrom_width h
      simp only [width_cons, Scan.weight] at hwidth
      omega
    · rintro rfl
      have hnext : Scan.gap.next quote = some (.quoted [], []) := by decide
      rw [argv, hline, argvFrom_cons_nil hnext] at h
      have hwidth := argvFrom_width h
      simp only [width_cons, Scan.weight, length_nil] at hwidth
      omega
  cases text with
  | nil =>
    cases rest with
    | nil => cases h
    | cons c cs => simp [(hfirst c cs rfl).1] at hspace
  | cons c cs =>
    obtain ⟨hc, hquote⟩ := hfirst c (cs ++ rest) rfl
    have hnext : Scan.gap.next c = some (.word [c], []) := by simp [Scan.next, hc, hquote]
    rw [argv, cons_append, argvFrom_cons_nil hnext] at h
    have htail : ∀ d ∈ cs, isSpace d = false := unspaced_of_argvFrom h
    refine ⟨cons_ne_nil _ _, fun d hd => ?_, fun hq => hquote (Option.some.inj hq)⟩
    rcases mem_cons.mp hd with rfl | hd
    · exact hc
    · exact htail d hd

end Smolmux.Mi
