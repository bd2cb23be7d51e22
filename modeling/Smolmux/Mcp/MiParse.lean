import Smolmux.Protocol

/-! Strings of gdb's records (`parse_cstring` in `util/mi_parse.c`): what gdb prints, and what the
parser makes of it. -/

namespace Smolmux.MiParse
open List

def quote : UInt8 := 34
def backslash : UInt8 := 92

def unescape (n : UInt8) : UInt8 :=
  if n = 110 then 10 else if n = 116 then 9 else if n = 114 then 13 else n

def parseCstring : Bytes → Bytes × Bytes
  | [] => ([], [])
  | [ch] => if ch = quote then ([], []) else ([ch], [])
  | ch :: n :: rest =>
    if ch = backslash then (unescape n :: (parseCstring rest).1, (parseCstring rest).2)
    else if ch = quote then ([], n :: rest)
    else (ch :: (parseCstring (n :: rest)).1, (parseCstring (n :: rest)).2)

def escape (c : UInt8) : Bytes :=
  if c = 10 then [backslash, 110] else if c = 9 then [backslash, 116]
  else if c = 13 then [backslash, 114]
  else if c = quote ∨ c = backslash then [backslash, c] else [c]

theorem parseCstring_plain {c : UInt8} (hquote : c ≠ quote) (hback : c ≠ backslash) (rest : Bytes) :
    parseCstring (c :: rest) = (c :: (parseCstring rest).1, (parseCstring rest).2) := by
  cases rest with
  | nil => simp [parseCstring, hquote]
  | cons n rest => simp [parseCstring, hquote, hback]

theorem parseCstring_escape (c : UInt8) (rest : Bytes) :
    parseCstring (escape c ++ rest) = (c :: (parseCstring rest).1, (parseCstring rest).2) := by
  unfold escape
  split_ifs with hnewline htab hreturn hsimple
  · subst hnewline; simp [parseCstring, unescape]
  · subst htab; simp [parseCstring, unescape]
  · subst hreturn; simp [parseCstring, unescape]
  · rcases hsimple with rfl | rfl <;> simp [parseCstring, unescape, quote, backslash]
  · exact parseCstring_plain (fun h => hsimple (.inl h)) (fun h => hsimple (.inr h)) rest

theorem parseCstring_print (text rest : Bytes) :
    parseCstring (text.flatMap escape ++ quote :: rest) = (text, rest) := by
  induction text with
  | nil => cases rest <;> simp [parseCstring, quote, backslash]
  | cons c text ih => rw [flatMap_cons, append_assoc, parseCstring_escape, ih]

def isPlain (c : UInt8) : Bool := (32 ≤ c && c ≤ 126) || c == 10 || c == 9 || c == 13

def octal (c : UInt8) : Bytes := [c / 64 + 48, c / 8 % 8 + 48, c % 8 + 48]

def gdbEscape (c : UInt8) : Bytes := if isPlain c then escape c else backslash :: octal c

def seen (c : UInt8) : Bytes := if isPlain c then [c] else octal c

theorem octal_digit {c d : UInt8} (h : d ∈ octal c) : 48 ≤ d ∧ d ≤ 55 := by
  have hc := c.toNat_lt
  simp only [octal, mem_cons, not_mem_nil, or_false] at h
  rw [UInt8.le_iff_toNat_le, UInt8.le_iff_toNat_le]
  rcases h with rfl | rfl | rfl <;> simp <;> omega

/-- Behind a backslash a digit is kept, and elsewhere it is no mark. -/
theorem digit_kept {d : UInt8} (h : 48 ≤ d ∧ d ≤ 55) :
    unescape d = d ∧ d ≠ quote ∧ d ≠ backslash := by
  have hout : ∀ {x : UInt8}, ¬(48 ≤ x ∧ x ≤ 55) → d ≠ x := by
    rintro x hx rfl
    exact hx h
  refine ⟨?_, hout (by decide), hout (by decide)⟩
  rw [unescape, if_neg (hout (by decide)), if_neg (hout (by decide)), if_neg (hout (by decide))]

theorem parseCstring_gdbEscape (c : UInt8) (rest : Bytes) :
    parseCstring (gdbEscape c ++ rest) =
      (seen c ++ (parseCstring rest).1, (parseCstring rest).2) := by
  unfold gdbEscape seen
  split_ifs with hplain
  · exact parseCstring_escape c rest
  · have hc : ∀ d ∈ octal c, unescape d = d ∧ d ≠ quote ∧ d ≠ backslash :=
      fun d hd => digit_kept (octal_digit hd)
    simp only [octal, forall_mem_cons] at hc
    obtain ⟨⟨hfirst, -⟩, ⟨-, hsecond⟩, ⟨-, hthird⟩, -⟩ := hc
    change parseCstring (backslash :: _ :: _ :: _ :: rest) = _
    rw [parseCstring, if_pos rfl, hfirst, parseCstring_plain hsecond.1 hsecond.2,
      parseCstring_plain hthird.1 hthird.2]
    rfl

theorem parseCstring_gdb (text rest : Bytes) :
    parseCstring (text.flatMap gdbEscape ++ quote :: rest) = (text.flatMap seen, rest) := by
  induction text with
  | nil => exact parseCstring_print [] rest
  | cons c text ih =>
    rw [flatMap_cons, append_assoc, parseCstring_gdbEscape, ih, flatMap_cons]

theorem length_le_seen (text : Bytes) : text.length ≤ (text.flatMap seen).length := by
  induction text with
  | nil => simp
  | cons c text ih =>
    have hc : 1 ≤ (seen c).length := by
      unfold seen
      split_ifs <;> simp [octal]
    simp only [flatMap_cons, length_append, length_cons]
    omega

/-- A string comes back from what gdb prints just when no byte of it is printed in digits: the
digits are taken for characters. -/
theorem gdb_strings_come_back (text rest : Bytes) :
    parseCstring (text.flatMap gdbEscape ++ quote :: rest) = (text, rest) ↔
      ∀ c ∈ text, isPlain c = true := by
  rw [parseCstring_gdb, Prod.mk.injEq, and_iff_left rfl]
  constructor
  · intro h c hc
    by_contra hplain
    have hdigits : (seen c).length = 3 := by simp [seen, hplain, octal]
    obtain ⟨front, back, rfl⟩ := append_of_mem hc
    have hsum := congrArg List.length h
    have hfront := length_le_seen front
    have hback := length_le_seen back
    simp only [flatMap_append, flatMap_cons, length_append, hdigits,
      length_cons] at hsum
    omega
  · intro h
    have hsame : ∀ c ∈ text, seen c = [c] := fun c hc => if_pos (h c hc)
    rw [flatMap_congr hsame, flatMap_singleton']

theorem accented_byte_becomes_digits :
    parseCstring (([0xC3] : Bytes).flatMap gdbEscape ++ [quote]) = (ascii "303", []) := by
  decide +kernel

end Smolmux.MiParse
