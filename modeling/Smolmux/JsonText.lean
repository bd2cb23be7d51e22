import Mathlib.Data.Nat.Digits.Defs
import Mathlib.Tactic.IntervalCases
import Mathlib.Tactic.Linarith
import Smolmux.Protocol

/-! A printer and a parser of JSON text that undo each other, in the form the
library writes without formatting. Integers are written as the library writes
them; another number is written as a fraction and a character outside ASCII in a
key by its code, where the library prints digits and UTF-8. -/

namespace Smolmux.JsonText
open Protocol List

def hexDigit (n : Nat) : UInt8 := UInt8.ofNat (if n < 10 then 48 + n else 87 + n)

def hexValue (c : UInt8) : Nat := if c.toNat < 58 then c.toNat - 48 else c.toNat - 87

def shortEscape (n : Nat) : Option UInt8 :=
  if n = 34 then some 34 else if n = 92 then some 92 else if n = 8 then some 98
  else if n = 12 then some 102 else if n = 10 then some 110 else if n = 13 then some 114
  else if n = 9 then some 116 else none

def shortValue (c : UInt8) : Nat :=
  if c = 98 then 8 else if c = 102 then 12 else if c = 110 then 10 else if c = 114 then 13
  else if c = 116 then 9 else c.toNat

/-- The text of one code: a short escape, four hex digits, the byte itself, or
six hex digits behind a capital U for a code outside ASCII. -/
def escapeCode (n : Nat) : Bytes :=
  match shortEscape n with
  | some c => [92, c]
  | none =>
    if n < 32 then [92, 117, 48, 48, hexDigit (n / 16), hexDigit (n % 16)]
    else if n < 256 then [UInt8.ofNat n]
    else [92, 85, hexDigit (n / 16 ^ 5 % 16), hexDigit (n / 16 ^ 4 % 16),
      hexDigit (n / 16 ^ 3 % 16), hexDigit (n / 16 ^ 2 % 16), hexDigit (n / 16 % 16),
      hexDigit (n % 16)]

def readCodes : Bytes → Option (List Nat × Bytes)
  | [] => none
  | c :: rest =>
    if c = 34 then some ([], rest)
    else if c = 92 then
      match rest with
      | 117 :: _ :: _ :: h :: l :: rest =>
        (readCodes rest).map fun r => ((hexValue h * 16 + hexValue l) :: r.1, r.2)
      | 85 :: a :: b :: c :: d :: e :: f :: rest =>
        (readCodes rest).map fun r =>
          ((((((hexValue a * 16 + hexValue b) * 16 + hexValue c) * 16 + hexValue d) * 16 +
            hexValue e) * 16 + hexValue f) :: r.1, r.2)
      | e :: rest => (readCodes rest).map fun r => (shortValue e :: r.1, r.2)
      | [] => none
    else (readCodes rest).map fun r => (c.toNat :: r.1, r.2)

def printCodes (codes : List Nat) : Bytes := 34 :: codes.flatMap escapeCode ++ [34]

theorem hexValue_hexDigit {n : Nat} (h : n < 16) : hexValue (hexDigit n) = n := by
  interval_cases n <;> rfl

theorem readCodes_plain {c : UInt8} (hq : c ≠ 34) (hb : c ≠ 92) (rest : Bytes) :
    readCodes (c :: rest) = (readCodes rest).map fun r => (c.toNat :: r.1, r.2) := by
  rw [readCodes.eq_def]
  simp only [hq, hb, if_false]

theorem readCodes_escape {n : Nat} (h : n < 16 ^ 6) (rest : Bytes) :
    readCodes (escapeCode n ++ rest) = (readCodes rest).map fun r => (n :: r.1, r.2) := by
  unfold escapeCode
  by_cases hshort : n = 34 ∨ n = 92 ∨ n = 8 ∨ n = 12 ∨ n = 10 ∨ n = 13 ∨ n = 9
  · rcases hshort with rfl | rfl | rfl | rfl | rfl | rfl | rfl <;> rfl
  · simp only [not_or] at hshort
    obtain ⟨h1, h2, h3, h4, h5, h6, h7⟩ := hshort
    simp only [shortEscape, h1, h2, h3, h4, h5, h6, h7, if_false]
    split_ifs with hlow hbyte
    · have hd := hexValue_hexDigit (n := n / 16) (by omega)
      have hm := hexValue_hexDigit (n := n % 16) (by omega)
      have hjoin : n / 16 * 16 + n % 16 = n := by omega
      simp [readCodes, hd, hm, hjoin]
    · have hn : (UInt8.ofNat n).toNat = n := by
        rw [UInt8.toNat_ofNat', Nat.mod_eq_of_lt (by omega)]
      have hne : ∀ k < 256, n ≠ k → UInt8.ofNat n ≠ UInt8.ofNat k := by
        intro k hk hnk heq
        have := congrArg UInt8.toNat heq
        rw [hn, UInt8.toNat_ofNat', Nat.mod_eq_of_lt (by omega)] at this
        exact hnk this
      rw [singleton_append, readCodes_plain (hne 34 (by decide) h1)
        (hne 92 (by decide) h2), hn]
    · have hx := fun k => hexValue_hexDigit (n := n / 16 ^ k % 16) (by omega)
      have hm := hexValue_hexDigit (n := n % 16) (by omega)
      have hd := hexValue_hexDigit (n := n / 16 % 16) (by omega)
      have hjoin : ((((n / 16 ^ 5 % 16 * 16 + n / 16 ^ 4 % 16) * 16 + n / 16 ^ 3 % 16) * 16 +
          n / 16 ^ 2 % 16) * 16 + n / 16 % 16) * 16 + n % 16 = n := by omega
      simp only [cons_append, nil_append, readCodes, hx, hd, hm, hjoin]
      rfl

theorem readCodes_print {codes : List Nat} (h : ∀ n ∈ codes, n < 16 ^ 6) (rest : Bytes) :
    readCodes (codes.flatMap escapeCode ++ 34 :: rest) = some (codes, rest) := by
  induction codes with
  | nil =>
    rw [flatMap_nil, nil_append, readCodes.eq_def]
    rfl
  | cons n codes ih =>
    rw [flatMap_cons, append_assoc, readCodes_escape (h n (mem_cons_self ..)),
      ih fun k hk => h k (mem_cons_of_mem _ hk)]
    rfl

def isDigit (c : UInt8) : Bool := 48 ≤ c.toNat && c.toNat ≤ 57

def printNat (n : Nat) : Bytes :=
  (if n = 0 then [0] else (Nat.digits 10 n).reverse).map fun d => UInt8.ofNat (48 + d)

def readNat (s : Bytes) : Nat × Bytes :=
  (Nat.ofDigits 10 ((s.takeWhile isDigit).map fun c => c.toNat - 48).reverse,
    s.dropWhile isDigit)

def NoDigit (s : Bytes) : Prop := ∀ c rest, s = c :: rest → isDigit c = false

theorem printNat_digits (n : Nat) : ∀ c ∈ printNat n, isDigit c := by
  intro c hc
  obtain ⟨d, hd, rfl⟩ := mem_map.mp hc
  have hlt : d < 10 := by
    split_ifs at hd
    · rw [mem_singleton.mp hd]
      decide
    · exact Nat.digits_lt_base (by decide) (mem_reverse.mp hd)
  interval_cases d <;> rfl

theorem readNat_printNat (n : Nat) {rest : Bytes} (h : NoDigit rest) :
    readNat (printNat n ++ rest) = (n, rest) := by
  have hall := printNat_digits n
  have hstop : rest.takeWhile isDigit = [] ∧ rest.dropWhile isDigit = rest := by
    cases rest with
    | nil => exact ⟨rfl, rfl⟩
    | cons c rest => simp [h c rest rfl]
  rw [readNat, takeWhile_append_of_pos hall, dropWhile_append_of_pos hall, hstop.1,
    hstop.2, append_nil]
  congr 1
  have hvalue : ∀ d < 10, (UInt8.ofNat (48 + d)).toNat - 48 = d := by decide
  unfold printNat
  rw [map_map]
  split_ifs with hzero
  · simp [hzero]
  · have hmap : (Nat.digits 10 n).reverse.map
        ((fun c : UInt8 => c.toNat - 48) ∘ fun d => UInt8.ofNat (48 + d)) =
        (Nat.digits 10 n).reverse := by
      refine (map_congr_left fun d hd => ?_).trans (map_id _)
      exact hvalue d (Nat.digits_lt_base (by decide) (mem_reverse.mp hd))
    rw [hmap, reverse_reverse, Nat.ofDigits_digits]

def printNumber (q : Rat) : Bytes :=
  (if q.num < 0 then [45] else []) ++ printNat q.num.natAbs ++
    if q.den = 1 then [] else 47 :: printNat q.den

def readNumber (s : Bytes) : Option (Json × Bytes) :=
  let (negative, s) := if s.head? = some 45 then (true, s.tail) else (false, s)
  let (n, s) := readNat s
  let num : Int := if negative then -n else n
  match s with
  | 47 :: rest =>
    let (d, rest) := readNat rest
    some (.num (mkRat num d), rest)
  | s => some (.num (mkRat num 1), s)

def keyCodes (key : String) : List Nat := key.toList.map Char.toNat

def textCodes (text : Bytes) : List Nat := text.map UInt8.toNat

mutual

def printValue : Json → Bytes
  | .null => [110, 117, 108, 108]
  | .bool true => [116, 114, 117, 101]
  | .bool false => [102, 97, 108, 115, 101]
  | .num q => printNumber q
  | .str text => printCodes (textCodes text)
  | .arr [] => [91, 93]
  | .arr (x :: xs) => 91 :: printValue x ++ printItems xs
  | .obj [] => [123, 125]
  | .obj ((k, v) :: fs) => 123 :: printCodes (keyCodes k) ++ 58 :: printValue v ++ printFields fs

def printItems : List Json → Bytes
  | [] => [93]
  | x :: xs => 44 :: printValue x ++ printItems xs

def printFields : List (String × Json) → Bytes
  | [] => [125]
  | (k, v) :: fs => 44 :: printCodes (keyCodes k) ++ 58 :: printValue v ++ printFields fs

end

def readField (value : Bytes → Option (Json × Bytes)) (s : Bytes) :
    Option ((String × Json) × Bytes) := do
  match s with
  | 34 :: s =>
    let (codes, s) ← readCodes s
    match s with
    | 58 :: s =>
      let (v, s) ← value s
      return ((String.ofList (codes.map Char.ofNat), v), s)
    | _ => none
  | _ => none

mutual

def readValue : Nat → Bytes → Option (Json × Bytes)
  | 0, _ => none
  | _, [] => none
  | fuel + 1, c :: s =>
    if c = 110 then some (.null, s.drop 3)
    else if c = 116 then some (.bool true, s.drop 3)
    else if c = 102 then some (.bool false, s.drop 4)
    else if c = 34 then (readCodes s).map fun r => (.str (r.1.map UInt8.ofNat), r.2)
    else if c = 91 then
      if s.head? = some 93 then some (.arr [], s.tail)
      else (readValue fuel s).bind fun r =>
        (readItems fuel r.2).map fun rs => (.arr (r.1 :: rs.1), rs.2)
    else if c = 123 then
      if s.head? = some 125 then some (.obj [], s.tail)
      else (readField (readValue fuel) s).bind fun r =>
        (readFields fuel r.2).map fun rs => (.obj (r.1 :: rs.1), rs.2)
    else readNumber (c :: s)

def readItems : Nat → Bytes → Option (List Json × Bytes)
  | 0, _ => none
  | _, [] => none
  | fuel + 1, c :: s =>
    if c = 93 then some ([], s)
    else if c = 44 then (readValue fuel s).bind fun r =>
      (readItems fuel r.2).map fun rs => (r.1 :: rs.1, rs.2)
    else none

def readFields : Nat → Bytes → Option (List (String × Json) × Bytes)
  | 0, _ => none
  | _, [] => none
  | fuel + 1, c :: s =>
    if c = 125 then some ([], s)
    else if c = 44 then (readField (readValue fuel) s).bind fun r =>
      (readFields fuel r.2).map fun rs => (r.1 :: rs.1, rs.2)
    else none

end

def parseText (s : Bytes) : Option Json := (readValue (s.length + 1) s).map Prod.fst

def Ends (rest : Bytes) : Prop := NoDigit rest ∧ rest.head? ≠ some 47

theorem printNat_cons (n : Nat) : ∃ c s, printNat n = c :: s ∧ isDigit c := by
  have hne : printNat n ≠ [] := by
    unfold printNat
    split_ifs with h
    · simp
    · simpa [Nat.digits_eq_nil_iff_eq_zero] using h
  obtain ⟨c, s, hcs⟩ := exists_cons_of_ne_nil hne
  exact ⟨c, s, hcs, printNat_digits n c (by simp [hcs])⟩

theorem printNumber_cons (q : Rat) (rest : Bytes) :
    ∃ c s, printNumber q ++ rest = c :: s ∧ (c = 45 ∨ isDigit c) := by
  obtain ⟨c, s, hcs, hc⟩ := printNat_cons q.num.natAbs
  unfold printNumber
  split_ifs
  · exact ⟨45, _, rfl, .inl rfl⟩
  · exact ⟨45, _, rfl, .inl rfl⟩
  all_goals
    rw [hcs]
    exact ⟨c, _, rfl, .inr hc⟩

theorem noDigit_slash (s : Bytes) : NoDigit (47 :: s) := by
  rintro _ _ ⟨⟩
  rfl

theorem readNumber_printNumber (q : Rat) {rest : Bytes} (h : Ends rest) :
    readNumber (printNumber q ++ rest) = some (.num q, rest) := by
  obtain ⟨c, s, hcs, hc⟩ := printNat_cons q.num.natAbs
  have hminus : c ≠ 45 := by
    rintro rfl
    exact absurd hc (by decide)
  -- the sign is read back first
  have hsign : ∀ tail : Bytes, (if ((if q.num < 0 then [45] else []) ++ printNat q.num.natAbs ++
      tail).head? = some 45 then (true, ((if q.num < 0 then [45] else []) ++
        printNat q.num.natAbs ++ tail).tail) else (false, (if q.num < 0 then [45] else []) ++
        printNat q.num.natAbs ++ tail)) = (decide (q.num < 0), printNat q.num.natAbs ++ tail) := by
    intro tail
    by_cases hneg : q.num < 0
    · simp [hneg]
    · simp [hneg, hcs, hminus]
  have hnum : (if decide (q.num < 0) then -(q.num.natAbs : Int) else q.num.natAbs) = q.num := by
    by_cases hneg : q.num < 0 <;> simp only [hneg, decide_true, decide_false, if_true,
      Bool.false_eq_true, if_false] <;> omega
  unfold printNumber readNumber
  rw [append_assoc, hsign]
  by_cases hden : q.den = 1
  · simp only [hden, if_true, nil_append, readNat_printNat _ h.1, hnum]
    have hq : mkRat q.num 1 = q := by
      conv_rhs => rw [← Rat.mkRat_self q]
      rw [hden]
    rw [hq]
    cases rest with
    | nil => rfl
    | cons r rs =>
      have hr : r ≠ 47 := by simpa using h.2
      split
      · rename_i heq
        exact absurd (List.cons.inj heq).1 hr
      · rfl
  · simp only [hden, if_false, cons_append, readNat_printNat _ (noDigit_slash _),
      readNat_printNat _ h.1, hnum, Rat.mkRat_self]

theorem ends_cons {c : UInt8} (hd : isDigit c = false) (hs : c ≠ 47) (rest : Bytes) :
    Ends (c :: rest) := by
  refine ⟨?_, by simpa using hs⟩
  rintro _ _ ⟨⟩
  exact hd

theorem readCodes_text (text rest : Bytes) :
    readCodes ((textCodes text).flatMap escapeCode ++ 34 :: rest) =
      some (textCodes text, rest) := by
  apply readCodes_print
  intro n hn
  obtain ⟨c, -, rfl⟩ := mem_map.mp hn
  have := c.toNat_lt
  omega

theorem readField_print (value : Bytes → Option (Json × Bytes)) (k : String) (v : Json)
    (s rest : Bytes) (h : value s = some (v, rest)) :
    readField value (printCodes (keyCodes k) ++ 58 :: s) = some ((k, v), rest) := by
  have hcodes : readCodes ((keyCodes k).flatMap escapeCode ++ 34 :: 58 :: s) =
      some (keyCodes k, 58 :: s) := by
    apply readCodes_print
    intro n hn
    obtain ⟨c, -, rfl⟩ := mem_map.mp hn
    rcases c.valid with h | ⟨-, h⟩ <;> simp only [Char.toNat_val] at h <;> omega
  have hkey : String.ofList ((keyCodes k).map Char.ofNat) = k := by
    rw [keyCodes, map_map]
    have : Char.ofNat ∘ Char.toNat = id := funext fun c => Char.ofNat_toNat c
    rw [this, map_id, String.ofList_toList]
  simp [readField, printCodes, hcodes, h, hkey]

theorem ends_items (xs : List Json) (rest : Bytes) : Ends (printItems xs ++ rest) := by
  cases xs with
  | nil => exact ends_cons (by decide) (by decide) _
  | cons x xs => simpa [printItems] using ends_cons (c := 44) (by decide) (by decide) _

theorem ends_fields (fs : List (String × Json)) (rest : Bytes) : Ends (printFields fs ++ rest) := by
  cases fs with
  | nil => exact ends_cons (by decide) (by decide) _
  | cons f fs => simpa [printFields] using ends_cons (c := 44) (by decide) (by decide) _

theorem printValue_head (j : Json) (rest : Bytes) :
    (printValue j ++ rest).head? ≠ some 93 ∧ (printValue j ++ rest).head? ≠ some 125 := by
  match j with
  | .str _ => simp [printValue, printCodes]
  | .null | .bool true | .bool false | .arr [] | .arr (_ :: _) | .obj [] | .obj (_ :: _) =>
    simp [printValue]
  | .num q =>
    obtain ⟨c, s, heq, hc⟩ := printNumber_cons q rest
    rw [printValue, heq]
    constructor <;> rintro ⟨⟩ <;> exact absurd hc (by decide)

mutual

theorem readValue_print : ∀ (j : Json) (fuel : Nat) (rest : Bytes), (printValue j).length < fuel →
    Ends rest → readValue fuel (printValue j ++ rest) = some (j, rest)
  | .null, fuel + 1, rest, _, _ | .bool true, fuel + 1, rest, _, _
  | .bool false, fuel + 1, rest, _, _ | .arr [], fuel + 1, rest, _, _
  | .obj [], fuel + 1, rest, _, _ => by simp [printValue, readValue]
  | .str text, fuel + 1, rest, _, _ => by
    have hback : (textCodes text).map UInt8.ofNat = text := by
      rw [textCodes, map_map]
      exact (map_congr_left fun c _ => UInt8.ofNat_toNat).trans (map_id _)
    simp [printValue, printCodes, readValue, readCodes_text, hback]
  | .num q, fuel + 1, rest, _, hends => by
    obtain ⟨c, s, heq, hc⟩ := printNumber_cons q rest
    have hread := readNumber_printNumber q hends
    rw [printValue, heq] at *
    have hne : ∀ k : UInt8, k ≠ 45 → isDigit k = false → c ≠ k := by
      rintro k hk hkd rfl
      rcases hc with hc | hc
      · exact hk hc
      · simp [hkd] at hc
    simp only [readValue, hne 110 (by decide) rfl, hne 116 (by decide) rfl,
      hne 102 (by decide) rfl, hne 34 (by decide) rfl, hne 91 (by decide) rfl,
      hne 123 (by decide) rfl, if_false]
    exact hread
  | .arr (x :: xs), fuel + 1, rest, hfuel, _ => by
    simp only [printValue, cons_append, length_cons, length_append] at hfuel
    have hx := readValue_print x fuel (printItems xs ++ rest) (by omega) (ends_items xs rest)
    have hxs := readItems_print xs fuel rest (by omega)
    have hhead := (printValue_head x (printItems xs ++ rest)).1
    simp [printValue, readValue, hx, hxs]
    simpa using hhead
  | .obj ((k, v) :: fs), fuel + 1, rest, hfuel, _ => by
    simp only [printValue, cons_append, length_cons, length_append] at hfuel
    have hv := readValue_print v fuel (printFields fs ++ rest) (by omega) (ends_fields fs rest)
    have hfs := readFields_print fs fuel rest (by omega)
    have hfield := readField_print (readValue fuel) k v _ _ hv
    simp only [printValue, readValue, cons_append, append_assoc] at hfield ⊢
    simp [printCodes] at hfield ⊢
    simp [hfield, hfs]

theorem readItems_print : ∀ (xs : List Json) (fuel : Nat) (rest : Bytes),
    (printItems xs).length < fuel → readItems fuel (printItems xs ++ rest) = some (xs, rest)
  | [], fuel + 1, rest, _ => by simp [printItems, readItems]
  | x :: xs, fuel + 1, rest, hfuel => by
    simp only [printItems, cons_append, length_cons, length_append] at hfuel
    have hx := readValue_print x fuel (printItems xs ++ rest) (by omega) (ends_items xs rest)
    have hxs := readItems_print xs fuel rest (by omega)
    simp [printItems, readItems, hx, hxs]

theorem readFields_print : ∀ (fs : List (String × Json)) (fuel : Nat) (rest : Bytes),
    (printFields fs).length < fuel → readFields fuel (printFields fs ++ rest) = some (fs, rest)
  | [], fuel + 1, rest, _ => by simp [printFields, readFields]
  | (k, v) :: fs, fuel + 1, rest, hfuel => by
    simp only [printFields, cons_append, length_cons, length_append] at hfuel
    have hv := readValue_print v fuel (printFields fs ++ rest) (by omega) (ends_fields fs rest)
    have hfs := readFields_print fs fuel rest (by omega)
    have hfield := readField_print (readValue fuel) k v _ _ hv
    simp only [printFields, readFields, cons_append, append_assoc] at hfield ⊢
    simp [printCodes] at hfield ⊢
    simp [hfield, hfs]

end

theorem parseText_print (j : Json) : parseText (printValue j) = some j := by
  have hends : Ends [] := ⟨fun _ _ h => by simp at h, by simp⟩
  have h := readValue_print j ((printValue j).length + 1) [] (Nat.lt_succ_self _) hends
  rw [append_nil] at h
  rw [parseText, h]
  rfl

def Visible (s : Bytes) : Prop := ∀ c ∈ s, 32 ≤ c

@[simp] theorem visible_nil : Visible [] := nofun

@[simp] theorem visible_cons {c : UInt8} {s : Bytes} : Visible (c :: s) ↔ 32 ≤ c ∧ Visible s :=
  forall_mem_cons

@[simp] theorem visible_append {s t : Bytes} : Visible (s ++ t) ↔ Visible s ∧ Visible t :=
  forall_mem_append

theorem hexDigit_visible {n : Nat} (h : n < 16) : 32 ≤ hexDigit n := by
  interval_cases n <;> decide

theorem escapeCode_visible (n : Nat) : Visible (escapeCode n) := by
  have hx := fun k => hexDigit_visible (n := k % 16) (by omega)
  unfold escapeCode
  split
  · rename_i c hc
    unfold shortEscape at hc
    split_ifs at hc <;> cases hc <;> simp
  · split_ifs with h1 h2
    · simp [hexDigit_visible (n := n / 16) (by omega), hx n]
    · simp only [visible_cons, visible_nil, and_true, UInt8.le_iff_toNat_le, UInt8.toNat_ofNat']
      rw [Nat.mod_eq_of_lt (by omega)]
      exact Nat.not_lt.mp h1
    · simp [hx]

theorem printCodes_visible (codes : List Nat) : Visible (printCodes codes) := by
  have hcodes : Visible (codes.flatMap escapeCode) := fun c hc => by
    obtain ⟨n, -, hn⟩ := mem_flatMap.mp hc
    exact escapeCode_visible n c hn
  simp [printCodes, hcodes]

theorem printNat_visible (n : Nat) : Visible (printNat n) := by
  intro c hc
  have hdigit := printNat_digits n c hc
  simp only [isDigit, Bool.and_eq_true, decide_eq_true_eq] at hdigit
  exact UInt8.le_iff_toNat_le.mpr (by simp; omega)

mutual

theorem printValue_visible : ∀ j : Json, Visible (printValue j)
  | .null | .bool true | .bool false | .arr [] | .obj [] => by simp [printValue]
  | .str text => by simpa [printValue] using printCodes_visible _
  | .num q => by
    simp only [printValue, printNumber]
    split_ifs <;> simp [printNat_visible]
  | .arr (x :: xs) => by simp [printValue, printValue_visible x, printItems_visible xs]
  | .obj ((k, v) :: fs) => by
    simp [printValue, printCodes_visible, printValue_visible v, printFields_visible fs]

theorem printItems_visible : ∀ xs : List Json, Visible (printItems xs)
  | [] => by simp [printItems]
  | x :: xs => by simp [printItems, printValue_visible x, printItems_visible xs]

theorem printFields_visible : ∀ fs : List (String × Json), Visible (printFields fs)
  | [] => by simp [printFields]
  | (k, v) :: fs => by
    simp [printFields, printCodes_visible, printValue_visible v, printFields_visible fs]

end

theorem printValue_noNul (j : Json) : 0 ∉ printValue j :=
  fun h => absurd (printValue_visible j 0 h) (by decide)

/-- The library as far as the broker relies on it. -/
def textCodec : Codec := ⟨printValue, parseText, parseText_print, printValue_noNul⟩

example : msgEncode textCodec (makeMsg "status") = ascii "\x7b\"type\":\"status\"\x7d\n" := by
  decide +kernel

end Smolmux.JsonText
