import Smolmux.Bytes
import Mathlib.Data.List.GetD
import Mathlib.Data.List.TakeWhile
import Mathlib.Tactic.Common

/-! Base64 as `util/base64.c` writes and reads it. A group of three bytes is one
24-bit number; the shifts and masks of the source are divisions and remainders
by powers of two. Decoding checks the length, the alphabet and that padding
stands only in the last two places, and then drops the padded bytes. -/

namespace Smolmux.Base64
open List

def table : Bytes :=
  ascii "ABCDEFGHIJKLMNOPQRSTUVWXYZabcdefghijklmnopqrstuvwxyz0123456789+/"

def padChar : UInt8 := 61

def sextetChar (n : Nat) : UInt8 := table.getD (n % 64) 0

def encodeGroup (v : Nat) : Bytes :=
  [sextetChar (v / 2 ^ 18), sextetChar (v / 2 ^ 12), sextetChar (v / 2 ^ 6), sextetChar v]

def base64Encode : Bytes → Bytes
  | a :: b :: c :: rest =>
    encodeGroup (a.toNat * 2 ^ 16 + b.toNat * 2 ^ 8 + c.toNat) ++ base64Encode rest
  | [a, b] => (encodeGroup (a.toNat * 2 ^ 16 + b.toNat * 2 ^ 8)).take 3 ++ [padChar]
  | [a] => (encodeGroup (a.toNat * 2 ^ 16)).take 2 ++ [padChar, padChar]
  | [] => []

/-- `b64_decode_table`; every byte outside the alphabet, padding included, is 0. -/
def decodeTable (c : UInt8) : Nat :=
  let n := c.toNat
  if 65 ≤ n ∧ n ≤ 90 then n - 65
  else if 97 ≤ n ∧ n ≤ 122 then n - 97 + 26
  else if 48 ≤ n ∧ n ≤ 57 then n - 48 + 52
  else if n = 43 then 62
  else if n = 47 then 63
  else 0

def isB64Char (c : UInt8) : Bool :=
  let n := c.toNat
  (65 ≤ n && n ≤ 90) || (97 ≤ n && n ≤ 122) || (48 ≤ n && n ≤ 57) ||
    n == 43 || n == 47 || c == padChar

def decodeGroup (a b c d : UInt8) : Bytes :=
  let v := decodeTable a * 2 ^ 18 + decodeTable b * 2 ^ 12 + decodeTable c * 2 ^ 6 + decodeTable d
  [UInt8.ofNat (v / 2 ^ 16), UInt8.ofNat (v / 2 ^ 8), UInt8.ofNat v]

def decodeGroups : Bytes → Bytes
  | a :: b :: c :: d :: rest => decodeGroup a b c d ++ decodeGroups rest
  | _ => []

def base64Decode (s : Bytes) : Option Bytes :=
  let charOk i := isB64Char (s.getD i 0) && !(s.getD i 0 == padChar && i < s.length - 2)
  if s.length = 0 then some []
  else if s.length % 4 ≠ 0 then none
  else if !(List.range s.length).all charOk then none
  else
    let pad := (if s.getD (s.length - 1) 0 = padChar then 1 else 0) +
      (if s.getD (s.length - 2) 0 = padChar then 1 else 0)
    some ((decodeGroups s).take (s.length / 4 * 3 - pad))

theorem table_ranges : table =
    (List.range' 65 26 ++ List.range' 97 26 ++ List.range' 48 10 ++ [43, 47]).map UInt8.ofNat := by
  decide +kernel

theorem sextetChar_spec (n : Nat) :
    isB64Char (sextetChar n) ∧ sextetChar n ≠ padChar ∧
      decodeTable (sextetChar n) = n % 64 := by
  have h : ∀ m < 64, isB64Char (table.getD m 0) ∧ table.getD m 0 ≠ padChar ∧
      decodeTable (table.getD m 0) = m := by
    rw [table_ranges]
    decide +kernel
  exact h (n % 64) (Nat.mod_lt _ (by decide))

theorem decodeTable_sextetChar (n : Nat) : decodeTable (sextetChar n) = n % 64 :=
  (sextetChar_spec n).2.2

theorem sextets_join {v : Nat} (h : v < 2 ^ 24) :
    v / 2 ^ 18 % 64 * 2 ^ 18 + v / 2 ^ 12 % 64 * 2 ^ 12 + v / 2 ^ 6 % 64 * 2 ^ 6 + v % 64 = v := by
  omega

theorem ofNat_group (a b c : UInt8) :
    UInt8.ofNat ((a.toNat * 2 ^ 16 + b.toNat * 2 ^ 8 + c.toNat) / 2 ^ 16) = a ∧
      UInt8.ofNat ((a.toNat * 2 ^ 16 + b.toNat * 2 ^ 8 + c.toNat) / 2 ^ 8) = b ∧
      UInt8.ofNat (a.toNat * 2 ^ 16 + b.toNat * 2 ^ 8 + c.toNat) = c := by
  have ha := a.toNat_lt
  have hb := b.toNat_lt
  have hc := c.toNat_lt
  refine ⟨?_, ?_, ?_⟩ <;> apply UInt8.toNat_inj.mp <;> rw [UInt8.toNat_ofNat'] <;> omega

theorem decodeGroup_encodeGroup (a b c : UInt8) :
    let v := a.toNat * 2 ^ 16 + b.toNat * 2 ^ 8 + c.toNat
    decodeGroup (sextetChar (v / 2 ^ 18)) (sextetChar (v / 2 ^ 12)) (sextetChar (v / 2 ^ 6))
      (sextetChar v) = [a, b, c] := by
  have ha := a.toNat_lt
  have hb := b.toNat_lt
  have hc := c.toNat_lt
  simp only [decodeGroup, decodeTable_sextetChar]
  rw [sextets_join (by omega)]
  obtain ⟨h1, h2, h3⟩ := ofNat_group a b c
  rw [h1, h2, h3]

theorem base64Encode_length (x : Bytes) :
    (base64Encode x).length = 4 * ((x.length + 2) / 3) := by
  fun_induction base64Encode x with
  | case1 a b c rest ih =>
    simp only [encodeGroup, length_append, length_cons, length_nil, ih]
    omega
  | case2 a b => simp [encodeGroup]
  | case3 a => simp [encodeGroup]
  | case4 => rfl

def padCount (x : Bytes) : Nat := (3 - x.length % 3) % 3

theorem decodeTable_padChar : decodeTable padChar = 0 := by decide

theorem decodeGroups_encode (x : Bytes) :
    decodeGroups (base64Encode x) = x ++ List.replicate (padCount x) 0 := by
  fun_induction base64Encode x with
  | case1 a b c rest ih =>
    have hcount : padCount (a :: b :: c :: rest) = padCount rest := by
      simp only [padCount, length_cons]
      omega
    simp only [encodeGroup, cons_append, nil_append, decodeGroups,
      decodeGroup_encodeGroup, ih, hcount]
  | case2 a b =>
    have ha := a.toNat_lt
    have hb := b.toNat_lt
    have hjoin : ∀ v, v = a.toNat * 2 ^ 16 + b.toNat * 2 ^ 8 →
        v / 2 ^ 18 % 64 * 2 ^ 18 + v / 2 ^ 12 % 64 * 2 ^ 12 + v / 2 ^ 6 % 64 * 2 ^ 6 + 0 =
          v := by
      intro v hv
      omega
    obtain ⟨h1, h2, h3⟩ := ofNat_group a b 0
    simp only [UInt8.toNat_zero, Nat.add_zero] at h1 h2 h3
    simp only [encodeGroup, take_succ_cons, take_zero, cons_append,
      nil_append, decodeGroups, decodeGroup, decodeTable_sextetChar, decodeTable_padChar,
      hjoin _ rfl, h1, h2, h3]
    rfl
  | case3 a =>
    have ha := a.toNat_lt
    have hjoin : ∀ v, v = a.toNat * 2 ^ 16 →
        v / 2 ^ 18 % 64 * 2 ^ 18 + v / 2 ^ 12 % 64 * 2 ^ 12 + 0 * 2 ^ 6 + 0 = v := by
      intro v hv
      omega
    obtain ⟨h1, h2, h3⟩ := ofNat_group a 0 0
    simp only [UInt8.toNat_zero, Nat.zero_mul, Nat.add_zero] at h1 h2 h3 hjoin
    simp only [encodeGroup, take_succ_cons, take_zero, cons_append,
      nil_append, decodeGroups, decodeGroup, decodeTable_sextetChar, decodeTable_padChar,
      Nat.zero_mul, Nat.add_zero, hjoin _ rfl, h1, h2, h3]
    rfl
  | case4 => rfl

theorem encodeGroup_plain {v : Nat} {c : UInt8} (h : c ∈ encodeGroup v) :
    isB64Char c ∧ c ≠ padChar := by
  have hplain : ∀ n, isB64Char (sextetChar n) ∧ sextetChar n ≠ padChar :=
    fun n => ⟨(sextetChar_spec n).1, (sextetChar_spec n).2.1⟩
  simp only [encodeGroup, mem_cons, not_mem_nil, or_false] at h
  rcases h with rfl | rfl | rfl | rfl <;> exact hplain _

theorem base64Encode_split (x : Bytes) :
    ∃ plain, base64Encode x = plain ++ List.replicate (padCount x) padChar ∧
      ∀ c ∈ plain, isB64Char c ∧ c ≠ padChar := by
  fun_induction base64Encode x with
  | case1 a b c rest ih =>
    obtain ⟨plain, heq, hplain⟩ := ih
    have hcount : padCount (a :: b :: c :: rest) = padCount rest := by
      simp only [padCount, length_cons]
      omega
    refine ⟨encodeGroup _ ++ plain, by rw [heq, hcount, append_assoc], ?_⟩
    intro d hd
    rcases mem_append.mp hd with hd | hd
    · exact encodeGroup_plain hd
    · exact hplain d hd
  | case2 a b => exact ⟨_, rfl, fun c hc => encodeGroup_plain (mem_of_mem_take hc)⟩
  | case3 a => exact ⟨_, rfl, fun c hc => encodeGroup_plain (mem_of_mem_take hc)⟩
  | case4 => exact ⟨[], rfl, by simp⟩

theorem padded_getD {plain : Bytes} {n : Nat} (hplain :
    ∀ c ∈ plain, isB64Char c ∧ c ≠ padChar)
    {i : Nat} (hi : i < (plain ++ List.replicate n padChar).length) :
    isB64Char ((plain ++ List.replicate n padChar).getD i 0) ∧
      ((plain ++ List.replicate n padChar).getD i 0 = padChar ↔
        (plain ++ List.replicate n padChar).length ≤ i + n) := by
  rw [length_append, length_replicate] at hi ⊢
  by_cases h : i < plain.length
  · rw [getD_append _ _ _ _ h, getD_eq_getElem _ _ h]
    obtain ⟨hchar, hne⟩ := hplain _ (getElem_mem h)
    exact ⟨hchar, iff_of_false hne (by omega)⟩
  · rw [getD_append_right _ _ _ _ (by omega), getD_replicate _ (by omega)]
    exact ⟨by decide, iff_of_true rfl (by omega)⟩

theorem charsOk_iff (s : Bytes) : ((List.range s.length).all fun i =>
      isB64Char (s.getD i 0) && !(s.getD i 0 == padChar && decide (i < s.length - 2))) ↔
    ∀ i < s.length, isB64Char (s.getD i 0) ∧ (s.getD i 0 = padChar → s.length ≤ i + 2) := by
  rw [all_eq_true]
  refine forall_congr' fun i => imp_congr mem_range ?_
  rw [Bool.and_eq_true, Bool.not_eq_true', Bool.and_eq_false_imp, beq_iff_eq,
    decide_eq_false_iff_not]
  refine and_congr_right fun _ => imp_congr_right fun _ => ?_
  omega

theorem base64Decode_isSome (s : Bytes) : (base64Decode s).isSome ↔ s.length % 4 = 0 ∧
    ∀ i < s.length, isB64Char (s.getD i 0) ∧ (s.getD i 0 = padChar → s.length ≤ i + 2) := by
  rw [← charsOk_iff]
  unfold base64Decode
  dsimp only
  by_cases hnil : s.length = 0
  · simp [hnil]
  · generalize (List.range s.length).all _ = ok
    rw [if_neg hnil]
    cases ok <;> by_cases hmod : s.length % 4 = 0 <;> simp [hmod]

theorem base64Decode_encode (x : Bytes) : base64Decode (base64Encode x) = some x := by
  have hlen := base64Encode_length x
  have hpad : padCount x ≤ 2 := by
    simp only [padCount]
    omega
  obtain ⟨plain, heq, hplain⟩ := base64Encode_split x
  have hget : ∀ i < (base64Encode x).length, isB64Char ((base64Encode x).getD i 0) ∧
      ((base64Encode x).getD i 0 = padChar ↔ (base64Encode x).length ≤ i + padCount x) := by
    rw [heq]
    exact fun i hi => padded_getD hplain hi
  unfold base64Decode
  by_cases hx : x.length = 0
  · rw [eq_nil_of_length_eq_zero hx]
    rfl
  · have hne : (base64Encode x).length ≠ 0 := by omega
    have hmod : (base64Encode x).length % 4 = 0 := by omega
    have hall := (charsOk_iff (base64Encode x)).mpr fun i hi =>
      ⟨(hget i hi).1, fun hchar => by have := (hget i hi).2.mp hchar; omega⟩
    have h1 := (hget ((base64Encode x).length - 1) (by omega)).2
    have h2 := (hget ((base64Encode x).length - 2) (by omega)).2
    simp only [hne, if_false, hmod, ne_eq, not_true_eq_false, hall, Bool.not_true,
      Bool.false_eq_true, h1, h2, decodeGroups_encode]
    rw [show (base64Encode x).length / 4 * 3 - _ = x.length from ?_, take_left]
    have hcount : padCount x = (3 - x.length % 3) % 3 := rfl
    split_ifs <;> omega

/-- Base64 with padding: whole groups of characters of the alphabet, with up to two characters
of padding in place of the last ones. -/
def WellFormed (s : Bytes) : Prop :=
  s.length % 4 = 0 ∧ ∃ plain n, s = plain ++ List.replicate n padChar ∧ n ≤ 2 ∧
    ∀ c ∈ plain, c ∈ table

theorem isB64Char_iff (c : UInt8) : isB64Char c ∧ c ≠ padChar ↔ c ∈ table := by
  have hpad : c = padChar ↔ c.toNat = 61 := UInt8.toNat_inj.symm
  simp only [table_ranges, mem_map, mem_append, mem_range'_1, mem_cons, not_mem_nil, or_false,
    isB64Char, Bool.or_eq_true, Bool.and_eq_true, decide_eq_true_eq, beq_iff_eq, hpad, ne_eq]
  constructor
  · exact fun h => ⟨c.toNat, by omega, UInt8.ofNat_toNat⟩
  · rintro ⟨n, hn, rfl⟩
    rw [UInt8.toNat_ofNat']
    omega

/-- Padding in the last place but one, and a character of the alphabet behind it. -/
def PaddingInside (s : Bytes) : Prop :=
  s.length % 4 = 0 ∧ ∃ front c, s = front ++ [padChar, c] ∧ (∀ d ∈ front, d ∈ table) ∧ c ∈ table

theorem padChar_notMem_table : padChar ∉ table := fun h => ((isB64Char_iff _).mpr h).2 rfl

theorem not_wellFormed_of_paddingInside {s : Bytes} (h : PaddingInside s) : ¬ WellFormed s := by
  obtain ⟨-, front, c, hs, -, hc⟩ := h
  rintro ⟨-, plain, n, hsplit, -, hplain⟩
  rw [hsplit] at hs
  cases n with
  | zero =>
    rw [replicate_zero, append_nil] at hs
    exact padChar_notMem_table (hplain _ (by simp [hs]))
  | succ n =>
    have hlast := congrArg List.getLast? hs
    rw [replicate_succ', ← append_assoc, getLast?_concat, getLast?_append] at hlast
    obtain rfl : padChar = c := Option.some.inj hlast
    exact padChar_notMem_table hc

theorem base64Decode_isSome_of_split {front back : Bytes} (hmod : (front ++ back).length % 4 = 0)
    (hfront : ∀ c ∈ front, c ∈ table) (hback : ∀ c ∈ back, isB64Char c) (hlen : back.length ≤ 2) :
    (base64Decode (front ++ back)).isSome = true := by
  refine (base64Decode_isSome _).mpr ⟨hmod, fun i hi => ?_⟩
  rw [length_append] at hi ⊢
  by_cases h : i < front.length
  · rw [getD_append _ _ _ _ h, getD_eq_getElem _ _ h]
    obtain ⟨hchar, hne⟩ := (isB64Char_iff _).mpr (hfront _ (getElem_mem h))
    exact ⟨hchar, fun hpad => absurd hpad hne⟩
  · rw [getD_append_right _ _ _ _ (by omega), getD_eq_getElem _ _ (by omega)]
    exact ⟨hback _ (getElem_mem _), fun _ => by omega⟩

/-- What is decoded is split where its padding begins. -/
theorem wellFormed_or_paddingInside {s : Bytes} (h : (base64Decode s).isSome = true) :
    WellFormed s ∨ PaddingInside s := by
  obtain ⟨hmod, h⟩ := (base64Decode_isSome s).mp h
  obtain ⟨plain, rest, hsplit, hplain, hrest⟩ : ∃ plain rest, s = plain ++ rest ∧
      (∀ c ∈ plain, c ≠ padChar) ∧ rest.head?.all (· == padChar) = true := by
    refine ⟨s.takeWhile (· != padChar), s.dropWhile (· != padChar),
      takeWhile_append_dropWhile.symm, fun c hc => ?_, ?_⟩
    · simpa using mem_takeWhile_imp hc
    · have hhead := head?_dropWhile_not (· != padChar) s
      revert hhead
      cases (s.dropWhile (· != padChar)).head? <;> simp
  have htable : ∀ c ∈ plain, c ∈ table := by
    intro c hc
    obtain ⟨i, hi, rfl⟩ := mem_iff_getElem.mp hc
    have hchar := (h i (by rw [hsplit, length_append]; omega)).1
    rw [hsplit, getD_append _ _ _ _ hi, getD_eq_getElem _ _ hi] at hchar
    exact (isB64Char_iff _).mp ⟨hchar, hplain _ hc⟩
  cases rest with
  | nil => exact .inl ⟨hmod, plain, 0, hsplit, by omega, htable⟩
  | cons x rest =>
    obtain rfl : x = padChar := by simpa using hrest
    have hshort : s.length ≤ plain.length + 2 :=
      (h plain.length (by rw [hsplit]; simp)).2 (by rw [hsplit]; simp)
    rw [hsplit, length_append, length_cons] at hshort
    cases rest with
    | nil => exact .inl ⟨hmod, plain, 1, hsplit, by omega, htable⟩
    | cons y rest =>
      obtain rfl : rest = [] := eq_nil_of_length_eq_zero (by rw [length_cons] at hshort; omega)
      by_cases hy : y = padChar
      · exact .inl ⟨hmod, plain, 2, by rw [hsplit, hy]; rfl, by omega, htable⟩
      · have hchar := (h (plain.length + 1) (by rw [hsplit]; simp)).1
        rw [hsplit, getD_append_right _ _ _ _ (by omega), Nat.add_sub_cancel_left] at hchar
        exact .inr ⟨hmod, plain, y, hsplit, htable, (isB64Char_iff y).mp ⟨hchar, hy⟩⟩

/-- The decoder takes what is well-formed and nothing else just when the text does not end in
padding and a character of the alphabet. -/
theorem decoded_iff_wellFormed (s : Bytes) :
    ((base64Decode s).isSome = true ↔ WellFormed s) ↔ ¬ PaddingInside s := by
  constructor
  · rintro h hinside
    refine not_wellFormed_of_paddingInside hinside (h.mp ?_)
    obtain ⟨hmod, front, c, rfl, hfront, hc⟩ := hinside
    refine base64Decode_isSome_of_split hmod hfront (fun d hd => ?_) le_rfl
    rcases mem_pair.mp hd with rfl | rfl
    · rfl
    · exact ((isB64Char_iff _).mpr hc).1
  · intro hinside
    refine ⟨fun h => (wellFormed_or_paddingInside h).resolve_right hinside, ?_⟩
    rintro ⟨hmod, plain, n, rfl, hn, hplain⟩
    refine base64Decode_isSome_of_split hmod hplain (fun d hd => ?_) (by rwa [length_replicate])
    rw [eq_of_mem_replicate hd]
    rfl

theorem padding_inside_decoded :
    (base64Decode (ascii "AA=A")).isSome = true ∧ ¬ WellFormed (ascii "AA=A") := by
  refine ⟨by decide +kernel, not_wellFormed_of_paddingInside ?_⟩
  exact ⟨rfl, ascii "AA", 65, rfl, by decide +kernel, by decide +kernel⟩

end Smolmux.Base64
