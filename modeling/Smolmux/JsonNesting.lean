import Smolmux.JsonText

/-! How deep JSON texts nest, and the scan of `sm_msg_decode` that refuses deep ones before the
library parses them. The scan counts every bracket, so it counts the depth of a text whose
string literals have none. -/

namespace Smolmux.JsonNesting
open Protocol List

def isBlank (s : Bytes) : Bool := s.all fun c => c == 32 || c == 9 || c == 10 || c == 13

def isScalar (s : Bytes) : Bool :=
  s == ascii "true" || s == ascii "false" || s == ascii "null" ||
    (!s.isEmpty && s.all fun c => (48 ≤ c && c ≤ 57) || (ascii "+-.eE").contains c)

/-- What stands between the quotes of a literal; a backslash takes the next character with it. -/
def isLiteralBody : Bytes → Bool
  | [] => true
  | 92 :: c :: s => 32 ≤ c && isLiteralBody s
  | c :: s => c != 34 && c != 92 && 32 ≤ c && isLiteralBody s

inductive Part where
  | value | key | items | members
  deriving DecidableEq

/-- JSON texts with the depth of their nesting; the bodies of their string literals are as
`ok` says. -/
inductive Form (ok : Bytes → Bool) : Part → Bytes → Nat → Prop where
  | scalar {s} (h : isScalar s) : Form ok .value s 0
  | literal {s} (h : isLiteralBody s) (hok : ok s) : Form ok .value (34 :: s ++ [34]) 0
  | key {s} (h : isLiteralBody s) (hok : ok s) : Form ok .key (34 :: s ++ [34]) 0
  | before {part w t d} (hw : isBlank w) (h : Form ok part t d) : Form ok part (w ++ t) d
  | after {part w t d} (h : Form ok part t d) (hw : isBlank w) : Form ok part (t ++ w) d
  | emptyArray {w} (hw : isBlank w) : Form ok .value (91 :: w ++ [93]) 1
  | emptyObject {w} (hw : isBlank w) : Form ok .value (123 :: w ++ [125]) 1
  | array {t d} (h : Form ok .items t d) : Form ok .value (91 :: t ++ [93]) (d + 1)
  | object {t d} (h : Form ok .members t d) : Form ok .value (123 :: t ++ [125]) (d + 1)
  | item {t d} (h : Form ok .value t d) : Form ok .items t d
  | items {t d u e} (h : Form ok .value t d) (hu : Form ok .items u e) :
      Form ok .items (t ++ 44 :: u) (max d e)
  | member {k t d} (hk : Form ok .key k 0) (h : Form ok .value t d) :
      Form ok .members (k ++ 58 :: t) d
  | members {t d u e} (h : Form ok .members t d) (hu : Form ok .members u e) :
      Form ok .members (t ++ 44 :: u) (max d e)

def isBracket (c : UInt8) : Bool := c == 123 || c == 91 || c == 125 || c == 93

def bracketFree (s : Bytes) : Bool := s.all fun c => !isBracket c

variable {t : Bytes} {d : Nat}

theorem Form.ne_nil {ok : Bytes → Bool} {part : Part} (h : Form ok part t d) : t ≠ [] := by
  induction h with
  | scalar h =>
    rintro rfl
    exact absurd h (by decide)
  | before _ _ ih | after _ _ ih => simp [ih]
  | item _ ih => exact ih
  | _ => simp

variable {c : UInt8} {s : Bytes} {depth : Int}

theorem tooDeep_cons (hc : isBracket c = false) (depth : Int) (s : Bytes) :
    tooDeep depth (c :: s) = tooDeep depth s := by
  simp only [isBracket, Bool.or_eq_false_iff, beq_eq_false_iff_ne] at hc
  simp [tooDeep, hc]

theorem tooDeep_append (hs : bracketFree s) (depth : Int) (rest : Bytes) :
    tooDeep depth (s ++ rest) = tooDeep depth rest := by
  induction s with
  | nil => rfl
  | cons c s ih =>
    rw [bracketFree, all_cons, Bool.and_eq_true, Bool.not_eq_true'] at hs
    rw [cons_append, tooDeep_cons hs.1, ih hs.2]

theorem bracketFree_of_isBlank {w : Bytes} (h : isBlank w) : bracketFree w := by
  rw [isBlank, all_eq_true] at h
  refine all_eq_true.mpr fun c hc => ?_
  have hchar := h c hc
  simp only [Bool.or_eq_true, beq_iff_eq] at hchar
  rcases hchar with ((rfl | rfl) | rfl) | rfl <;> rfl

theorem bracketFree_of_isScalar (h : isScalar s) : bracketFree s := by
  simp only [isScalar, Bool.or_eq_true, Bool.and_eq_true, beq_iff_eq, all_eq_true] at h
  rcases h with ((rfl | rfl) | rfl) | ⟨-, h⟩
  · decide +kernel
  · decide +kernel
  · decide +kernel
  · have hclass : ∀ n < 256, (decide (48 ≤ UInt8.ofNat n) && decide (UInt8.ofNat n ≤ 57) ||
        (ascii "+-.eE").contains (UInt8.ofNat n)) = true → isBracket (UInt8.ofNat n) = false := by
      decide +kernel
    refine all_eq_true.mpr fun c hc => ?_
    have hchar := hclass c.toNat c.toNat_lt
    rw [UInt8.ofNat_toNat] at hchar
    rw [hchar (by simpa using h c hc), Bool.not_false]

theorem bracketFree_literal (h : bracketFree s) :
    bracketFree (34 :: s ++ [34]) := by
  rw [bracketFree, cons_append, all_cons, all_append]
  exact Bool.and_eq_true_iff.mpr ⟨rfl, Bool.and_eq_true_iff.mpr ⟨h, rfl⟩⟩

theorem tooDeep_open (hc : c = 123 ∨ c = 91) (depth : Int) (s : Bytes) :
    tooDeep depth (c :: s) = (decide (32 < depth + 1) || tooDeep (depth + 1) s) := by
  rw [tooDeep, if_pos hc]
  split_ifs with h <;> simp [h]

theorem tooDeep_close (hc : c = 125 ∨ c = 93) (depth : Int) (s : Bytes) :
    tooDeep depth (c :: s) = tooDeep (depth - 1) s := by
  rcases hc with rfl | rfl <;> rfl

theorem tooDeep_enclosed {o : UInt8} (ho : o = 123 ∨ o = 91) (hc : c = 125 ∨ c = 93)
    (h : ∀ (depth : Int) (rest : Bytes), depth ≤ 32 →
      tooDeep depth (t ++ rest) = (decide (32 < depth + d) || tooDeep depth rest))
    (depth : Int) (rest : Bytes) :
    tooDeep depth (o :: t ++ [c] ++ rest) =
      (decide (32 < depth + (d + 1 : Nat)) || tooDeep depth rest) := by
  rw [append_assoc, cons_append, tooDeep_open ho]
  by_cases hdeep : 32 < depth + 1
  · have hall : 32 < depth + (d + 1 : Nat) := by omega
    rw [decide_eq_true hdeep, decide_eq_true hall, Bool.true_or, Bool.true_or]
  · have hnext : depth + 1 + (d : Int) = depth + (d + 1 : Nat) := by omega
    rw [decide_eq_false hdeep, Bool.false_or, h _ _ (by omega), singleton_append,
      tooDeep_close hc, Int.add_sub_cancel, hnext]

theorem scan_max (depth : Int) (d e : Nat) (more : Bool) :
    (decide (32 < depth + d) || (decide (32 < depth + e) || more)) =
      (decide (32 < depth + (max d e : Nat)) || more) := by
  rw [← Bool.or_assoc, ← Bool.decide_or]
  congr 2
  rw [Nat.cast_max, ← max_add_add_left, lt_max_iff]

theorem Form.tooDeep_append {part : Part} (h : Form bracketFree part t d) (depth : Int)
    (rest : Bytes) (hdepth : depth ≤ 32) :
    tooDeep depth (t ++ rest) = (decide (32 < depth + d) || tooDeep depth rest) := by
  have hflat : ¬ 32 < depth + (0 : Nat) := by omega
  induction h generalizing depth rest with
  | scalar h =>
    rw [JsonNesting.tooDeep_append (bracketFree_of_isScalar h), decide_eq_false hflat,
      Bool.false_or]
  | literal _ hok | key _ hok =>
    rw [JsonNesting.tooDeep_append (bracketFree_literal hok), decide_eq_false hflat, Bool.false_or]
  | before hw _ ih =>
    rw [append_assoc, JsonNesting.tooDeep_append (bracketFree_of_isBlank hw)]
    exact ih depth rest hdepth hflat
  | after _ hw ih =>
    rw [append_assoc, ih depth _ hdepth hflat,
      JsonNesting.tooDeep_append (bracketFree_of_isBlank hw)]
  | @emptyArray w hw | @emptyObject w hw =>
    refine tooDeep_enclosed (by simp) (by simp) (d := 0) (fun depth rest hdepth => ?_) depth rest
    rw [JsonNesting.tooDeep_append (bracketFree_of_isBlank hw), decide_eq_false (by omega),
      Bool.false_or]
  | array _ ih | object _ ih =>
    exact tooDeep_enclosed (by simp) (by simp)
      (fun depth rest hdepth => ih depth rest hdepth (by omega)) depth rest
  | item _ ih => exact ih depth rest hdepth hflat
  | items _ _ ih ihu | members _ _ ih ihu =>
    rw [append_assoc, ih depth _ hdepth hflat, cons_append, tooDeep_cons rfl,
      ihu depth rest hdepth hflat, scan_max]
  | member _ _ ihk ih =>
    rw [append_assoc, ihk depth _ hdepth hflat, cons_append, tooDeep_cons rfl,
      ih depth rest hdepth hflat, decide_eq_false hflat, Bool.false_or]

def bracketStep (c : UInt8) : Int :=
  if c = 123 ∨ c = 91 then 1 else if c = 125 ∨ c = 93 then -1 else 0

/-- At some place of the text more than 32 brackets more have been opened than closed, with those
inside of string literals counted. -/
def Outgrows (depth : Int) (t : Bytes) : Prop := ∃ p, p <+: t ∧ 32 < depth + (p.map bracketStep).sum

theorem outgrows_cons (hdepth : depth ≤ 32) :
    Outgrows depth (c :: s) ↔ 32 < depth + bracketStep c ∨ Outgrows (depth + bracketStep c) s := by
  constructor
  · rintro ⟨p, hp, hsum⟩
    rcases prefix_cons_iff.mp hp with rfl | ⟨q, rfl, hq⟩
    · exact absurd hsum (by simpa using hdepth)
    · rw [map_cons, sum_cons, ← Int.add_assoc] at hsum
      exact .inr ⟨q, hq, hsum⟩
  · rintro (hsum | ⟨q, hq, hsum⟩)
    · exact ⟨[c], (prefix_cons_inj c).mpr nil_prefix, by simpa using hsum⟩
    · exact ⟨c :: q, (prefix_cons_inj c).mpr hq, by rwa [map_cons, sum_cons, ← Int.add_assoc]⟩

theorem tooDeep_iff (hdepth : depth ≤ 32) : tooDeep depth t = true ↔ Outgrows depth t := by
  induction t generalizing depth with
  | nil => simpa [tooDeep, Outgrows] using hdepth
  | cons c s ih =>
    rw [outgrows_cons hdepth, tooDeep, bracketStep]
    split_ifs with hopen hlimit hclose
    · simp [hlimit]
    · rw [ih (by omega)]
      simp [hlimit]
    · rw [ih (by omega), or_iff_right (by omega)]
      rfl
    · rw [ih hdepth, Int.add_zero, or_iff_right (by omega)]

/-- A message that the library parses, up to its own limit of a thousand levels, is taken just
when its nesting is at most 32 deep, if and only if the brackets of its literals do not make the
count wrong; in a message whose literals have no brackets they do not. -/
theorem message_taken_iff_shallow (codec : Codec) {t : Bytes} {d : Nat}
    (h : Form (fun _ => true) .value t d)
    (hparse : (∃ root, codec.parse (cString (stripNewline t)) = some root ∧
      lookupType (root.getString "type") ≠ .unknown) ↔ d ≤ 1000) :
    (((msgDecode codec t).type ≠ .unknown ↔ d ≤ 32) ↔ 1000 < d ∨ (Outgrows 0 t ↔ 32 < d)) ∧
      (Form bracketFree .value t d → (Outgrows 0 t ↔ 32 < d)) := by
  have hscan : tooDeep 0 t = true ↔ Outgrows 0 t := tooDeep_iff (by decide)
  have htaken : (msgDecode codec t).type ≠ .unknown ↔ ¬ Outgrows 0 t ∧ d ≤ 1000 := by
    rw [← hscan, ← hparse]
    unfold msgDecode
    by_cases hdeep : tooDeep 0 t = true
    · simp [hdeep]
    · rw [if_neg (not_or.mpr ⟨h.ne_nil, hdeep⟩)]
      cases codec.parse (cString (stripNewline t)) <;> simp [hdeep]
  refine ⟨?_, fun hfree => ?_⟩
  · rw [htaken]
    by_cases hout : Outgrows 0 t
    · simp only [hout, not_true_eq_false, false_and, false_iff, true_iff]
      omega
    · simp only [hout, not_false_eq_true, true_and, false_iff]
      omega
  · have hrest := hfree.tooDeep_append 0 [] (by decide)
    rw [append_nil, tooDeep, Bool.or_false] at hrest
    rw [← hscan, hrest, decide_eq_true_iff]
    omega

def statusText (value : Bytes) : Bytes :=
  ascii "\x7b\"type\":\"status\",\"x\":" ++ value ++ [125]

def nested (n : Nat) : Bytes := List.replicate n 91 ++ List.replicate n 93

theorem form_nested (ok : Bytes → Bool) (n : Nat) : Form ok .value (nested (n + 1)) (n + 1) := by
  induction n with
  | zero => exact .emptyArray (w := []) rfl
  | succ n ih =>
    have hnext := Form.array (.item ih)
    rwa [show 91 :: nested (n + 1) ++ [93] = nested (n + 1 + 1) by
      rw [nested, nested, replicate_succ (n := n + 1),
        replicate_succ' (n := n + 1) (a := 93)]
      simp] at hnext

theorem form_statusText {ok : Bytes → Bool}
    (hok : ∀ s : String, s ∈ ["type", "status", "x"] → ok (ascii s) = true) {value : Bytes}
    (h : Form ok .value value d) :
    Form ok .value (statusText value) (d + 1) := by
  have htype : Form ok .members (34 :: ascii "type" ++ [34] ++ 58 :: (34 :: ascii "status" ++ [34]))
    0 :=
    .member (.key (by decide +kernel) (hok _ (by simp)))
      (.literal (by decide +kernel) (hok _ (by simp)))
  have hfields := htype.members (.member (.key (by decide +kernel) (hok "x" (by simp))) h)
  have hobject := Form.object hfields
  rw [Nat.zero_max] at hobject
  exact hobject

def classText : Bytes := statusText (ascii "\"[a-z]+\"")

theorem message_taken_iff_shallow_class :
    (msgDecode JsonText.textCodec classText).type = .status ∧
      ((msgDecode JsonText.textCodec classText).type ≠ .unknown ↔ 1 ≤ 32) ∧
      (Outgrows 0 classText ↔ 32 < 1) := by
  have hform : Form (fun _ => true) .value classText 1 :=
    form_statusText (fun _ _ => rfl) (.literal (s := ascii "[a-z]+") (by decide +kernel) rfl)
  have hroot : ((JsonText.textCodec.parse (cString (stripNewline classText))).any
      fun root => decide (lookupType (root.getString "type") ≠ .unknown)) = true := by
    decide +kernel
  obtain ⟨root, hparse, htype⟩ := (Option.any_eq_true _ _).mp hroot
  have hexact := (message_taken_iff_shallow JsonText.textCodec hform
    (iff_of_true ⟨root, hparse, of_decide_eq_true htype⟩ (by decide))).1
  have htaken : (msgDecode JsonText.textCodec classText).type = .status := by decide +kernel
  have hiff : (msgDecode JsonText.textCodec classText).type ≠ .unknown ↔ 1 ≤ 32 :=
    iff_of_true (by rw [htaken]; decide) (by decide)
  exact ⟨htaken, hiff, (hexact.mp hiff).resolve_left (by decide)⟩

/-- A message of depth 1 with brackets in a string is refused, and one of depth 33 is taken
because a string closes what it has not opened. -/
theorem brackets_in_strings_counted :
    let wide := statusText (34 :: List.replicate 32 91 ++ [34])
    let deep := statusText (91 :: ([34, 93, 34] ++ 44 :: nested 31) ++ [93])
    (Form (fun _ => true) .value wide 1 ∧
      (JsonText.textCodec.parse wide).any (·.getString "type" == some (ascii "status")) = true ∧
      (msgDecode JsonText.textCodec wide).type = .unknown) ∧
    (Form (fun _ => true) .value deep 33 ∧ (msgDecode JsonText.textCodec deep).type = .status) := by
  intro wide deep
  refine ⟨⟨?_, by decide +kernel, by decide +kernel⟩, ?_, by decide +kernel⟩
  · exact form_statusText (fun _ _ => rfl) (.literal (by decide +kernel) rfl)
  · exact form_statusText (fun _ _ => rfl)
      (.array (.items (.literal (s := [93]) rfl rfl) (.item (form_nested _ 30))))

end Smolmux.JsonNesting
