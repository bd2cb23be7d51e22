import Smolmux.AnomalyScan

/-! The literal that has to occur before a pattern's regex is tried. It is cut from the text
of the pattern, or given with a built-in one; where every match of the pattern contains it,
the check skips only searches that would find nothing. -/

namespace Smolmux.Anomaly
open RegexEngine List

variable {literal region : Bytes}

theorem infix_intercalate {sep piece : Bytes} {pieces : List Bytes} (h : piece ∈ pieces) :
    piece <:+: sep.intercalate pieces := by
  induction pieces with
  | nil => exact absurd h not_mem_nil
  | cons first rest ih =>
    cases rest with
    | nil =>
      rw [mem_singleton.mp h]
      simp
    | cons second rest =>
      rw [intercalate_cons_cons]
      rcases mem_cons.mp h with rfl | h
      · exact ⟨[], sep ++ sep.intercalate (second :: rest), by simp⟩
      · exact (ih h).trans (suffix_append _ _).isInfix

theorem mem_intercalate_nils {sep : UInt8} {pieces : List Bytes} (h : ∀ piece ∈ pieces, piece = [])
    {c : UInt8} (hc : c ∈ [sep].intercalate pieces) : c = sep := by
  induction pieces with
  | nil => simp at hc
  | cons first rest ih =>
    obtain rfl := h first mem_cons_self
    cases rest with
    | nil => simp at hc
    | cons second rest =>
      rw [intercalate_cons_cons, nil_append] at hc
      rcases mem_append.mp hc with hc | hc
      · exact mem_singleton.mp hc
      · exact ih (fun piece hp => h piece (mem_cons_of_mem _ hp)) hc

theorem intercalate_needles (literal : Bytes) : [59].intercalate (literal.splitOn 59) = literal :=
  intercalate_splitOn ..

theorem infix_of_mem_splitOn {needle : Bytes} (h : needle ∈ literal.splitOn 59) :
    needle <:+: literal := by
  have hin : needle <:+: [59].intercalate (literal.splitOn 59) := infix_intercalate h
  rwa [intercalate_needles] at hin

theorem regionHasLiteral_iff : regionHasLiteral region literal ↔
    literal = [] ∨ ∃ needle ∈ literal.splitOn 59, needle ≠ [] ∧ needle.take 31 <:+: region := by
  simp [regionHasLiteral]

theorem regionHasLiteral_mono {part : Bytes} (h : part <:+: region)
    (hpart : regionHasLiteral part literal) : regionHasLiteral region literal := by
  rcases regionHasLiteral_iff.mp hpart with hnil | ⟨needle, hmem, hne, hin⟩
  · exact regionHasLiteral_iff.mpr (.inl hnil)
  · exact regionHasLiteral_iff.mpr (.inr ⟨needle, hmem, hne, hin.trans h⟩)

theorem regionHasLiteral_of_infix (h : literal <:+: region)
    (hneedle : literal = [] ∨ ∃ c ∈ literal, c ≠ 59) : regionHasLiteral region literal := by
  rcases hneedle with hnil | ⟨c, hc, hsep⟩
  · exact regionHasLiteral_iff.mpr (.inl hnil)
  · obtain ⟨needle, hmem, hne⟩ : ∃ needle ∈ literal.splitOn 59, needle ≠ [] := by
      by_contra hall
      push Not at hall
      rw [← intercalate_needles literal] at hc
      exact hsep (mem_intercalate_nils hall hc)
    have hin : needle <:+: region := (infix_of_mem_splitOn hmem).trans h
    exact regionHasLiteral_iff.mpr
      (.inr ⟨needle, hmem, hne, (List.take_prefix ..).isInfix.trans hin⟩)

theorem regionHasLiteral_of_scratchOf (h : 0 ∉ region ∨ 32 ∉ literal)
    (hfound : regionHasLiteral (scratchOf region) literal) :
    regionHasLiteral region literal := by
  rcases h with hclean | hblank
  · have hsame : scratchOf region = region.take 4096 := by
      refine (map_congr_left fun c hc => ?_).trans (map_id _)
      exact if_neg fun h0 : c = 0 => hclean (h0 ▸ mem_of_mem_take hc)
    rw [hsame] at hfound
    exact regionHasLiteral_mono (List.take_prefix ..).isInfix hfound
  · rcases regionHasLiteral_iff.mp hfound with hnil | ⟨needle, hmem, hne, before, after, heq⟩
    · exact regionHasLiteral_iff.mpr (.inl hnil)
    · have hpart : ∀ c ∈ needle.take 31, c ≠ 32 := by
        intro c hc h32
        exact hblank (h32 ▸ (infix_of_mem_splitOn hmem).subset (mem_of_mem_take hc))
      rw [scratchOf, append_assoc] at heq
      obtain ⟨xs, ys, hsplit, hxs, hys⟩ := map_eq_append_iff.mp heq.symm
      obtain ⟨us, vs, hsplit', hus, hvs⟩ := map_eq_append_iff.mp hys
      have hword : us = needle.take 31 := by
        rw [← hus]
        refine ((map_congr_left fun c hc => ?_).trans (map_id us)).symm
        have hne32 := hpart (if c = 0 then 32 else c) (hus ▸ mem_map_of_mem hc)
        exact if_neg fun h0 : c = 0 => hne32 (if_pos h0)
      refine regionHasLiteral_iff.mpr (.inr ⟨needle, hmem, hne, ?_⟩)
      have hin : needle.take 31 <:+: region.take 4096 :=
        ⟨xs, vs, by rw [hsplit, hsplit', hword, append_assoc]⟩
      exact hin.trans (List.take_prefix ..).isInfix

variable {expr : Ere} {pattern : Bytes}

def Guards (expr : Ere) (literal : Bytes) : Prop :=
  ∀ text, (expr.search text).isSome = true → regionHasLiteral text literal = true

theorem guards_of_heads (h : ∀ word ∈ expr.heads, regionHasLiteral word.1 literal) : Guards expr literal := by
  intro text hfound
  obtain ⟨word, hword, hin⟩ := Ere.heads_of_search hfound
  exact regionHasLiteral_mono hin (h word hword)

def literalRun (pattern : Bytes) : Bytes := pattern.takeWhile (!isMeta ·)

/-- Patterns whose literal is in every match: no brace among the literal bytes and no
quantifier behind them that lets the last one go, no alternation at the top, and not only
separators. -/
structure Firm (pattern : Bytes) : Prop where
  noBrace : 123 ∉ literalRun pattern
  kept : Ere.firm (pattern.drop (literalRun pattern).length) = true
  single : (Ere.parse pattern).all (!·.isAlt) = true
  needle : extractLiteralPrefix pattern 48 = [] ∨ ∃ c ∈ extractLiteralPrefix pattern 48, c ≠ 59

theorem isPlain_of_literalRun (h : 123 ∉ literalRun pattern) :
    ∀ c ∈ literalRun pattern, Ere.isPlain c := by
  have hmeta : ascii "[(.*+?|\\^$" = [91, 40, 46, 42, 43, 63, 124, 92, 94, 36] := by decide
  intro c hc
  have hplain : isMeta c = false := by simpa using mem_takeWhile_imp hc
  have hbrace : c ≠ 123 := fun heq => h (heq ▸ hc)
  rw [isMeta, hmeta] at hplain
  simpa [Ere.isPlain, hbrace] using hplain

theorem guards_extractLiteralPrefix (h : Firm pattern) (hparse : Ere.parse pattern = some expr) :
    Guards expr (extractLiteralPrefix pattern 48) := by
  have hsplit : literalRun pattern ++ pattern.drop (literalRun pattern).length = pattern :=
    prefix_iff_eq_append.mp (List.takeWhile_prefix _)
  have hsingle : expr.isAlt = false := by
    have hone := h.single
    rw [hparse] at hone
    simpa using hone
  have hbegins : expr.BeginsWith (literalRun pattern) :=
    Ere.parse_beginsWith (isPlain_of_literalRun h.noBrace) h.kept (hsplit.symm ▸ hparse)
      hsingle
  intro text hfound
  have hin : extractLiteralPrefix pattern 48 <:+: literalRun pattern :=
    ((List.rdropWhile_prefix _ _).trans (List.take_prefix ..)).isInfix
  exact regionHasLiteral_of_infix (hin.trans (hbegins.of_search hfound)) h.needle

theorem guards_builtin {builtin : String × String × String × String} (h : builtin ∈ builtins)
    (hparse : Ere.parse (ascii builtin.2.1) = some expr) :
    Guards expr (stored 48 (ascii builtin.2.2.2)) := by
  have hall : ∀ b ∈ builtins, (Ere.parse (ascii b.2.1)).all (fun expr =>
      expr.heads.all fun word => regionHasLiteral word.1 (stored 48 (ascii b.2.2.2))) := by
    decide +kernel
  have hone := hall builtin h
  rw [hparse] at hone
  exact guards_of_heads fun word hword => all_eq_true.mp hone word hword

variable {det : AnomalyDetector Compiled}

section Tables

variable {accepts : Bytes → Bool} {slow : Ere → Bytes → Bool}

def Guarded (det : AnomalyDetector Compiled) : Prop :=
  ∀ p ∈ det.patterns, Guards p.compiled.expr p.literal

/-- An operation that puts no pattern and its literal apart: added patterns are firm, and the
built-in ones are added to a table that has none of their names. -/
def Op.Tidy (det : AnomalyDetector Compiled) : Op → Prop
  | .add _ pattern _ => Firm pattern
  | .addBuiltins => ∀ p ∈ det.patterns, ∀ builtin ∈ builtins, p.name ≠ ascii builtin.1
  | _ => True

def TidyRun (regex : Regex Compiled) : AnomalyDetector Compiled → List Op → Prop
  | _, [] => True
  | det, op :: ops => op.Tidy det ∧ TidyRun regex (op.apply regex det) ops

inductive AddsPattern (det : AnomalyDetector Compiled) (name pattern : Bytes) :
    AnomalyDetector Compiled × Bool → Prop
  | refused : AddsPattern det name pattern (det, false)
  | replaced {det' : AnomalyDetector Compiled} (compiled : Compiled) (i : Nat)
      (hparse : Ere.parse pattern = some compiled.expr)
      (hknown : ∃ p ∈ det.patterns, p.name = name) (f : AnomalyPattern Compiled → _)
      (hf : ∀ p, (f p).compiled = compiled ∧ (f p).literal = extractLiteralPrefix pattern 48)
      (hpatterns : det'.patterns = det.patterns.modify i f) : AddsPattern det name pattern (det', true)
  | appended {det' : AnomalyDetector Compiled} (p : AnomalyPattern Compiled)
      (hparse : Ere.parse pattern = some p.compiled.expr) (hname : p.name = stored 64 name)
      (hliteral : p.literal = extractLiteralPrefix pattern 48)
      (hpatterns : det'.patterns = det.patterns ++ [p]) : AddsPattern det name pattern (det', true)

theorem addsPattern (det : AnomalyDetector Compiled) (name pattern severity : Bytes) :
    AddsPattern det name pattern
      (anomalyAddPattern (posixRegex accepts slow) det name pattern severity) := by
  unfold anomalyAddPattern
  split
  · exact .refused
  split
  · exact .refused
  next compiled hcompiled =>
    have hparse := regexCompile_expr hcompiled
    dsimp only
    split
    next i hi =>
      obtain ⟨hlt, hname, -⟩ := findIdx?_eq_some_iff_getElem.mp hi
      exact .replaced compiled i hparse ⟨_, getElem_mem hlt, eq_of_beq hname⟩ _
        (fun _ => ⟨rfl, rfl⟩) rfl
    · split
      · exact .refused
      · exact .appended _ hparse rfl rfl rfl

theorem mem_modify {α : Type} {xs : List α} {i : Nat} {f : α → α} {x : α}
    (h : x ∈ xs.modify i f) : x ∈ xs ∨ ∃ y ∈ xs, x = f y := by
  obtain ⟨j, hj, rfl⟩ := getElem_of_mem h
  rw [length_modify] at hj
  rw [getElem_modify]
  split_ifs
  · exact .inr ⟨_, getElem_mem _, rfl⟩
  · exact .inl (getElem_mem _)

theorem Guarded.add (h : Guarded det) (hfirm : Firm pattern) (name severity : Bytes) :
    Guarded (anomalyAddPattern (posixRegex accepts slow) det name pattern severity).1 := by
  have hadds : AddsPattern det name pattern
      (anomalyAddPattern (posixRegex accepts slow) det name pattern severity) :=
    addsPattern det name pattern severity
  generalize anomalyAddPattern (posixRegex accepts slow) det name pattern severity = r at hadds ⊢
  cases hadds with
  | refused => exact h
  | replaced compiled i hparse hknown f hf hpatterns =>
    intro p hp
    rw [hpatterns] at hp
    rcases mem_modify hp with hp | ⟨q, -, rfl⟩
    · exact h p hp
    · rw [(hf q).1, (hf q).2]
      exact guards_extractLiteralPrefix hfirm hparse
  | appended p hparse hname hliteral hpatterns =>
    intro q hq
    rw [hpatterns] at hq
    rcases mem_append.mp hq with hq | hq
    · exact h q hq
    · rw [mem_singleton.mp hq, hliteral]
      exact guards_extractLiteralPrefix hfirm hparse

theorem modify_last {α : Type} (xs : List α) (x : α) (f : α → α) :
    (xs ++ [x]).modify ((xs ++ [x]).length - 1) f = xs ++ [f x] := by
  induction xs with
  | nil => rfl
  | cons y xs ih =>
    rw [length_append, length_singleton, Nat.add_sub_cancel] at ih ⊢
    rw [cons_append, length_cons, modify_succ_cons, ih, cons_append]

theorem addBuiltin_appends {builtin : String × String × String × String}
    (hnew : ∀ p ∈ det.patterns, p.name ≠ ascii builtin.1) :
    (addBuiltin (posixRegex accepts slow) det builtin).patterns = det.patterns ∨
      ∃ p, (addBuiltin (posixRegex accepts slow) det builtin).patterns = det.patterns ++ [p] ∧
        Ere.parse (ascii builtin.2.1) = some p.compiled.expr ∧
        p.name = stored 64 (ascii builtin.1) ∧ p.literal = stored 48 (ascii builtin.2.2.2) := by
  obtain ⟨name, pattern, severity, literal⟩ := builtin
  have hadds : AddsPattern det (ascii name) (ascii pattern) (anomalyAddPattern
      (posixRegex accepts slow) det (ascii name) (ascii pattern) (ascii severity)) :=
    addsPattern det _ _ _
  rw [addBuiltin]
  dsimp only
  generalize anomalyAddPattern (posixRegex accepts slow) det (ascii name) (ascii pattern)
    (ascii severity) = r at hadds ⊢
  cases hadds with
  | refused => exact .inl rfl
  | replaced compiled i hparse hknown f hf hpatterns =>
    obtain ⟨p, hp, hname⟩ := hknown
    exact absurd hname (hnew p hp)
  | appended p hparse hname hliteral hpatterns =>
    refine .inr ⟨{ p with literal := stored 48 (ascii literal) }, ?_, hparse, hname, rfl⟩
    rw [if_pos rfl]
    dsimp only
    rw [hpatterns, modify_last]

theorem Guarded.addBuiltins {rest : List (String × String × String × String)}
    (hrest : rest ⊆ builtins) (hnames : rest.Pairwise fun a b => ascii a.1 ≠ ascii b.1)
    (h : Guarded det) (hnew : ∀ p ∈ det.patterns, ∀ builtin ∈ rest, p.name ≠ ascii builtin.1) :
    Guarded (rest.foldl (addBuiltin (posixRegex accepts slow)) det) := by
  have hshort : ∀ builtin ∈ builtins,
      stored 64 (ascii builtin.1) = ascii builtin.1 := by decide +kernel
  induction rest generalizing det with
  | nil => exact h
  | cons builtin rest ih =>
    have hmem := hrest mem_cons_self
    obtain ⟨hfirst, hnames⟩ := pairwise_cons.mp hnames
    have hold : ∀ p ∈ det.patterns, ∀ other ∈ rest, p.name ≠ ascii other.1 :=
      fun p hp other ho => hnew p hp other (mem_cons_of_mem _ ho)
    refine ih (fun other ho => hrest (mem_cons_of_mem _ ho)) hnames ?_ ?_
    all_goals
      intro q hq
      rcases addBuiltin_appends fun p hp => hnew p hp builtin mem_cons_self
        with hsame | ⟨p, happ, hparse, hname, hlit⟩
    · exact h q (hsame ▸ hq)
    · rw [happ] at hq
      rcases mem_append.mp hq with hq | hq
      · exact h q hq
      · rw [mem_singleton.mp hq, hlit]
        exact guards_builtin hmem hparse
    · exact hold q (hsame ▸ hq)
    · rw [happ] at hq
      rcases mem_append.mp hq with hq | hq
      · exact hold q hq
      · intro other ho
        rw [mem_singleton.mp hq, hname, hshort builtin hmem]
        exact hfirst other ho

theorem checkPattern_guard (now : Nat × Nat) (ts : Rat) (start : Nat)
    (det : AnomalyDetector Compiled) (p : AnomalyPattern Compiled) :
    (checkPattern (posixRegex accepts slow) now ts start det p).1.compiled.expr =
        p.compiled.expr ∧
      (checkPattern (posixRegex accepts slow) now ts start det p).1.literal = p.literal := by
  have hexec : ∀ text, ((posixRegex accepts slow).exec p.compiled text).2.expr =
      p.compiled.expr := by
    intro text
    dsimp only [posixRegex, regexExec]
    split_ifs <;> rfl
  unfold checkPattern
  dsimp only
  split
  · exact ⟨rfl, rfl⟩
  split
  · exact ⟨rfl, rfl⟩
  split
  · exact ⟨hexec _, rfl⟩
  · exact ⟨hexec _, rfl⟩

theorem Guarded.set (h : Guarded det) {i : Nat} {p q : AnomalyPattern Compiled}
    (hp : det.patterns[i]? = some p) (hexpr : q.compiled.expr = p.compiled.expr)
    (hliteral : q.literal = p.literal) :
    Guarded { det with patterns := det.patterns.set i q } := by
  intro r hr
  rcases mem_or_eq_of_mem_set hr with hr | rfl
  · exact h r hr
  · rw [hexpr, hliteral]
    exact h p (mem_of_getElem? hp)

theorem Guarded.scan (h : Guarded det) (clock : Nat → Nat × Nat) (ts : Rat)
    (start left i found : Nat) :
    Guarded (scanPatterns (posixRegex accepts slow) clock ts start left i found det).2 := by
  induction left generalizing i found det with
  | zero => exact h
  | succ left ih =>
    rw [scanPatterns]
    split
    · exact h
    next p hp =>
      have hcheck : (checkPattern (posixRegex accepts slow) (clock found) ts start det
          p).1.compiled.expr = p.compiled.expr ∧ (checkPattern (posixRegex accepts slow)
          (clock found) ts start det p).1.literal = p.literal := checkPattern_guard ..
      dsimp only
      generalize checkPattern (posixRegex accepts slow) (clock found) ts start det p = r
        at hcheck ⊢
      have hset := h.set hp hcheck.1 hcheck.2
      split
      · exact ih hset _ _
      · refine ih ?_ _ _
        exact hset

theorem Guarded.apply (h : Guarded det) {op : Op} (hop : op.Tidy det) : Guarded (op.apply (posixRegex accepts slow) det) := by
  cases op with
  | add name pattern severity => exact h.add hop name severity
  | addBuiltins =>
    have hnames : builtins.Pairwise fun a b => ascii a.1 ≠ ascii b.1 := by decide +kernel
    rw [Op.apply, anomalyAddBuiltins]
    exact h.addBuiltins (List.Subset.refl _) hnames hop
  | feed clock data ts =>
    rw [Op.apply]
    by_cases hne : data = []
    · rw [anomalyFeed, if_pos hne]
      exact h
    · have hfilled : Guarded (filledWith det data) := by
        rw [Guarded, filledWith_patterns]
        exact h
      rw [anomalyFeed_eq hne]
      exact Guarded.scan hfilled clock ts _ _ _ _
  | resetWindow => exact h

theorem guarded_run {ops : List Op} (h : Guarded det)
    (htidy : TidyRun (posixRegex accepts slow) det ops) :
    Guarded (ops.foldl (Op.apply (posixRegex accepts slow)) det) := by
  induction ops generalizing det with
  | nil => exact h
  | cons op ops ih => exact ih (h.apply htidy.1) htidy.2

/-- However a detector was set up and fed, with firm patterns and the built-in ones before
others of their names: a search that would find a pattern is not skipped for want of its
literal. -/
theorem prefilter_hides_nothing (accepts : Bytes → Bool) (slow : Ere → Bytes → Bool)
    (ops : List Op) (htidy : TidyRun (posixRegex accepts slow) anomalyInit ops) :
    ∀ p ∈ (runFrom (posixRegex accepts slow) ops).patterns, ∀ region,
      (0 ∉ region ∨ 32 ∉ p.literal) →
      ((posixRegex accepts slow).exec p.compiled (scratchOf region)).1.isSome = true →
      regionHasLiteral region p.literal = true := by
  intro p hp region hregion hfound
  have hguarded : Guarded (runFrom (posixRegex accepts slow) ops) :=
    guarded_run (fun _ hnone => absurd hnone not_mem_nil) htidy
  refine regionHasLiteral_of_scratchOf hregion (hguarded p hp _ ?_)
  rw [posixRegex, regexExec_found, Bool.and_eq_true] at hfound
  rw [← regexExecImpl_found (scratchOf_clean region) (scratchOf_short region)]
  exact hfound.2

theorem prefilter_hides_nothing_bracket :
    ∃ p ∈ (runFrom plainRegex [.addBuiltins,
        .add (ascii "wifi") (ascii "wifi [Ee]rror") (ascii "warning")]).patterns,
      p.name = ascii "wifi" ∧
        (plainRegex.exec p.compiled (scratchOf (ascii "a wifi error"))).1.isSome = true ∧
        regionHasLiteral (ascii "a wifi error") p.literal = true := by
  have hfirm : Firm (ascii "wifi [Ee]rror") := by
    constructor <;> decide +kernel
  have htidy : TidyRun plainRegex anomalyInit [.addBuiltins,
      .add (ascii "wifi") (ascii "wifi [Ee]rror") (ascii "warning")] :=
    ⟨fun p hp => absurd hp not_mem_nil, hfirm, trivial⟩
  have hfacts : ∃ p ∈ (runFrom plainRegex [.addBuiltins,
      .add (ascii "wifi") (ascii "wifi [Ee]rror") (ascii "warning")]).patterns,
      p.name = ascii "wifi" ∧
        (plainRegex.exec p.compiled (scratchOf (ascii "a wifi error"))).1.isSome = true := by
    decide +kernel
  obtain ⟨p, hp, hname, hfound⟩ := hfacts
  exact ⟨p, hp, hname, hfound, prefilter_hides_nothing _ _ _ htidy p hp _
    (.inl (by decide)) hfound⟩

/-- Two ways to lose a match: a quantifier takes the last byte of the literal back; and the
literal of a built-in pattern whose name is already there goes to another pattern. -/
theorem prefilter_hides_matches :
    (runFrom plainRegex [.add (ascii "paint") (ascii "colou?r") (ascii "warning")]).patterns.map
        (fun p => ((plainRegex.exec p.compiled (scratchOf (ascii "color"))).1.isSome,
          regionHasLiteral (ascii "color") p.literal)) = [(true, false)] ∧
      ((runFrom plainRegex [.add (ascii "oops") (ascii "Oops:") (ascii "warning"),
          .addBuiltins]).patterns[1]?).map (fun p => (p.name,
        (plainRegex.exec p.compiled (scratchOf (ascii "Kernel panic"))).1.isSome,
        regionHasLiteral (ascii "Kernel panic") p.literal)) =
          some (ascii "kernel_panic", true, false) := by
  decide +kernel

end Tables

end Smolmux.Anomaly
