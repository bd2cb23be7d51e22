import Mathlib.Data.List.DropRight
import Smolmux.Ere
import Smolmux.Window
import Smolmux.Protocol

/-! The regex engine (`regex_engine.c`) over POSIX extended regular expressions. A search
reads a C string, and of a long text only the end; a pattern that once took longer than its
budget is disabled and finds nothing from then on. -/

namespace Smolmux.RegexEngine
open Protocol List

def regexMaxPatternLen : Nat := 1024

structure Compiled where
  expr : Ere
  disabled : Bool
  deriving DecidableEq

/-- `sm_regex_compile`; `accepts` is the static check for patterns that backtrack. -/
def regexCompile (accepts : Bytes → Bool) (pattern : Bytes) : Option Compiled :=
  if regexMaxPatternLen < pattern.length then none
  else if accepts pattern = false then none
  else (Ere.parse pattern).map fun expr => ⟨expr, false⟩

/-- `regex_exec_impl`: no more than the last 64 KiB are searched. -/
def regexExecImpl (expr : Ere) (text : Bytes) : Option Nat :=
  let base := text.length - 65536
  (expr.search (cString (text.drop base))).map (base + ·)

/-- Where the match ends that is found at `off`. -/
def matchEnd (expr : Ere) (text : Bytes) (off : Nat) : Nat :=
  let base := text.length - 65536
  base + expr.reach (cString (text.drop base)) (off - base)

/-- `sm_regex_exec`; `slow` says which searches take longer than the budget. -/
def regexExec (slow : Ere → Bytes → Bool) (re : Compiled) (text : Bytes) :
    Option Nat × Compiled :=
  if re.disabled then (none, re)
  else (regexExecImpl re.expr text, { re with disabled := slow re.expr text })

def posixRegex (accepts : Bytes → Bool) (slow : Ere → Bytes → Bool) : Regex Compiled :=
  ⟨regexCompile accepts, regexExec slow⟩

def plainRegex : Regex Compiled := posixRegex (fun _ => true) (fun _ _ => false)

variable {accepts : Bytes → Bool} {slow : Ere → Bytes → Bool}

theorem regexCompile_expr {pattern : Bytes} {re : Compiled}
    (h : regexCompile accepts pattern = some re) : Ere.parse pattern = some re.expr := by
  unfold regexCompile at h
  split_ifs at h
  obtain ⟨expr, hparse, rfl⟩ := Option.map_eq_some_iff.mp h
  exact hparse

theorem regexExecImpl_found {expr : Ere} {text : Bytes} (h : 0 ∉ text)
    (hshort : text.length ≤ 65536) :
    (regexExecImpl expr text).isSome = (expr.search text).isSome := by
  have hall : cString text = text := by
    rw [← append_nil text, cString_append h]
    rfl
  rw [regexExecImpl, Nat.sub_eq_zero_of_le hshort, drop_zero, Option.isSome_map, hall]

/-- Of the part that is searched, what stands before the first NUL is: a match there is
found, for a pattern that matches no NUL. -/
theorem regexExecImpl_finds {expr : Ere} (hexpr : expr.Avoids 0) {text : Bytes} {i j : Nat}
    (hi : i ≤ (text.rtake 65536).length) (hj : j ∈ expr.ends (text.rtake 65536) i)
    (hbefore : 0 ∉ (text.rtake 65536).take i) : (regexExecImpl expr text).isSome := by
  rw [regexExecImpl, Option.isSome_map]
  exact Ere.search_takeWhile (by decide) hexpr hi hj hbefore

theorem searched_append {before : Bytes} (h : 0 ∉ before) (text : Bytes) :
    ∃ kept, cString ((before ++ text).drop ((before ++ text).length - 65536)) =
      kept ++ cString (text.drop (text.length - 65536)) := by
  rw [length_append]
  rcases Nat.le_total text.length 65536 with hshort | hlong
  · refine ⟨before.drop (before.length + text.length - 65536), ?_⟩
    rw [drop_append_of_le_length (by omega), Nat.sub_eq_zero_of_le hshort, drop_zero]
    exact cString_append fun h0 => h (mem_of_mem_drop h0)
  · refine ⟨[], ?_⟩
    rw [Nat.add_sub_assoc hlong, ← drop_drop, drop_left, nil_append]

theorem regexExecImpl_append_left {expr : Ere} (h : expr.looksAhead) {before text : Bytes}
    (hbefore : 0 ∉ before) (hfound : (regexExecImpl expr text).isSome) :
    (regexExecImpl expr (before ++ text)).isSome := by
  obtain ⟨kept, hkept⟩ := searched_append hbefore text
  rw [regexExecImpl, Option.isSome_map] at hfound
  rw [regexExecImpl, Option.isSome_map, hkept]
  exact Ere.search_append_left h hfound kept

theorem regexExec_found (re : Compiled) (text : Bytes) : (regexExec slow re text).1.isSome =
    (!re.disabled && (regexExecImpl re.expr text).isSome) := by
  cases hdisabled : re.disabled <;> simp [regexExec, hdisabled]

def Shows (expr : Ere) (text : Bytes) : Prop :=
  ∃ i j, i ≤ text.length ∧ j ∈ expr.ends text i ∧ 0 ∉ text.take i

/-- What is used of an engine that reads up to the first NUL: such a match is found, for a
pattern that matches no NUL and is not disabled, and a search keeps the expression. -/
structure FindsShown (regex : Regex Compiled) : Prop where
  finds : ∀ (re : Compiled) (text : Bytes), re.disabled = false → re.expr.Avoids 0 →
    Shows re.expr (text.rtake 65536) → (regex.exec re text).1.isSome = true
  keeps : ∀ (re : Compiled) (text : Bytes), (regex.exec re text).2.expr = re.expr

theorem findsShown_posixRegex (accepts : Bytes → Bool) (slow : Ere → Bytes → Bool) :
    FindsShown (posixRegex accepts slow) where
  finds := by
    rintro re text hre hexpr ⟨i, j, hi, hj, hbefore⟩
    rw [posixRegex, regexExec_found, hre, regexExecImpl_finds hexpr hi hj hbefore]
    rfl
  keeps := by
    intro re text
    dsimp only [posixRegex, regexExec]
    split_ifs <;> rfl

theorem posixRegex_found_append {re : Compiled} (h : re.expr.looksAhead) {before : Bytes}
    (hbefore : 0 ∉ before) {text : Bytes} (hfound : ((posixRegex accepts slow).exec re text).1.isSome) :
    ((posixRegex accepts slow).exec re (before ++ text)).1.isSome := by
  rw [posixRegex, regexExec_found, Bool.and_eq_true] at hfound ⊢
  exact ⟨hfound.1, regexExecImpl_append_left h hbefore hfound.2⟩

end Smolmux.RegexEngine
