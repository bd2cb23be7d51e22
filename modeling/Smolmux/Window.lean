import Mathlib.Data.Set.Basic
import Smolmux.Bytes
import Smolmux.Lookback

/-! What the engines that read device output share: the regular expressions they
match with, and the bounded window over the newest output that the boot tracker
and the autoresponder keep (`window_append` of `boot_stage.c` and
`autoresponder.c`, the same code twice). -/

namespace Smolmux
open List

/-- The regex engine. A match answers with its offset; matching may change the
compiled pattern, which disables itself once it has been too slow. -/
structure Regex (ρ : Type) where
  compile : Bytes → Option ρ
  exec : ρ → Bytes → Option Nat × ρ

structure Window where
  data : Bytes
  cap : Nat
  searchOffset : Nat
  deriving DecidableEq

namespace Window

def append (w : Window) (new : Bytes) : Window :=
  if w.cap = 0 then w
  else if w.cap ≤ new.length then
    { w with data := new.drop (new.length - (w.cap - 1)), searchOffset := 0 }
  else
    let need := w.data.length + new.length - (w.cap - 1)
    { w with data := w.data.drop need ++ new, searchOffset := w.searchOffset - need }

def reset (w : Window) : Window := { w with data := [], searchOffset := 0 }

def lineStart (data : Bytes) : (i : Nat) → Nat
  | 0 => 0
  | i + 1 => if data[i]? = some 10 then i + 1 else lineStart data i

end Window

variable {ρ : Type}

/-- The compiled patterns of `S` search for the words of `lang`: on a text without NUL they
answer exactly when a word occurs in it, wherever it stands. -/
structure Regex.Searches (regex : Regex ρ) (lang : Set Bytes) (S : Set ρ) : Prop where
  found_iff : ∀ c ∈ S, ∀ text : Bytes, 0 ∉ text →
    ((regex.exec c text).1.isSome = true ↔ ∃ w ∈ lang, w <:+: text)
  stays : ∀ c ∈ S, ∀ text, (regex.exec c text).2 ∈ S

def firstAt (word : Bytes) : (text : Bytes) → Option Nat
  | [] => if word = [] then some 0 else none
  | c :: text => if word.isPrefixOf (c :: text) then some 0 else (firstAt word text).map (· + 1)

theorem firstAt_isSome (word text : Bytes) :
    (firstAt word text).isSome ↔ word <:+: text := by
  induction text with
  | nil =>
    rw [firstAt, infix_nil]
    split_ifs with h <;> simp [h]
  | cons c text ih =>
    rw [firstAt, infix_cons_iff]
    split_ifs with h
    · exact iff_of_true rfl (.inl (List.isPrefixOf_iff_prefix.mp h))
    · rw [Option.isSome_map, ih]
      exact (or_iff_right fun hp => h (List.isPrefixOf_iff_prefix.mpr hp)).symm

def wordRegex : Regex Bytes := ⟨some, fun word text => (firstAt word text, word)⟩

theorem searches_wordRegex (word : Bytes) : wordRegex.Searches {word} {word} where
  found_iff := by
    rintro c rfl text -
    rw [wordRegex, firstAt_isSome]
    exact ⟨fun h => ⟨c, rfl, h⟩, fun ⟨w, hw, h⟩ => hw ▸ h⟩
  stays := fun _ hc _ => hc

namespace Window
open Lookback

/-- The window holds an end of `stream`, and all of it has been searched. -/
structure Reads (stream : Bytes) (w : Window) : Prop where
  data : w.data <:+ stream
  short : w.data.length < w.cap
  searched : w.searchOffset = w.data.length

variable {stream : Bytes} {w : Window}

theorem reads_nil (hdata : w.data = []) (hoffset : w.searchOffset = 0) (hcap : 0 < w.cap) :
    Reads [] w where
  data := hdata ▸ suffix_rfl
  short := by rwa [hdata]
  searched := by rw [hdata, hoffset]; rfl

@[simp] theorem append_cap (w : Window) (new : Bytes) : (w.append new).cap = w.cap := by
  unfold append
  split_ifs <;> rfl

theorem append_spec (hshort : w.data.length < w.cap) (hsearched : w.searchOffset = w.data.length)
    (new : Bytes) :
    (w.append new).data = (w.data ++ new).rtake (w.cap - 1) ∧
      (w.append new).searchOffset = (w.append new).data.length - new.length := by
  have hcap : w.cap ≠ 0 := by omega
  unfold append
  rw [if_neg hcap]
  split_ifs with hlong
  · -- the new output alone fills the window
    dsimp only
    refine ⟨?_, ?_⟩
    · rw [rtake_append_of_le (by omega), List.rtake]
    · rw [length_drop]
      omega
  · have hdrop : w.data.length + new.length - (w.cap - 1) =
        w.data.length - (w.cap - 1 - new.length) := by omega
    dsimp only
    refine ⟨?_, ?_⟩
    · rw [rtake_append (by omega), List.rtake, hdrop]
    · rw [length_append, Nat.add_sub_cancel, length_drop, hsearched]

theorem Reads.append (h : Reads stream w) (new : Bytes) :
    (w.append new).data <:+ stream ++ new ∧ (w.append new).data.length < w.cap := by
  obtain ⟨hdata, -⟩ := append_spec h.short h.searched new
  rw [hdata]
  refine ⟨?_, ?_⟩
  · refine (rtake_suffix _ _).trans ?_
    obtain ⟨before, hbefore⟩ := h.data
    exact ⟨before, by rw [← append_assoc, hbefore]⟩
  · have hshort := h.short
    rw [length_rtake]
    omega

theorem lt_lineStart {data : Bytes} {x i : Nat} (hx : data[x]? = some 10) (hi : x < i) :
    x < lineStart data i := by
  induction i with
  | zero => exact absurd hi (Nat.not_lt_zero x)
  | succ i ih =>
    rw [lineStart]
    split_ifs with hnewline
    · exact hi
    · refine ih (Nat.lt_of_le_of_ne (Nat.le_of_lt_succ hi) ?_)
      rintro rfl
      exact hnewline hx

/-- What is searched from the start of the line that was not complete stands behind every
newline of the stream before. -/
theorem Reads.searched_behind (h : Reads stream w) (new : Bytes) {x : Nat}
    (hx : stream[x]? = some 10) :
    (w.append new).data.drop (lineStart (w.append new).data (w.append new).searchOffset) <:+
      (stream ++ new).drop (x + 1) := by
  have hoffset := (append_spec h.short h.searched new).2
  obtain ⟨hdata, -⟩ := h.append new
  obtain ⟨data, heq⟩ : ∃ data, (w.append new).data = data := ⟨_, rfl⟩
  rw [heq] at hoffset hdata ⊢
  rw [hoffset]
  obtain ⟨before, hbefore⟩ := hdata
  have hlength := congrArg List.length hbefore
  rw [length_append, length_append] at hlength
  have hlt : x < stream.length := (List.getElem?_eq_some_iff.mp hx).1
  obtain ⟨start, hstart⟩ : ∃ start, lineStart data (data.length - new.length) = start := ⟨_, rfl⟩
  have hbehind : x + 1 ≤ before.length + start := by
    by_cases hold : x < before.length
    · omega
    · have hget : data[x - before.length]? = some 10 := by
        have hnew : (stream ++ new)[x]? = some 10 := by rw [getElem?_append_left hlt, hx]
        rwa [← hbefore, getElem?_append_right (by omega)] at hnew
      have hline := lt_lineStart hget (i := data.length - new.length) (by omega)
      omega
  rw [hstart, ← hbefore]
  have hdrop : data.drop start = (before ++ data).drop (before.length + start) := by
    rw [← drop_drop, drop_left]
  rw [hdrop]
  obtain ⟨more, hmore⟩ := Nat.exists_eq_add_of_le hbehind
  rw [hmore, ← drop_drop]
  exact drop_suffix _ _

end Window

end Smolmux
