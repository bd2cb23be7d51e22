import Mathlib.Algebra.Group.Nat.Defs
import Mathlib.Data.List.Infix

/-! Byte strings. Device data and C strings are lists of bytes; a C string holds
no NUL, so its list ends where `strlen` stops. -/

namespace Smolmux
open List

abbrev Bytes := List UInt8

/-- The bytes of an ASCII literal of the source. -/
def ascii (s : String) : Bytes := s.toList.map fun c => UInt8.ofNat c.toNat

/-- `snprintf(dst, size, "%s", s)`: at most `size - 1` bytes are stored. -/
def stored (size : Nat) (s : Bytes) : Bytes := s.take (size - 1)

theorem stored_fits {size : Nat} {text : Bytes} (h : text.length < size) :
    stored size text = text :=
  take_of_length_le (by omega)

theorem stored_stored (size : Nat) (s : Bytes) : stored size (stored size s) = stored size s := by
  rw [stored, stored, take_take, Nat.min_self]

def isDigit (c : UInt8) : Bool := decide (48 ≤ c) && decide (c ≤ 57)

def isBlank (c : UInt8) : Bool := c == 32 || c == 9

def decimal (n : Nat) : Bytes := (Nat.toDigits 10 n).map fun c => UInt8.ofNat c.toNat

theorem decimal_digits (n : Nat) : ∀ c ∈ decimal n, isDigit c := by
  intro c hc
  obtain ⟨digit, hdigit, rfl⟩ := mem_map.mp hc
  have hd : digit.isDigit :=
    Nat.isDigit_of_mem_toDigits (by decide) (by decide) hdigit
  simp only [Char.isDigit, Bool.and_eq_true, decide_eq_true_eq, UInt32.le_iff_toNat_le] at hd
  have hlow : 48 ≤ digit.toNat := hd.1
  have hhigh : digit.toNat ≤ 57 := hd.2
  simp only [isDigit, Bool.and_eq_true, decide_eq_true_eq, UInt8.le_iff_toNat_le,
    UInt8.toNat_ofNat']
  constructor
  · change 48 ≤ _
    omega
  · change _ ≤ 57
    omega

theorem decimal_chars (n : Nat) :
    (decimal n).map (fun c => Char.ofNat c.toNat) = Nat.toDigits 10 n := by
  rw [decimal, map_map]
  refine (map_congr_left fun digit hdigit => ?_).trans (map_id _)
  have hd : digit.isDigit :=
    Nat.isDigit_of_mem_toDigits (by decide) (by decide) hdigit
  simp only [Char.isDigit, Bool.and_eq_true, decide_eq_true_eq, UInt32.le_iff_toNat_le] at hd
  have hhigh : digit.toNat ≤ 57 := hd.2
  simp only [Function.comp_apply, UInt8.toNat_ofNat', id_eq]
  rw [Nat.mod_eq_of_lt (by omega), Char.ofNat_toNat]

theorem decimal_injective : Function.Injective decimal := by
  intro m n h
  have hdigits := congrArg (List.map fun c : UInt8 => Char.ofNat c.toNat) h
  rw [decimal_chars, decimal_chars] at hdigits
  have hvalue := congrArg (Nat.ofDigitChars 10 · 0) hdigits
  simpa only [Nat.ofDigitChars_toDigits (by decide : 1 < 10) (Nat.le_refl 10)] using hvalue

theorem length_decimal_le {n k : Nat} (hk : 0 < k) (h : n < 10 ^ k) : (decimal n).length ≤ k := by
  rw [decimal, length_map]
  exact (Nat.length_toDigits_le_iff (by decide) hk).mpr h

theorem decimal_ne_nil (n : Nat) : decimal n ≠ [] := by
  simp [decimal]

end Smolmux
