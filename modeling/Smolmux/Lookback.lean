import Mathlib.Data.List.DropRight
import Mathlib.Data.List.Infix

/-! The end of a stream that arrives in portions. A reader keeps the newest items up to a
bound and looks, at each portion, at the portion and a little of what came before. -/

namespace Smolmux.Lookback
open List

variable {α : Type}

theorem length_rtake (xs : List α) (n : Nat) : (xs.rtake n).length = min n xs.length := by
  rw [List.rtake, length_drop]
  omega

theorem rtake_suffix (xs : List α) (n : Nat) : xs.rtake n <:+ xs := drop_suffix _ xs

variable {xs : List α} {n : Nat}

theorem rtake_of_length_le (h : xs.length ≤ n) : xs.rtake n = xs := by
  rw [List.rtake, Nat.sub_eq_zero_of_le h, drop_zero]

variable {ys : List α}

theorem rtake_append (h : ys.length ≤ n) :
    (xs ++ ys).rtake n = xs.rtake (n - ys.length) ++ ys := by
  have hcount : (xs ++ ys).length - n = xs.length - (n - ys.length) := by
    rw [length_append]
    omega
  rw [List.rtake, List.rtake, hcount, drop_append_of_le_length (Nat.sub_le ..)]

theorem rtake_append_of_le (h : n ≤ ys.length) :
    (xs ++ ys).rtake n = ys.rtake n := by
  have hcount : (xs ++ ys).length - n = xs.length + (ys.length - n) := by
    rw [length_append]
    omega
  rw [List.rtake, List.rtake, hcount, ← drop_drop, drop_left]

theorem rtake_rtake_min (xs : List α) (m n : Nat) :
    (xs.rtake m).rtake n = xs.rtake (min m n) := by
  rw [List.rtake, length_rtake, List.rtake, drop_drop, List.rtake]
  congr 1
  omega

theorem rtake_rtake {m : Nat} (h : n ≤ m) : (xs.rtake m).rtake n = xs.rtake n := by
  rw [rtake_rtake_min, Nat.min_eq_right h]

theorem rtake_rtake_append (xs ys : List α) (n : Nat) :
    (xs.rtake n ++ ys).rtake n = (xs ++ ys).rtake n := by
  by_cases h : n ≤ ys.length
  · rw [rtake_append_of_le h, rtake_append_of_le h]
  · have hle : ys.length ≤ n := Nat.le_of_not_le h
    rw [rtake_append hle, rtake_append hle, rtake_rtake (Nat.sub_le ..)]

/-- A window of the newest `n` items slides over a portion that fits it: what has to go is
dropped at the front. -/
theorem slide (h : ys.length ≤ n) :
    (xs.rtake n).drop ((xs.rtake n).length + ys.length - n) ++ ys = (xs ++ ys).rtake n := by
  have hkeep : (xs.rtake n).length + ys.length - n = (xs.rtake n).length - (n - ys.length) := by
    omega
  rw [rtake_append h, hkeep, ← List.rtake, rtake_rtake (Nat.sub_le ..)]

variable {word : List α}

theorem infix_rtake {before after : List α} (h : xs = before ++ word ++ after)
    (hstart : xs.length ≤ before.length + n) : word <:+: xs.rtake n := by
  obtain ⟨k, hk⟩ : ∃ k, xs.length - n = k := ⟨_, rfl⟩
  have hle : k ≤ before.length := by omega
  refine ⟨before.drop k, after, ?_⟩
  rw [List.rtake, hk, h, append_assoc before, drop_append_of_le_length hle,
    append_assoc]

theorem infix_take {before after : List α} (h : xs = before ++ word ++ after)
    (hend : before.length + word.length ≤ n) : word <:+: xs.take n := by
  have hle : (before ++ word).length ≤ n := by rw [length_append]; exact hend
  refine ⟨before, after.take (n - (before ++ word).length), ?_⟩
  rw [h, take_append, take_of_length_le hle]

theorem infix_of_rtake (h : word <:+: xs.rtake n) : word <:+: xs :=
  h.trans (rtake_suffix xs n).isInfix

end Smolmux.Lookback
