import Mathlib.Data.List.Induction
import Mathlib.Data.List.Perm.Subperm

/-! Removal from an unordered array: the last element takes the place of the
removed one. Up to order this is plain removal, and a sweep over the array that
removes by swapping is a filter. -/

namespace Smolmux
open List

variable {α : Type*}

def swapRemove (xs : List α) (i : Nat) : List α :=
  match xs.getLast? with
  | none => []
  | some last => (xs.set i last).dropLast

/-- The loop over the elements from index `i` on, `left` of them; a removed
element's place is looked at again. -/
def sweepFrom (gone : α → Bool) : (left i : Nat) → List α → List α
  | 0, _, xs => xs
  | left + 1, i, xs =>
    match xs[i]? with
    | none => xs
    | some x =>
      if gone x then sweepFrom gone left i (swapRemove xs i)
      else sweepFrom gone left (i + 1) xs

def sweep (gone : α → Bool) (xs : List α) : List α := sweepFrom gone xs.length 0 xs

@[simp] theorem swapRemove_concat (xs : List α) (x : α) (i : Nat) :
    swapRemove (xs ++ [x]) i = if i < xs.length then xs.set i x else xs := by
  unfold swapRemove
  rw [getLast?_concat]
  dsimp only
  split_ifs with h
  · rw [set_append_left _ _ h, dropLast_concat]
  · obtain h | h := Nat.eq_or_lt_of_le (Nat.le_of_not_lt h)
    · simp [← h]
    · rw [set_eq_of_length_le (by simp; omega), dropLast_concat]

theorem length_swapRemove (xs : List α) (i : Nat) :
    (swapRemove xs i).length = xs.length - 1 := by
  cases xs using List.reverseRecOn with
  | nil => rfl
  | append_singleton xs x =>
    rw [swapRemove_concat]
    split_ifs <;> simp

theorem map_swapRemove {β : Type*} (f : α → β) (xs : List α) (i : Nat) :
    (swapRemove xs i).map f = swapRemove (xs.map f) i := by
  cases xs using List.reverseRecOn with
  | nil => rfl
  | append_singleton xs x =>
    rw [map_append, map_singleton, swapRemove_concat, swapRemove_concat, length_map]
    split_ifs
    · exact map_set
    · rfl

variable {xs : List α} {i : Nat}

theorem swapRemove_perm (h : i < xs.length) :
    (swapRemove xs i).Perm (xs.eraseIdx i) := by
  cases xs using List.reverseRecOn with
  | nil => simp at h
  | append_singleton xs x =>
    rw [swapRemove_concat]
    split_ifs with hi
    · rw [eraseIdx_append_of_lt_length hi]
      exact (set_perm_cons_eraseIdx hi x).trans (perm_append_singleton _ _).symm
    · have : i = xs.length := by simp at h; omega
      rw [this, eraseIdx_append_of_length_le (Nat.le_refl _)]
      simp

theorem take_swapRemove (h : i < xs.length) :
    (swapRemove xs i).take i = xs.take i := by
  cases xs using List.reverseRecOn with
  | nil => simp at h
  | append_singleton ys y =>
    rw [swapRemove_concat]
    split_ifs with hlt
    · rw [take_set_of_le (Nat.le_refl i), take_append_of_le_length (by omega)]
    · rw [take_append_of_le_length (by simp at h; omega)]

theorem drop_swapRemove_perm (h : i < xs.length) :
    ((swapRemove xs i).drop i).Perm (xs.drop (i + 1)) := by
  have hperm := swapRemove_perm h
  rw [eraseIdx_eq_take_drop_succ, ← take_append_drop i (swapRemove xs i),
    take_swapRemove h] at hperm
  exact (perm_append_left_iff _).mp hperm

variable (gone : α → Bool)

theorem sweepFrom_perm (left i : Nat) (xs : List α) (h : left = xs.length - i) :
    (sweepFrom gone left i xs).Perm (xs.take i ++ (xs.drop i).filter (!gone ·)) := by
  induction left generalizing i xs with
  | zero =>
    rw [sweepFrom, take_of_length_le (by omega), drop_eq_nil_of_le (by omega)]
    simp
  | succ left ih =>
    have hi : i < xs.length := by omega
    rw [sweepFrom, getElem?_eq_getElem hi]
    have hdrop : xs.drop i = xs[i] :: xs.drop (i + 1) := drop_eq_getElem_cons hi
    dsimp only
    split_ifs with hx
    · have hlen := length_swapRemove xs i
      refine (ih i _ (by omega)).trans ?_
      rw [hdrop, filter_cons_of_neg (by simp [hx]), take_swapRemove hi]
      exact ((drop_swapRemove_perm hi).filter _).append_left _
    · refine (ih (i + 1) xs (by omega)).trans ?_
      rw [hdrop, filter_cons_of_pos (by simp [hx]), take_succ_eq_append_getElem hi,
        append_assoc, singleton_append]

theorem sweep_perm (xs : List α) :
    (sweep gone xs).Perm (xs.filter (!gone ·)) := by
  simpa [sweep] using sweepFrom_perm gone xs.length 0 xs rfl

theorem sweep_subperm (xs : List α) : (sweep gone xs).Subperm xs :=
  (sweep_perm gone xs).subperm.trans filter_sublist.subperm

theorem mem_sweep {gone : α → Bool} {x : α} :
    x ∈ sweep gone xs ↔ x ∈ xs ∧ gone x = false := by
  rw [(sweep_perm gone xs).mem_iff]
  simp

end Smolmux
