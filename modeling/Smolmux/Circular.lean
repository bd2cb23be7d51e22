import Mathlib.Data.List.Basic
import Mathlib.Logic.Function.Basic
import Mathlib.Data.Nat.ModEq

/-! Circular slot stores. A store is a function from slot numbers; the live
entries are `count` consecutive slots from `head`, wrapping modulo `cap`.
`view` lists them in queue order, and each update of the store that a circular
queue performs has one equation saying what it does to the view. Slots outside
the view are unrestricted, so a stale slot never matters to a caller. -/

namespace Smolmux.Circular
open List

variable {α : Type*}

def view (slots : Nat → α) (head count cap : Nat) : List α :=
  (List.range count).map fun i => slots ((head + i) % cap)

variable (slots : Nat → α)

@[simp] theorem view_length (head count cap : Nat) :
    (view slots head count cap).length = count := by
  simp [view]

@[simp] theorem view_zero (head cap : Nat) :
    view slots head 0 cap = [] := rfl

theorem view_succ (head count cap : Nat) :
    view slots head (count + 1) cap =
      view slots head count cap ++ [slots ((head + count) % cap)] := by
  simp [view, range_succ]

theorem slot_injective {head cap i j : Nat} (hi : i < cap) (hj : j < cap)
    (h : (head + i) % cap = (head + j) % cap) : i = j := by
  have hm : i ≡ j [MOD cap] := Nat.ModEq.add_left_cancel' head h
  exact Nat.ModEq.eq_of_lt_of_lt hm hi hj

theorem view_update_outside (head count cap k : Nat) (x : α)
    (h : ∀ i < count, (head + i) % cap ≠ k) :
    view (Function.update slots k x) head count cap = view slots head count cap := by
  apply map_congr_left
  intro i hi
  rw [Function.update_of_ne (h i (mem_range.mp hi))]

theorem view_update_free (head count cap k : Nat) (x : α) (h : count ≤ k) (hk : k < cap) :
    view (Function.update slots ((head + k) % cap) x) head count cap =
      view slots head count cap := by
  apply view_update_outside
  intro i hi same
  have := slot_injective (by omega) hk same
  omega

theorem view_push (head count cap : Nat) (x : α) (h : count < cap) :
    view (Function.update slots ((head + count) % cap) x) head (count + 1) cap =
      view slots head count cap ++ [x] := by
  rw [view_succ, view_update_free slots head count cap count x le_rfl h,
    Function.update_self]

theorem view_set_last (head count cap : Nat) (x : α) (h : 0 < count) (hc : count ≤ cap) :
    view (Function.update slots ((head + count - 1) % cap) x) head count cap =
      (view slots head count cap).dropLast ++ [x] := by
  obtain ⟨n, rfl⟩ : ∃ n, count = n + 1 := ⟨count - 1, by omega⟩
  have hn : head + (n + 1) - 1 = head + n := by omega
  rw [hn, view_push slots head n cap x (by omega), view_succ, dropLast_concat]

theorem view_getLast (head count cap : Nat) (h : 0 < count) :
    view slots head count cap =
      (view slots head count cap).dropLast ++ [slots ((head + count - 1) % cap)] := by
  obtain ⟨n, rfl⟩ : ∃ n, count = n + 1 := ⟨count - 1, by omega⟩
  have hn : head + (n + 1) - 1 = head + n := by omega
  rw [view_succ, dropLast_concat, hn]

theorem view_cons (head count cap : Nat) (hh : head < cap) (h : 0 < count) :
    view slots head count cap =
      slots head :: view slots ((head + 1) % cap) (count - 1) cap := by
  obtain ⟨n, rfl⟩ : ∃ n, count = n + 1 := ⟨count - 1, by omega⟩
  simp only [view, range_succ_eq_map, map_cons, Nat.add_zero,
    Nat.mod_eq_of_lt hh, map_map, Nat.add_sub_cancel]
  congr 1
  apply map_congr_left
  intro i _
  simp only [Function.comp_apply, Nat.mod_add_mod]
  congr 2
  omega

/-- Popping the head leaves the tail of the view, whatever is written into the
slot that was given up. -/
theorem view_pop (head count cap : Nat) (x : α) (hh : head < cap) (h : 0 < count)
    (hc : count ≤ cap) :
    view (Function.update slots head x) ((head + 1) % cap) (count - 1) cap =
      (view slots head count cap).tail := by
  rw [view_cons slots head count cap hh h, tail_cons]
  apply view_update_outside
  intro i hi same
  rw [Nat.mod_add_mod, Nat.add_assoc] at same
  have base : (head + (1 + i)) % cap = (head + 0) % cap := by
    rw [same, Nat.add_zero, Nat.mod_eq_of_lt hh]
  have := slot_injective (by omega) (by omega) base
  omega

theorem view_set_head (head count cap : Nat) (x : α) (hh : head < cap) (h : 0 < count)
    (hc : count ≤ cap) :
    view (Function.update slots head x) head count cap =
      x :: (view slots head count cap).tail := by
  rw [view_cons _ head count cap hh h, Function.update_self,
    view_pop slots head count cap x hh h hc]

theorem view_compact (rest : α) (head count cap newCap : Nat) (h : count ≤ newCap) :
    view (fun i => if i < count then slots ((head + i) % cap) else rest) 0 count newCap =
      view slots head count cap := by
  apply map_congr_left
  intro i hi
  have hi := mem_range.mp hi
  rw [Nat.zero_add, Nat.mod_eq_of_lt (by omega)]
  exact if_pos hi

end Smolmux.Circular
