import Mathlib.Data.List.Basic
import Mathlib.Data.List.Flatten

/-! Nonempty segments that tile an interval of a stream. A segment has a start
position and its elements; `Tiles a xs b` says that the segments of `xs` follow
each other from position `a` to position `b` without gap or overlap. -/

namespace Smolmux.Tiling
open List

variable {σ β : Type*} (start : σ → Nat) (elems : σ → List β)

def Tiles : Nat → List σ → Nat → Prop
  | a, [], b => a = b
  | a, x :: xs, b => start x = a ∧ 0 < (elems x).length ∧ Tiles (a + (elems x).length) xs b

variable {start elems}

variable {a b : Nat} {xs : List σ}

theorem tiles_append {ys : List σ} :
    Tiles start elems a (xs ++ ys) b ↔
      ∃ m, Tiles start elems a xs m ∧ Tiles start elems m ys b := by
  induction xs generalizing a with
  | nil => simp [Tiles]
  | cons x xs ih => simp [Tiles, ih, and_assoc]

variable {x : σ}

theorem tiles_snoc :
    Tiles start elems a (xs ++ [x]) b ↔
      Tiles start elems a xs (start x) ∧ 0 < (elems x).length ∧
        start x + (elems x).length = b := by
  rw [tiles_append]
  constructor
  · rintro ⟨m, hxs, rfl, hpos, hend⟩
    exact ⟨hxs, hpos, hend⟩
  · rintro ⟨hxs, hpos, hend⟩
    exact ⟨start x, hxs, rfl, hpos, hend⟩

theorem tiles_end (h : Tiles start elems a xs b) :
    b = a + (xs.flatMap elems).length := by
  induction xs generalizing a with
  | nil => simpa [Tiles, eq_comm] using h
  | cons x xs ih =>
    have hrest := ih h.2.2
    simp only [flatMap_cons, length_append]
    omega

theorem tiles_positive (h : Tiles start elems a xs b) (hx : x ∈ xs) : 0 < (elems x).length := by
  induction xs generalizing a with
  | nil => simp at hx
  | cons y ys ih =>
    rcases mem_cons.mp hx with rfl | hx
    · exact h.2.1
    · exact ih h.2.2 hx

theorem tiles_adjacent (h : Tiles start elems a xs b) (i : Nat) (hi : i + 1 < xs.length) :
    start xs[i] + (elems xs[i]).length = start xs[i + 1] := by
  induction xs generalizing a i with
  | nil => simp at hi
  | cons x xs ih =>
    cases i with
    | zero =>
      cases xs with
      | nil => simp at hi
      | cons y ys =>
        have hy := h.2.2.1
        have hx := h.1
        simp only [getElem_cons_zero, getElem_cons_succ]
        omega
    | succ i => exact ih h.2.2 i (by simpa using hi)

theorem tiles_last (h : Tiles start elems a xs b) (hx : xs.getLast? = some x) : start x + (elems x).length = b := by
  obtain ⟨ys, rfl⟩ := getLast?_eq_some_iff.mp hx
  exact (tiles_snoc.mp h).2.2

/-- A tiling whose elements are the rest of a stream stores at each position the
element the stream has there. -/
theorem tiles_getElem {stream : List β} (h : Tiles start elems a xs b)
    (hs : xs.flatMap elems <+: stream.drop a) (hx : x ∈ xs) {j : Nat} (hj : j < (elems x).length) :
    stream[start x + j]? = some (elems x)[j] := by
  induction xs generalizing a with
  | nil => simp at hx
  | cons y ys ih =>
    obtain ⟨rest, hrest⟩ := hs
    rw [flatMap_cons, append_assoc] at hrest
    rcases mem_cons.mp hx with rfl | hx
    · rw [h.1, ← getElem?_drop, ← hrest, getElem?_append_left hj,
        getElem?_eq_getElem hj]
    · refine ih h.2.2 ⟨rest, ?_⟩ hx
      rw [← drop_drop, ← hrest, drop_left]

end Smolmux.Tiling
