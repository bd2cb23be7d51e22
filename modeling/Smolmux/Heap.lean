import Mathlib.Data.List.Nodup
import Mathlib.Data.List.Perm.Subperm

/-! Blocks of memory that are asked for and given back. Which requests are granted is decided
outside; a block that is not in use can be neither given back nor resized. -/

namespace Smolmux
open List

structure Heap where
  live : List Nat
  next : Nat
  asked : Nat
  deriving DecidableEq

namespace Heap

def ask (mem : Nat → Bool) (h : Heap) : Bool × Heap :=
  (mem h.asked, { h with asked := h.asked + 1 })

def alloc (mem : Nat → Bool) (h : Heap) : Option Nat × Heap :=
  if mem h.asked then
    (some h.next, { live := h.next :: h.live, next := h.next + 1, asked := h.asked + 1 })
  else (none, { h with asked := h.asked + 1 })

def free (h : Heap) (p : Nat) : Option Heap :=
  if p ∈ h.live then some { h with live := h.live.erase p } else none

/-- A block that cannot be resized stays as it is. -/
def realloc (mem : Nat → Bool) (h : Heap) (p : Nat) : Option (Option Nat × Heap) :=
  if p ∈ h.live then
    if mem h.asked then
      some (some h.next,
        { live := h.next :: h.live.erase p, next := h.next + 1, asked := h.asked + 1 })
    else some (none, { h with asked := h.asked + 1 })
  else none

/-- The blocks in use are those of `owned`, each once. -/
structure Holds (owned : List Nat) (h : Heap) : Prop where
  perm : owned.Perm h.live
  nodup : owned.Nodup
  below : ∀ p ∈ owned, p < h.next

variable (mem : Nat → Bool) {owned owned' : List Nat} {h : Heap} {p : Nat}

namespace Holds

theorem empty : Holds [] ⟨[], 0, 0⟩ := ⟨.nil, nodup_nil, by simp⟩

theorem reorder (hh : Holds owned h) (hperm : owned'.Perm owned) : Holds owned' h where
  perm := hperm.trans hh.perm
  nodup := hperm.nodup_iff.mpr hh.nodup
  below q hq := hh.below q (hperm.mem_iff.mp hq)

theorem ask (hh : Holds owned h) : Holds owned (Heap.ask mem h).2 := ⟨hh.perm, hh.nodup, hh.below⟩

theorem fresh (hh : Holds owned h) : h.next ∉ owned := fun hmem =>
  Nat.lt_irrefl _ (hh.below _ hmem)

theorem cons_next (hh : Holds owned h) {live : List Nat} (hlive : owned.Perm live) (asked : Nat) :
    Holds (h.next :: owned) ⟨h.next :: live, h.next + 1, asked⟩ where
  perm := hlive.cons _
  nodup := nodup_cons.mpr ⟨hh.fresh, hh.nodup⟩
  below q hq := by
    rcases mem_cons.mp hq with rfl | hq
    · exact Nat.lt_succ_self _
    · exact Nat.lt_succ_of_lt (hh.below q hq)

theorem alloc (hh : Holds owned h) :
    (∃ p h', Heap.alloc mem h = (some p, h') ∧ Holds (p :: owned) h') ∨
      ∃ h', Heap.alloc mem h = (none, h') ∧ Holds owned h' := by
  unfold Heap.alloc
  split_ifs
  · exact .inl ⟨_, _, rfl, hh.cons_next hh.perm _⟩
  · exact .inr ⟨_, rfl, hh.perm, hh.nodup, hh.below⟩

theorem erase (hh : Holds (p :: owned) h) : p ∈ h.live ∧ owned.Perm (h.live.erase p) := by
  have hmem : p ∈ h.live := hh.perm.mem_iff.mp mem_cons_self
  have herase := hh.perm.erase p
  rw [erase_cons_head] at herase
  exact ⟨hmem, herase⟩

theorem tail (hh : Holds (p :: owned) h) : owned.Nodup ∧ ∀ q ∈ owned, q < h.next :=
  ⟨(nodup_cons.mp hh.nodup).2, fun q hq => hh.below q (mem_cons_of_mem _ hq)⟩

theorem free (hh : Holds (p :: owned) h) : ∃ h', Heap.free h p = some h' ∧ Holds owned h' := by
  obtain ⟨hmem, hperm⟩ := hh.erase
  exact ⟨_, if_pos hmem, hperm, hh.tail.1, hh.tail.2⟩

theorem realloc (hh : Holds (p :: owned) h) :
    (∃ q h', Heap.realloc mem h p = some (some q, h') ∧ Holds (q :: owned) h') ∨
      ∃ h', Heap.realloc mem h p = some (none, h') ∧ Holds (p :: owned) h' := by
  obtain ⟨hmem, hperm⟩ := hh.erase
  unfold Heap.realloc
  rw [if_pos hmem]
  split_ifs
  · have hrest : Holds owned { h with live := h.live.erase p } := ⟨hperm, hh.tail.1, hh.tail.2⟩
    exact .inl ⟨_, _, rfl, hrest.cons_next hperm _⟩
  · exact .inr ⟨_, rfl, hh.perm, hh.nodup, hh.below⟩

end Holds

end Heap

end Smolmux
