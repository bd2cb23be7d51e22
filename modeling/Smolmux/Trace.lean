import Mathlib.Data.List.Basic

/-! Traces: lists of events that only grow. A run adds events of some kind, and a
property of each event and of what came before it, or of what came after it, is kept when
the new events have it. -/

namespace Smolmux
open List

variable {α : Type*}

def Grows (P : α → Prop) (old new : List α) : Prop :=
  ∃ evs, new = old ++ evs ∧ ∀ ev ∈ evs, P ev

/-- Every event has the property together with the events before it. -/
def EachAfter (P : List α → α → Prop) (t : List α) : Prop :=
  ∀ pre ev post, t = pre ++ ev :: post → P pre ev

theorem split_append {t u pre post : List α} {ev : α} (h : t ++ u = pre ++ ev :: post) :
    (∃ mid, t = pre ++ ev :: mid ∧ post = mid ++ u) ∨
      ∃ mid, pre = t ++ mid ∧ u = mid ++ ev :: post := by
  cases append_eq_append_iff.mp h with
  | inl hpre => exact .inr hpre
  | inr hpost =>
    obtain ⟨mid, rfl, hmid⟩ := hpost
    cases mid with
    | nil => exact .inr ⟨[], by rw [append_nil, append_nil], hmid.symm⟩
    | cons x mid =>
      obtain ⟨rfl, rfl⟩ := List.cons.inj hmid
      exact .inl ⟨mid, rfl, rfl⟩

namespace Grows

variable {P Q : α → Prop} {t u v : List α}

theorem refl (P : α → Prop) (t : List α) : Grows P t t := ⟨[], by simp, by simp⟩

theorem trans (h₁ : Grows P t u) (h₂ : Grows P u v) : Grows P t v := by
  obtain ⟨xs, rfl, hxs⟩ := h₁
  obtain ⟨ys, rfl, hys⟩ := h₂
  refine ⟨xs ++ ys, append_assoc .., fun ev hev => ?_⟩
  cases mem_append.mp hev with
  | inl h => exact hxs ev h
  | inr h => exact hys ev h

theorem single {ev : α} (h : P ev) (t : List α) : Grows P t (t ++ [ev]) :=
  ⟨[ev], rfl, by simpa using h⟩

theorem mono (hPQ : ∀ ev, P ev → Q ev) (h : Grows P t u) : Grows Q t u := by
  obtain ⟨evs, rfl, hevs⟩ := h
  exact ⟨evs, rfl, fun ev hev => hPQ ev (hevs ev hev)⟩

theorem subset (h : Grows P t u) : t ⊆ u := by
  obtain ⟨evs, rfl, -⟩ := h
  exact subset_append_left t evs

theorem mem_or (h : Grows P t u) {ev : α} (hev : ev ∈ u) : ev ∈ t ∨ P ev := by
  obtain ⟨evs, rfl, hevs⟩ := h
  exact (mem_append.mp hev).imp_right (hevs ev)

end Grows

namespace EachAfter

variable {P : List α → α → Prop} {t u : List α}

theorem nil (P : List α → α → Prop) : EachAfter P [] := fun pre ev post h => by simp at h

theorem single {ev : α} (h : P [] ev) : EachAfter P [ev] := by
  intro pre x post heq
  cases pre with
  | nil =>
    obtain ⟨rfl, -⟩ := List.cons.inj heq
    exact h
  | cons y pre => simp at heq

theorem mono {Q : List α → α → Prop} (hPQ : ∀ pre ev, P pre ev → Q pre ev) (h : EachAfter P t) :
    EachAfter Q t := fun pre ev post heq => hPQ pre ev (h pre ev post heq)

theorem append (h : EachAfter P t) (hu : EachAfter (fun pre ev => P (t ++ pre) ev) u) :
    EachAfter P (t ++ u) := by
  intro pre ev post heq
  obtain ⟨mid, hold, -⟩ | ⟨mid, rfl, hnew⟩ := split_append heq
  · exact h pre ev mid hold
  · exact hu mid ev post hnew

theorem of_filter {Q : α → Prop} {a : α} {p : α → Bool} (hQ : ∀ ev, Q ev → p ev)
    (h : EachAfter (fun pre ev => Q ev → a ∈ pre) (t.filter p)) :
    EachAfter (fun pre ev => Q ev → a ∈ pre) t := by
  rintro pre ev post rfl hev
  have hsplit : (pre ++ ev :: post).filter p = pre.filter p ++ ev :: post.filter p := by
    rw [filter_append, filter_cons_of_pos (hQ ev hev)]
  exact mem_of_mem_filter (h _ _ _ hsplit hev)

/-- New events that have the property after the old trace have it where they
stand, when more events before them do no harm. -/
theorem grow (hmono : ∀ pre more ev, P pre ev → P (pre ++ more) ev) (h : EachAfter P t)
    (hu : Grows (P t) t u) : EachAfter P u := by
  obtain ⟨evs, rfl, hevs⟩ := hu
  intro pre ev post heq
  obtain ⟨mid, hold, -⟩ | ⟨mid, rfl, hnew⟩ := split_append heq
  · exact h pre ev mid hold
  · exact hmono t mid ev (hevs ev (by rw [hnew]; simp))

end EachAfter

end Smolmux
