import Mathlib.Data.List.Basic
import Mathlib.Data.List.DropRight
import Mathlib.Tactic.Common

/-! Streams of items that end in a separator. A frame is what stands between two
separators; `item` says which frames carry an item. `items` reads a whole stream,
`takeItems` stops after a given number of items and hands the rest back, so that
a reader with a buffer can go on from there. -/

namespace Smolmux.Framing
open List

section Definitions
variable {α β : Type*} [DecidableEq α] (sep : α) (item : List α → Option β)

def itemsFrom : (acc : List α) → List α → List β
  | _, [] => []
  | acc, c :: cs =>
    if c = sep then (item acc).toList ++ itemsFrom [] cs else itemsFrom (acc ++ [c]) cs

def items (xs : List α) : List β := itemsFrom sep item [] xs

/-- At most `max` items, and the stream behind the frame of the last one. -/
def takeItems : (max : Nat) → (acc : List α) → List α → List β × List α
  | 0, acc, rest => ([], acc ++ rest)
  | _ + 1, acc, [] => ([], acc)
  | max + 1, acc, c :: cs =>
    if c = sep then
      match item acc with
      | some b =>
        let r := takeItems max [] cs
        (b :: r.1, r.2)
      | none => takeItems (max + 1) [] cs
    else takeItems (max + 1) (acc ++ [c]) cs

variable (stop : List α → Bool)

/-- The frames up to the first one that stops the scan, whether there is one, and the
stream behind them. -/
def scanUntil : (acc : List α) → List α → List (List α) × Bool × List α
  | acc, [] => ([], false, acc)
  | acc, c :: cs =>
    if c = sep then
      if stop acc then ([acc], true, cs)
      else
        let r := scanUntil [] cs
        (acc :: r.1, r.2)
    else scanUntil (acc ++ [c]) cs

/-- The complete frames and the unfinished one, for a reader that drops the start of a
frame when it has `limit` elements and is still unfinished. -/
def limited (limit : Nat) : (acc : List α) → List α → List (List α) × List α
  | acc, [] => ([], acc)
  | acc, c :: cs =>
    let start := if limit ≤ acc.length then [] else acc
    if c = sep then
      let r := limited limit [] cs
      (start :: r.1, r.2)
    else limited limit (start ++ [c]) cs

def settled (limit : Nat) (acc : List α) : List α := if limit ≤ acc.length then [] else acc

end Definitions

variable {α β : Type*}

def Whole (sep : α) (xs : List α) : Prop := xs = [] ∨ xs.getLast? = some sep

def framed (sep : α) (frames : List (List α)) : List α := frames.flatMap (· ++ [sep])

theorem framed_cons (sep : α) (f : List α) (fs : List (List α)) (rest : List α) :
    framed sep (f :: fs) ++ rest = f ++ sep :: (framed sep fs ++ rest) := by
  simp [framed]

theorem length_lt_framed (sep : α) {f : List α} {frames : List (List α)} (h : f ∈ frames) :
    f.length < (framed sep frames).length := by
  have hsub := (sublist_flatten_of_mem (mem_map_of_mem (f := (· ++ [sep])) h)).length_le
  rw [length_append] at hsub
  exact hsub

variable {xs : List α}

section Whole
variable {sep : α}

theorem whole_concat (xs : List α) : Whole sep (xs ++ [sep]) := by
  simp [Whole]

theorem Whole.append {ys : List α} (hx : Whole sep xs) (hy : Whole sep ys) :
    Whole sep (xs ++ ys) := by
  rcases hy with rfl | hy
  · simpa using hx
  · right
    rw [getLast?_append, hy]
    rfl

theorem piece_length_le {frames : List (List α)} {bound : Nat}
    (hframes : ∀ f ∈ frames, f.length ≤ bound) {before piece after : List α}
    (h : framed sep frames = before ++ (piece ++ after)) (hpiece : sep ∉ piece) :
    piece.length ≤ bound := by
  induction frames generalizing before with
  | nil =>
    have hnil : piece = [] := by
      have := (append_eq_nil_iff.mp h.symm).2
      exact (append_eq_nil_iff.mp this).1
    simp [hnil]
  | cons f fs ih =>
    have hf := hframes f (mem_cons_self ..)
    simp only [framed, flatMap_cons] at h ih
    by_cases hin : f.length < before.length
    · obtain ⟨more, rfl⟩ : ∃ more, before = (f ++ [sep]) ++ more := by
        obtain ⟨t, ht⟩ := prefix_of_prefix_length_le ⟨_, h⟩ ⟨_, rfl⟩ (by simp; omega)
        exact ⟨t, ht.symm⟩
      exact ih (fun g hg => hframes g (mem_cons_of_mem _ hg)) (by simpa using h)
    · -- the separator of this frame stands at its end, outside the piece
      by_contra hlong
      have hsep : ((f ++ [sep]) ++ fs.flatMap (· ++ [sep]))[f.length]? = some sep := by simp
      rw [h, getElem?_append_right (by omega), getElem?_append_left (by omega)] at hsep
      exact hpiece (mem_of_getElem? hsep)

end Whole

variable {acc : List α}

section Items
variable [DecidableEq α] {sep : α} {item : List α → Option β}

theorem itemsFrom_of_not_mem (h : sep ∉ xs) :
    itemsFrom sep item acc xs = [] := by
  induction xs generalizing acc with
  | nil => rfl
  | cons c cs ih =>
    have hc : c ≠ sep := fun heq => h (heq ▸ mem_cons_self ..)
    rw [itemsFrom, if_neg hc]
    exact ih fun hmem => h (mem_cons_of_mem _ hmem)

theorem items_of_not_mem (h : sep ∉ xs) : items sep item xs = [] :=
  itemsFrom_of_not_mem h

theorem itemsFrom_mono (acc xs ys : List α) :
    itemsFrom sep item acc xs <+: itemsFrom sep item acc (xs ++ ys) := by
  induction xs generalizing acc with
  | nil => exact nil_prefix
  | cons c cs ih =>
    simp only [cons_append, itemsFrom]
    split
    · exact (prefix_append_right_inj _).mpr (ih [])
    · exact ih (acc ++ [c])

theorem items_mono {ys : List α} (h : xs <+: ys) : items sep item xs <+: items sep item ys := by
  obtain ⟨zs, rfl⟩ := h
  exact itemsFrom_mono [] xs zs

theorem itemsFrom_concat_append (acc xs ys : List α) :
    itemsFrom sep item acc (xs ++ [sep] ++ ys) =
      itemsFrom sep item acc (xs ++ [sep]) ++ items sep item ys := by
  induction xs generalizing acc with
  | nil => simp [itemsFrom, items]
  | cons c cs ih =>
    by_cases hc : c = sep
    · simp only [cons_append, itemsFrom, hc, if_true, append_assoc] at ih ⊢
      rw [ih]
    · simp only [cons_append, itemsFrom, hc, if_false]
      exact ih (acc ++ [c])

theorem items_append (h : Whole sep xs) (ys : List α) :
    items sep item (xs ++ ys) = items sep item xs ++ items sep item ys := by
  rcases h with rfl | h
  · rfl
  · obtain ⟨init, rfl⟩ := getLast?_eq_some_iff.mp h
    exact itemsFrom_concat_append [] init ys

theorem itemsFrom_frame (acc : List α) (h : sep ∉ xs) :
    itemsFrom sep item acc (xs ++ [sep]) = (item (acc ++ xs)).toList := by
  induction xs generalizing acc with
  | nil => simp [itemsFrom]
  | cons c cs ih =>
    have hc : c ≠ sep := fun heq => h (heq ▸ mem_cons_self ..)
    rw [cons_append, itemsFrom, if_neg hc, ih _ fun hm => h (mem_cons_of_mem _ hm)]
    simp

theorem length_itemsFrom_le (acc xs : List α) :
    (itemsFrom sep item acc xs).length ≤ xs.count sep := by
  induction xs generalizing acc with
  | nil => exact Nat.zero_le _
  | cons c cs ih =>
    rw [itemsFrom]
    split_ifs with hc
    · have hone : (item acc).toList.length ≤ 1 := by cases item acc <;> simp
      have := ih []
      rw [hc, count_cons_self, length_append]
      omega
    · rw [count_cons_of_ne hc]
      exact ih _

variable (sep item) in
/-- What a bounded read takes: complete frames with at most `max` items, and if
it found fewer there is no complete frame left. -/
theorem takeItems_spec (max : Nat) (acc xs : List α) (hacc : sep ∉ acc) :
    ∃ taken, acc ++ xs = taken ++ (takeItems sep item max acc xs).2 ∧ Whole sep taken ∧
      items sep item taken = (takeItems sep item max acc xs).1 ∧
      (takeItems sep item max acc xs).1.length ≤ max ∧
      ((takeItems sep item max acc xs).1.length < max →
        sep ∉ (takeItems sep item max acc xs).2) := by
  induction xs generalizing max acc with
  | nil =>
    cases max with
    | zero => exact ⟨[], rfl, .inl rfl, rfl, Nat.le_refl 0, by simp [takeItems]⟩
    | succ max => exact ⟨[], by simp [takeItems], .inl rfl, rfl, by simp [takeItems],
        fun _ => by simpa [takeItems] using hacc⟩
  | cons c cs ih =>
    cases max with
    | zero => exact ⟨[], rfl, .inl rfl, rfl, Nat.le_refl 0, by simp [takeItems]⟩
    | succ max =>
      by_cases hc : c = sep
      · have hframe : ∀ taken, items sep item ((acc ++ [sep]) ++ taken) =
            (item acc).toList ++ items sep item taken := by
          intro taken
          rw [items_append (whole_concat acc)]
          congr 1
          simpa [items] using itemsFrom_frame [] hacc
        cases hitem : item acc with
        | none =>
          obtain ⟨taken, heq, hwhole, hitems, hle, hrest⟩ := ih (max + 1) [] (by simp)
          rw [takeItems, if_pos hc, hitem]
          refine ⟨(acc ++ [sep]) ++ taken, ?_, (whole_concat acc).append hwhole, ?_, hle, hrest⟩
          · rw [append_assoc, ← heq, hc]
            simp
          · rw [hframe, hitem, hitems]
            rfl
        | some b =>
          obtain ⟨taken, heq, hwhole, hitems, hle, hrest⟩ := ih max [] (by simp)
          rw [takeItems, if_pos hc, hitem]
          refine ⟨(acc ++ [sep]) ++ taken, ?_, (whole_concat acc).append hwhole, ?_, ?_, ?_⟩
          · simp only [append_assoc, ← heq, hc]
            simp
          · rw [hframe, hitem, hitems]
            rfl
          · simpa using hle
          · simpa using hrest
      · obtain ⟨taken, heq, hwhole, hitems, hle, hrest⟩ := ih (max + 1) (acc ++ [c])
          (by simpa [hacc] using Ne.symm hc)
        rw [takeItems, if_neg hc]
        exact ⟨taken, by rw [← heq]; simp, hwhole, hitems, hle, hrest⟩

end Items

section Scan
variable [DecidableEq α] {sep : α} {stop : List α → Bool}

/-- What a scan takes are complete frames; it stops at the first one it is to stop at, and
otherwise leaves no complete frame. -/
structure Scanned (sep : α) (stop : List α → Bool) (stream : List α)
    (r : List (List α) × Bool × List α) : Prop where
  split : stream = framed sep r.1 ++ r.2.2
  frames : ∀ f ∈ r.1, sep ∉ f
  through : r.2.1 = false → sep ∉ r.2.2 ∧ ∀ f ∈ r.1, stop f = false
  stopped : r.2.1 = true → ∃ init last, r.1 = init ++ [last] ∧ stop last = true ∧
    ∀ f ∈ init, stop f = false

theorem scanUntil_spec (acc xs : List α) (hacc : sep ∉ acc) :
    Scanned sep stop (acc ++ xs) (scanUntil sep stop acc xs) := by
  induction xs generalizing acc with
  | nil =>
    exact ⟨by simp [scanUntil, framed], nofun, fun _ => ⟨hacc, nofun⟩, nofun⟩
  | cons c cs ih =>
    unfold scanUntil
    split_ifs with hc hstop
    · refine ⟨by simp [framed, hc], ?_, nofun, fun _ => ⟨[], acc, rfl, hstop, nofun⟩⟩
      intro f hf
      rwa [mem_singleton.mp hf]
    · have hrest := ih [] (by simp)
      have hgo : stop acc = false := by simpa using hstop
      refine ⟨?_, ?_, ?_, ?_⟩
      · have hsplit := hrest.split
        rw [nil_append] at hsplit
        rw [framed_cons, ← hsplit, hc]
      · exact forall_mem_cons.mpr ⟨hacc, hrest.frames⟩
      · intro hthrough
        obtain ⟨hclear, hgoes⟩ := hrest.through hthrough
        exact ⟨hclear, forall_mem_cons.mpr ⟨hgo, hgoes⟩⟩
      · intro hstopped
        obtain ⟨init, last, hinit, hlast, hgoes⟩ := hrest.stopped hstopped
        exact ⟨acc :: init, last, by simp [hinit], hlast, forall_mem_cons.mpr ⟨hgo, hgoes⟩⟩
    · have hnext := ih (acc ++ [c]) (by simpa [hacc] using Ne.symm hc)
      rwa [append_assoc, singleton_append] at hnext

end Scan

section Limited
variable [DecidableEq α] {sep : α} {limit : Nat}

theorem limited_append (acc xs ys : List α) :
    limited sep limit acc (xs ++ ys) =
      ((limited sep limit acc xs).1 ++ (limited sep limit (limited sep limit acc xs).2 ys).1,
        (limited sep limit (limited sep limit acc xs).2 ys).2) := by
  induction xs generalizing acc with
  | nil => rfl
  | cons c cs ih =>
    by_cases hc : c = sep
    · simp [limited, hc, ih]
    · simp [limited, hc, ih]

theorem limited_settled {acc' : List α} (h : settled limit acc = settled limit acc') (xs : List α) :
    (limited sep limit acc xs).1 = (limited sep limit acc' xs).1 ∧
      settled limit (limited sep limit acc xs).2 = settled limit (limited sep limit acc' xs).2 := by
  cases xs with
  | nil => exact ⟨rfl, h⟩
  | cons c cs =>
    unfold settled at h
    simp only [limited, h, and_self]

theorem limited_of_not_mem (hxs : sep ∉ xs) :
    (limited sep limit acc xs).1 = [] := by
  induction xs generalizing acc with
  | nil => rfl
  | cons c cs ih =>
    have hc : c ≠ sep := fun heq => hxs (heq ▸ mem_cons_self ..)
    rw [limited, if_neg hc]
    exact ih fun hmem => hxs (mem_cons_of_mem _ hmem)

theorem limited_short (hxs : sep ∉ xs) (hlen : (acc ++ xs).length ≤ limit) :
    limited sep limit acc xs = ([], acc ++ xs) := by
  induction xs generalizing acc with
  | nil => simp [limited]
  | cons c cs ih =>
    have hc : c ≠ sep := fun heq => hxs (heq ▸ mem_cons_self ..)
    have hroom : ¬ limit ≤ acc.length := by
      simp only [length_append, length_cons] at hlen
      omega
    rw [limited, if_neg hc, if_neg hroom,
      ih (fun hmem => hxs (mem_cons_of_mem _ hmem)) (by simpa using hlen)]
    simp

theorem limited_frame {f : List α} (hf : sep ∉ f) (hlen : f.length < limit) (ys : List α) :
    limited sep limit [] (f ++ sep :: ys) =
      (f :: (limited sep limit [] ys).1, (limited sep limit [] ys).2) := by
  have hshort : limited sep limit [] f = ([], f) := limited_short hf (by simp; omega)
  rw [limited_append, hshort]
  simp [limited, show ¬ limit ≤ f.length by omega]

theorem limited_framed {fs : List (List α)} (hfs : ∀ f ∈ fs, sep ∉ f)
    (hlen : ∀ f ∈ fs, f.length < limit) (rest : List α) :
    limited sep limit [] (framed sep fs ++ rest) =
      (fs ++ (limited sep limit [] rest).1, (limited sep limit [] rest).2) := by
  induction fs with
  | nil => rfl
  | cons f fs ih =>
    rw [framed_cons, limited_frame (hfs f mem_cons_self) (hlen f mem_cons_self),
      ih (fun g hg => hfs g (mem_cons_of_mem _ hg))
        (fun g hg => hlen g (mem_cons_of_mem _ hg))]
    rfl

theorem short_items_limited {acc' : List α} (xs : List α) (h : acc' = acc ∨ limit ≤ acc.length) :
    ((itemsFrom sep some acc xs).filter fun f => f.length < limit).Sublist
      (limited sep limit acc' xs).1 := by
  induction xs generalizing acc acc' with
  | nil => exact nil_sublist _
  | cons c cs ih =>
    have htail : ((itemsFrom sep some [] cs).filter fun f => f.length < limit).Sublist
        (limited sep limit [] cs).1 := ih (.inl rfl)
    unfold itemsFrom limited
    by_cases hacc : acc.length < limit
    · obtain rfl : acc' = acc := by
        rcases h with h | h
        · exact h
        · omega
      split_ifs with hc hlong
      · omega
      · simpa [hacc] using htail.cons_cons acc'
      · omega
      · exact ih (.inl rfl)
    · split_ifs with hc hlong
      · simpa [hacc] using htail.cons []
      · simpa [hacc] using htail.cons acc'
      · exact ih (.inr (by simp; omega))
      · exact ih (.inr (by simp; omega))

end Limited

end Smolmux.Framing
