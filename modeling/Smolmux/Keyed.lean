import Mathlib.Data.Finset.Card
import Mathlib.Data.List.Nodup
import Mathlib.Data.Set.Card

/-! A table of entries with a key, in the order they came, against the finite map
it stands for. A new definition goes to the entry of its key, or behind the last
entry while there is room; an entry that is removed leaves no gap. As long as no
two entries share their key, each of these is one update of the map. -/

namespace Smolmux.Keyed
open List

variable {α κ β : Type*} [DecidableEq κ] [BEq κ] [LawfulBEq κ]

/-- A finite map for at most `limit` keys. A key it has is defined anew, a key it
has not is taken while there is room. -/
noncomputable def define (limit : Nat) (m : κ → Option β) (k : κ) (d : β) :
    (κ → Option β) × Bool :=
  open Classical in
  if m k ≠ none ∨ {k | m k ≠ none}.ncard < limit then (Function.update m k (some d), true)
  else (m, false)

def delete (m : κ → Option β) (k : κ) : (κ → Option β) × Bool :=
  (Function.update m k none, (m k).isSome)

def lookup (key : α → κ) (l : List α) (k : κ) : Option α := l.find? (key · == k)

/-- The entry of the key is renewed, or a fresh one comes behind the others. -/
def put (key : α → κ) (limit : Nat) (k : κ) (renew : α → α) (fresh : α) (l : List α) :
    List α × Bool :=
  match l.findIdx? (key · == k) with
  | some i => (l.modify i renew, true)
  | none => if limit ≤ l.length then (l, false) else (l ++ [fresh], true)

def drop (key : α → κ) (k : κ) (l : List α) : List α × Bool :=
  match l.findIdx? (key · == k) with
  | some i => (l.eraseIdx i, true)
  | none => (l, false)

section Put

variable {key : α → κ} {limit : Nat} {k : κ} {renew : α → α} {fresh : α} {l : List α} {i : Nat}
  {x : α}

theorem put_refused (h : (put key limit k renew fresh l).2 = false) : (put key limit k renew fresh l).1 = l := by
  unfold put at h ⊢
  cases hfind : l.findIdx? (key · == k) with
  | some i =>
    rw [hfind] at h
    contradiction
  | none =>
    rw [hfind] at h
    dsimp only at h ⊢
    split_ifs at h ⊢
    rfl

end Put

/-- The table stands for the map: one entry for each of its keys, and in it what
the map has there. -/
structure Represents (key : α → κ) (value : α → β) (l : List α) (m : κ → Option β) : Prop where
  nodup : (l.map key).Nodup
  values : ∀ k, (lookup key l k).map value = m k

section Lookup

variable {key : α → κ} {l front back : List α} {k : κ}

theorem lookup_eq_none : lookup key l k = none ↔ k ∉ l.map key := by
  simp [lookup, find?_eq_none]

theorem lookup_insert {x : α} (hfront : key x ∉ front.map key) :
    lookup key (front ++ x :: back) =
      Function.update (lookup key (front ++ back)) (key x) (some x) := by
  funext k
  by_cases hk : k = key x
  · rw [hk, Function.update_self]
    have hnone : front.find? (key · == key x) = none := lookup_eq_none.mpr hfront
    simp [lookup, hnone]
  · rw [Function.update_of_ne hk]
    simp [lookup, find?_append, Ne.symm hk]

theorem findIdx_split {i : Nat} (h : l.findIdx? (key · == k) = some i) :
    ∃ front x back, l = front ++ x :: back ∧ front.length = i ∧ key x = k ∧
      k ∉ front.map key := by
  obtain ⟨hi, hx, hbefore⟩ := findIdx?_eq_some_iff_getElem.mp h
  refine ⟨l.take i, l[i], l.drop (i + 1), ?_, length_take_of_le (Nat.le_of_lt hi),
    by simpa using hx, ?_⟩
  · rw [getElem_cons_drop, take_append_drop]
  · intro hmem
    obtain ⟨y, hy, hyk⟩ := mem_map.mp hmem
    obtain ⟨j, hj, hjy⟩ := mem_take_iff_getElem.mp hy
    refine hbefore j (by omega) ?_
    rw [hjy]
    simpa using hyk

theorem not_mem_of_findIdx (h : l.findIdx? (key · == k) = none) : k ∉ l.map key := by
  rw [findIdx?_eq_none_iff] at h
  simpa using h

end Lookup

namespace Represents

variable {key : α → κ} {value : α → β} {l : List α} {m : κ → Option β} {k : κ}

theorem nil (key : α → κ) (value : α → β) : Represents key value [] fun _ => none :=
  ⟨nodup_nil, fun _ => rfl⟩

theorem insert {front back : List α} {x : α} (h : Represents key value (front ++ back) m)
    (hnew : key x ∉ (front ++ back).map key) :
    Represents key value (front ++ x :: back) (Function.update m (key x) (some (value x))) := by
  have hfront : key x ∉ front.map key := by
    intro hmem
    exact hnew (by rw [map_append]; exact mem_append_left _ hmem)
  refine ⟨?_, fun k => ?_⟩
  · rw [map_append, map_cons, nodup_middle, ← map_append]
    exact nodup_cons.mpr ⟨hnew, h.nodup⟩
  · rw [lookup_insert hfront]
    by_cases hk : k = key x
    · rw [hk, Function.update_self, Function.update_self, Option.map_some]
    · rw [Function.update_of_ne hk, Function.update_of_ne hk]
      exact h.values k

theorem erase {front back : List α} {x : α} (h : Represents key value (front ++ x :: back) m) :
    key x ∉ (front ++ back).map key ∧
      Represents key value (front ++ back) (Function.update m (key x) none) := by
  have hnodup := h.nodup
  rw [map_append, map_cons, nodup_middle, ← map_append] at hnodup
  obtain ⟨hnew, hrest⟩ := nodup_cons.mp hnodup
  have hfront : key x ∉ front.map key := by
    intro hmem
    exact hnew (by rw [map_append]; exact mem_append_left _ hmem)
  refine ⟨hnew, hrest, fun k => ?_⟩
  by_cases hk : k = key x
  · rw [hk, Function.update_self, lookup_eq_none.mpr hnew, Option.map_none]
  · rw [Function.update_of_ne hk, ← h.values k, lookup_insert hfront, Function.update_of_ne hk]

theorem ne_none_iff (h : Represents key value l m) : m k ≠ none ↔ k ∈ l.map key := by
  rw [← h.values k, Ne, Option.map_eq_none_iff, lookup_eq_none, not_not]

theorem ncard_eq (h : Represents key value l m) : {k | m k ≠ none}.ncard = l.length := by
  have hset : {k | m k ≠ none} = ((l.map key).toFinset : Set κ) := by
    ext k
    rw [Set.mem_ofPred_eq, h.ne_none_iff, Finset.mem_coe, mem_toFinset]
  rw [hset, Set.ncard_coe_finset, toFinset_card_of_nodup h.nodup, length_map]

theorem put {limit : Nat} {renew : α → α} {fresh : α} {d : β} (h : Represents key value l m)
    (hfresh : key fresh = k ∧ value fresh = d)
    (hrenew : ∀ x, key x = k → key (renew x) = k ∧ value (renew x) = d) :
    Represents key value (put key limit k renew fresh l).1 (define limit m k d).1 ∧
      (Keyed.put key limit k renew fresh l).2 = (define limit m k d).2 := by
  unfold Keyed.put define
  cases hfind : l.findIdx? (key · == k) with
  | some i =>
    obtain ⟨front, x, back, rfl, rfl, hx, -⟩ := findIdx_split hfind
    have hmem : m k ≠ none := h.ne_none_iff.mpr (by simp [hx])
    rw [if_pos (Or.inl hmem)]
    refine ⟨?_, rfl⟩
    obtain ⟨hnew, hrest⟩ := h.erase
    obtain ⟨hkey, hvalue⟩ := hrenew x hx
    rw [hx] at hnew hrest
    have hput := hrest.insert (x := renew x) (hkey ▸ hnew)
    rw [hkey, hvalue, Function.update_idem] at hput
    change Represents key value ((front ++ x :: back).modify front.length renew) _
    rwa [modify_eq_take_drop, take_left, drop_left]
  | none =>
    have hnew := not_mem_of_findIdx hfind
    have hnone : ¬ m k ≠ none := fun hk => hnew (h.ne_none_iff.mp hk)
    rw [h.ncard_eq]
    dsimp only
    by_cases hroom : limit ≤ l.length
    · rw [if_pos hroom, if_neg (not_or.mpr ⟨hnone, Nat.not_lt.mpr hroom⟩)]
      exact ⟨h, rfl⟩
    · rw [if_neg hroom, if_pos (Or.inr (Nat.lt_of_not_le hroom))]
      refine ⟨?_, rfl⟩
      obtain ⟨hkey, hvalue⟩ := hfresh
      have hrest : Represents key value (l ++ []) m := by rwa [append_nil]
      have hput := hrest.insert (x := fresh) (by rwa [hkey, append_nil])
      rwa [hkey, hvalue] at hput

theorem drop (h : Represents key value l m) :
    Represents key value (drop key k l).1 (delete m k).1 ∧
      (Keyed.drop key k l).2 = (delete m k).2 := by
  unfold Keyed.drop delete
  cases hfind : l.findIdx? (key · == k) with
  | some i =>
    obtain ⟨front, x, back, rfl, rfl, hx, -⟩ := findIdx_split hfind
    have hmem : m k ≠ none := h.ne_none_iff.mpr (by simp [hx])
    obtain ⟨-, hrest⟩ := h.erase
    rw [hx] at hrest
    refine ⟨?_, (Option.isSome_iff_ne_none.mpr hmem).symm⟩
    simpa [eraseIdx_append_of_length_le] using hrest
  | none =>
    have hnone : m k = none :=
      not_not.mp fun hk => not_mem_of_findIdx hfind (h.ne_none_iff.mp hk)
    dsimp only
    rw [hnone, Function.update_eq_self_iff.mpr hnone.symm]
    exact ⟨h, rfl⟩

end Represents

section Runs

variable {σ τ ο : Type*}

def run (step : σ → ο → σ × Bool) (s : σ) : List ο → σ × List Bool
  | [] => (s, [])
  | op :: ops =>
    let next := step s op
    let rest := run step next.1 ops
    (rest.1, next.2 :: rest.2)

/-- Two machines that answer each operation alike from related states answer every
sequence of operations alike. -/
theorem run_simulates {step : σ → ο → σ × Bool} {abstract : τ → ο → τ × Bool}
    {R : σ → τ → Prop} {ops : List ο}
    (hstep : ∀ op ∈ ops, ∀ s t, R s t →
      R (step s op).1 (abstract t op).1 ∧ (step s op).2 = (abstract t op).2)
    {s : σ} {t : τ} (h : R s t) :
    R (run step s ops).1 (run abstract t ops).1 ∧
      (run step s ops).2 = (run abstract t ops).2 := by
  induction ops generalizing s t with
  | nil => exact ⟨h, rfl⟩
  | cons op ops ih =>
    obtain ⟨hnext, hanswer⟩ := hstep op mem_cons_self s t h
    obtain ⟨hrest, hanswers⟩ :=
      ih (fun op' hop' => hstep op' (mem_cons_of_mem _ hop')) hnext
    refine ⟨hrest, ?_⟩
    change _ :: _ = _ :: _
    rw [hanswer, hanswers]

end Runs

end Smolmux.Keyed
