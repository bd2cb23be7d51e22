import Smolmux.RingBuffer
import Smolmux.Tiling
import Mathlib.Tactic.Common

/-! The ring buffer refines an append-only stream. `Retains rb S` is the
invariant of every operation: the live chunks tile the last `totalBytes` bytes
of the stream `S`. `History` is the abstract description a reader may rely on,
where the retained part is the longest suffix that fits `maxBytes`. -/

namespace Smolmux.RingBuffer
open Tiling List

variable {τ : Type*}

/-- Everything but `firstSeq`, which `evict` refreshes in a separate step. -/
structure Retains (rb : Ring τ) (S : Bytes) : Prop where
  count_le : rb.count ≤ rb.capacity
  head_lt : 0 < rb.capacity → rb.head < rb.capacity
  totalSeq : rb.totalSeq = S.length
  totalBytes_le : rb.totalBytes ≤ S.length
  suffix : rb.chunks.flatMap Chunk.data = S.drop (S.length - rb.totalBytes)
  tiles : Tiles Chunk.seqStart Chunk.data (S.length - rb.totalBytes) rb.chunks S.length

def FirstSeqOk (rb : Ring τ) : Prop := rb.firstSeq = rb.totalSeq - rb.totalBytes

variable {rb : Ring τ} {S : Bytes}

theorem Retains.length_chunks (h : Retains rb S) :
    (rb.chunks.flatMap Chunk.data).length = rb.totalBytes := by
  have := h.totalBytes_le
  rw [h.suffix, length_drop]
  omega

theorem Retains.chunks_cons (h : Retains rb S) (hc : 0 < rb.count) :
    rb.chunks = rb.slots rb.head :: rb.chunks.tail := by
  have hh : rb.head < rb.capacity := h.head_lt (by have := h.count_le; omega)
  have hv := Circular.view_cons rb.slots rb.head rb.count rb.capacity hh hc
  rw [Ring.chunks, hv, tail_cons]

theorem Retains.firstSeq_of_count_pos (h : Retains rb S) (hc : 0 < rb.count) : (rb.slots rb.head).seqStart = S.length - rb.totalBytes := by
  have ht := h.tiles
  rw [h.chunks_cons hc] at ht
  exact ht.1

theorem Retains.totalBytes_of_count_zero (h : Retains rb S) (hc : rb.count = 0) : rb.totalBytes = 0 := by
  have hl := h.length_chunks
  simpa [Ring.chunks, hc, eq_comm] using hl

theorem syncFirstSeq_retains (h : Retains rb S) :
    Retains (syncFirstSeq rb) S ∧ FirstSeqOk (syncFirstSeq rb) := by
  refine ⟨⟨h.count_le, h.head_lt, h.totalSeq, h.totalBytes_le, h.suffix, h.tiles⟩, ?_⟩
  simp only [FirstSeqOk, syncFirstSeq]
  split_ifs with hc
  · have := h.totalBytes_of_count_zero hc
    omega
  · have := h.firstSeq_of_count_pos (by omega)
    have := h.totalSeq
    omega

theorem popFront_retains (h : Retains rb S) (hc : 0 < rb.count) :
    Retains (popFront rb) S := by
  have hcap := h.count_le
  have hh : rb.head < rb.capacity := h.head_lt (by omega)
  have hchunks : (popFront rb).chunks = rb.chunks.tail :=
    Circular.view_pop rb.slots rb.head rb.count rb.capacity _ hh hc hcap
  have hsuffix := h.suffix
  have ht := h.tiles
  have hlen := h.length_chunks
  rw [h.chunks_cons hc, flatMap_cons] at hsuffix hlen
  rw [h.chunks_cons hc] at ht
  obtain ⟨hstart, -, htail⟩ := ht
  rw [length_append] at hlen
  have htotal := h.totalBytes_le
  have hpos : S.length - (popFront rb).totalBytes =
      S.length - rb.totalBytes + (rb.slots rb.head).data.length := by
    simp only [popFront, Chunk.len]
    omega
  refine ⟨?_, fun _ => Nat.mod_lt _ (by omega), h.totalSeq, ?_, ?_, ?_⟩
  · simp only [popFront]
    omega
  · simp only [popFront]
    omega
  · rw [hchunks, hpos, ← drop_drop, ← hsuffix, drop_left]
  · rw [hchunks, hpos]
    exact htail

theorem trimFront_retains (h : Retains rb S) (hc : 0 < rb.count) (excess : Nat)
    (he : excess < (rb.slots rb.head).len) :
    Retains (trimFront rb excess) S := by
  have hcap := h.count_le
  have hh : rb.head < rb.capacity := h.head_lt (by omega)
  let front := rb.slots rb.head
  have hchunks : (trimFront rb excess).chunks =
      { front with data := front.data.drop excess, seqStart := front.seqStart + excess } ::
        rb.chunks.tail :=
    Circular.view_set_head rb.slots rb.head rb.count rb.capacity _ hh hc hcap
  have hsuffix := h.suffix
  have ht := h.tiles
  have hlen := h.length_chunks
  rw [h.chunks_cons hc, flatMap_cons] at hsuffix hlen
  rw [h.chunks_cons hc] at ht
  obtain ⟨hstart, -, htail⟩ := ht
  rw [length_append] at hlen
  have htotal := h.totalBytes_le
  have he : excess < (rb.slots rb.head).data.length := he
  have hpos : S.length - (trimFront rb excess).totalBytes =
      S.length - rb.totalBytes + excess := by
    simp only [trimFront]
    omega
  refine ⟨hcap, h.head_lt, h.totalSeq, ?_, ?_, ?_⟩
  · simp only [trimFront]
    omega
  · rw [hchunks, hpos, ← drop_drop, ← hsuffix, flatMap_cons,
      drop_append_of_le_length he.le]
  · rw [hchunks, hpos]
    have hlenDrop : (front.data.drop excess).length = front.data.length - excess :=
      length_drop
    refine ⟨by simp only [front]; omega, by simp only [front] at hlenDrop ⊢; omega, ?_⟩
    have hend : S.length - rb.totalBytes + excess + (front.data.drop excess).length =
        S.length - rb.totalBytes + (rb.slots rb.head).data.length := by
      rw [hlenDrop]
      simp only [front]
      omega
    simpa only [hend] using htail

theorem evict_retains (rb : Ring τ) (S : Bytes) (h : Retains rb S) (hf : FirstSeqOk rb) :
    Retains (evict rb) S ∧ FirstSeqOk (evict rb) ∧ (evict rb).maxBytes = rb.maxBytes ∧
      (evict rb).totalBytes = min rb.totalBytes rb.maxBytes := by
  fun_induction evict rb with
  | case1 rb hcond hwhole ih =>
    obtain ⟨hret, hfirst⟩ := syncFirstSeq_retains (popFront_retains h hcond.1)
    obtain ⟨h1, h2, h3, h4⟩ := ih hret hfirst
    refine ⟨h1, h2, h3, ?_⟩
    rw [h4]
    simp only [syncFirstSeq, popFront]
    omega
  | case2 rb hcond hpart ih =>
    obtain ⟨hret, hfirst⟩ := syncFirstSeq_retains
      (trimFront_retains h hcond.1 (rb.totalBytes - rb.maxBytes) (by omega))
    obtain ⟨h1, h2, h3, h4⟩ := ih hret hfirst
    refine ⟨h1, h2, h3, ?_⟩
    rw [h4]
    simp only [syncFirstSeq, trimFront]
    omega
  | case3 rb hcond =>
    refine ⟨h, hf, rfl, ?_⟩
    by_cases hc : rb.count = 0
    · rw [h.totalBytes_of_count_zero hc, Nat.zero_min]
    · omega

theorem extendLast_retains (h : Retains rb S) (hf : FirstSeqOk rb) (hc : 0 < rb.count)
    (alloc : Nat) (data : Bytes) :
    Retains (extendLast rb alloc data) (S ++ data) ∧ FirstSeqOk (extendLast rb alloc data) := by
  let last := rb.slots ((rb.head + rb.count - 1) % rb.capacity)
  have hchunks : (extendLast rb alloc data).chunks =
      rb.chunks.dropLast ++ [{ last with data := last.data ++ data, alloc := alloc }] :=
    Circular.view_set_last rb.slots rb.head rb.count rb.capacity _ hc h.count_le
  have hold : rb.chunks = rb.chunks.dropLast ++ [last] :=
    Circular.view_getLast rb.slots rb.head rb.count rb.capacity hc
  have hsuffix := h.suffix
  have ht := h.tiles
  rw [hold, flatMap_append, flatMap_singleton] at hsuffix
  rw [hold, tiles_snoc] at ht
  have htotal := h.totalBytes_le
  have hpos : (S ++ data).length - (extendLast rb alloc data).totalBytes =
      S.length - rb.totalBytes := by
    simp only [extendLast, length_append]
    omega
  refine ⟨⟨h.count_le, h.head_lt, ?_, ?_, ?_, ?_⟩, ?_⟩
  · simp only [extendLast, h.totalSeq, length_append]
  · simp only [extendLast, length_append]
    omega
  · rw [hchunks, hpos, drop_append_of_le_length (by omega), ← hsuffix,
      flatMap_append, flatMap_singleton, append_assoc]
  · rw [hchunks, hpos, tiles_snoc]
    obtain ⟨hinit, hlast, hend⟩ := ht
    refine ⟨hinit, ?_, ?_⟩ <;> simp only [length_append] <;> omega
  · simp only [FirstSeqOk, extendLast] at hf ⊢
    have := h.totalSeq
    omega

theorem pushChunk_retains (h : Retains rb S) (hf : FirstSeqOk rb) (hroom : rb.count < rb.capacity)
    {data : Bytes} (hd : 0 < data.length) (ts : τ) :
    Retains (pushChunk rb data ts) (S ++ data) ∧ FirstSeqOk (pushChunk rb data ts) := by
  have hchunks : (pushChunk rb data ts).chunks =
      rb.chunks ++ [⟨ts, rb.totalSeq, data, max data.length chunkTarget⟩] :=
    Circular.view_push rb.slots rb.head rb.count rb.capacity _ hroom
  have htotal := h.totalBytes_le
  have hpos : (S ++ data).length - (pushChunk rb data ts).totalBytes =
      S.length - rb.totalBytes := by
    simp only [pushChunk, length_append]
    omega
  refine ⟨⟨hroom, h.head_lt, ?_, ?_, ?_, ?_⟩, ?_⟩
  · simp only [pushChunk, h.totalSeq, length_append]
  · simp only [pushChunk, length_append]
    omega
  · rw [hchunks, hpos, flatMap_append, flatMap_singleton, h.suffix,
      drop_append_of_le_length (by omega)]
  · rw [hchunks, hpos, tiles_snoc, length_append, h.totalSeq]
    exact ⟨h.tiles, hd, rfl⟩
  · simp only [FirstSeqOk, pushChunk] at hf ⊢
    have hseq := h.totalSeq
    split_ifs with hc
    · have := h.totalBytes_of_count_zero hc
      omega
    · omega

theorem grownCapacity_room {count capacity : Nat} (h : count ≤ capacity) :
    count < grownCapacity capacity := by
  unfold grownCapacity
  split_ifs <;> omega

section Append
variable [Zero τ]

theorem growSlots_chunks (h : rb.count ≤ rb.capacity) :
    (growSlots rb).chunks = rb.chunks ∧ (growSlots rb).count < (growSlots rb).capacity := by
  unfold growSlots
  split_ifs with hfull
  · have hroom := grownCapacity_room h
    exact ⟨Circular.view_compact rb.slots Chunk.empty rb.head rb.count rb.capacity
      (grownCapacity rb.capacity) hroom.le, hroom⟩
  · exact ⟨rfl, Nat.lt_of_not_le hfull⟩

theorem growSlots_counters (rb : Ring τ) :
    (growSlots rb).maxBytes = rb.maxBytes ∧ (growSlots rb).totalBytes = rb.totalBytes ∧
      (growSlots rb).totalSeq = rb.totalSeq ∧ (growSlots rb).firstSeq = rb.firstSeq := by
  unfold growSlots
  split_ifs <;> exact ⟨rfl, rfl, rfl, rfl⟩

theorem growSlots_retains (h : Retains rb S) (hf : FirstSeqOk rb) :
    Retains (growSlots rb) S ∧ FirstSeqOk (growSlots rb) ∧
      (growSlots rb).count < (growSlots rb).capacity := by
  obtain ⟨hchunks, hroom⟩ := growSlots_chunks h.count_le
  obtain ⟨-, hbytes, hseq, hfirst⟩ := growSlots_counters rb
  refine ⟨⟨hroom.le, ?_, hseq.trans h.totalSeq, hbytes ▸ h.totalBytes_le, ?_, ?_⟩, ?_, hroom⟩
  · unfold growSlots
    split_ifs
    · exact id
    · exact h.head_lt
  · rw [hchunks, hbytes]
    exact h.suffix
  · rw [hchunks, hbytes]
    exact h.tiles
  · rw [FirstSeqOk, hbytes, hseq, hfirst]
    exact hf

theorem rbInit_retains (maxBytes : Nat) : Retains (rbInit maxBytes : Ring τ) [] :=
  ⟨le_rfl, fun h => h, rfl, le_rfl, rfl, rfl⟩

variable [BEq τ]

theorem rbAppend_retains (h : Retains rb S) (hf : FirstSeqOk rb)
    (hfull : rb.totalBytes = min S.length rb.maxBytes) (data : Bytes) (ts : τ) :
    Retains (rbAppend .ok rb data ts) (S ++ data) ∧ FirstSeqOk (rbAppend .ok rb data ts) ∧
      (rbAppend .ok rb data ts).maxBytes = rb.maxBytes ∧
      (rbAppend .ok rb data ts).totalBytes = min (S ++ data).length rb.maxBytes := by
  have finish : ∀ mid : Ring τ, 0 < data.length → Retains mid (S ++ data) → FirstSeqOk mid →
      mid.maxBytes = rb.maxBytes → mid.totalBytes = rb.totalBytes + data.length →
      Retains (evict mid) (S ++ data) ∧ FirstSeqOk (evict mid) ∧
        (evict mid).maxBytes = rb.maxBytes ∧
        (evict mid).totalBytes = min (S ++ data).length rb.maxBytes := by
    intro mid hpos hmid hfirst hmax hbytes
    obtain ⟨h1, h2, h3, h4⟩ := evict_retains mid (S ++ data) hmid hfirst
    refine ⟨h1, h2, h3.trans hmax, ?_⟩
    rw [h4, hmax, hbytes, hfull, length_append]
    omega
  simp only [rbAppend]
  split_ifs with hempty hfits hgrows
  · have hnil : data = [] := eq_nil_of_length_eq_zero hempty
    subst hnil
    simpa using ⟨h, hf, hfull⟩
  · obtain ⟨hmid, hfirst⟩ := extendLast_retains h hf hfits.1.1 _ data
    exact finish _ (by omega) hmid hfirst rfl rfl
  · obtain ⟨hmid, hfirst⟩ := extendLast_retains h hf hgrows.1.1 _ data
    exact finish _ (by omega) hmid hfirst rfl rfl
  · obtain ⟨hgrown, hgrownFirst, hroom⟩ := growSlots_retains h hf
    obtain ⟨hmid, hfirst⟩ := pushChunk_retains hgrown hgrownFirst hroom (by omega : 0 < data.length) ts
    obtain ⟨hmax, hbytes, -, -⟩ := growSlots_counters rb
    simp only [appendChunk, Alloc.ok, Bool.true_eq_false, and_false, if_false]
    exact finish _ (by omega) hmid hfirst hmax (by simp only [pushChunk, hbytes])

end Append

/-- What a buffer says about the stream of all bytes ever appended to it. -/
structure History (rb : Ring τ) (S : Bytes) : Prop where
  retained : rb.chunks.flatMap Chunk.data = S.drop (S.length - min S.length rb.maxBytes)
  totalSeq : rb.totalSeq = S.length
  firstSeq : rb.firstSeq = rb.totalSeq - rb.totalBytes
  totalBytes : rb.totalBytes = (rb.chunks.map Chunk.len).sum
  bounded : rb.totalBytes ≤ rb.maxBytes
  positive : ∀ c ∈ rb.chunks, 0 < c.len
  adjacent : ∀ i, (h : i + 1 < rb.chunks.length) → rb.chunks[i].seqEnd = rb.chunks[i + 1].seqStart
  last : ∀ c, rb.chunks.getLast? = some c → c.seqEnd = rb.totalSeq
  stored : ∀ c ∈ rb.chunks, ∀ j, (h : j < c.data.length) → S[c.seqStart + j]? = some c.data[j]

theorem Retains.history (h : Retains rb S) (hf : FirstSeqOk rb)
    (hfull : rb.totalBytes = min S.length rb.maxBytes) : History rb S where
  retained := by rw [h.suffix, hfull]
  totalSeq := h.totalSeq
  firstSeq := hf
  totalBytes := by
    rw [← h.length_chunks, length_flatMap]
    rfl
  bounded := by omega
  positive _ hc := tiles_positive h.tiles hc
  adjacent i hi := tiles_adjacent h.tiles i hi
  last c hc := by
    rw [h.totalSeq]
    exact tiles_last h.tiles hc
  stored c hc j hj := tiles_getElem h.tiles (h.suffix ▸ prefix_rfl) hc hj

structure Filled (rb : Ring τ) (S : Bytes) : Prop where
  retains : Retains rb S
  firstSeq : FirstSeqOk rb
  full : rb.totalBytes = min S.length rb.maxBytes

def Appended (rb rb' : Ring τ) (X : Bytes) : Prop := ∀ S, Filled rb S → Filled rb' (S ++ X)

theorem Appended.refl (rb : Ring τ) : Appended rb rb [] := fun S h => (append_nil S).symm ▸ h

theorem Appended.trans {r₁ r₂ r₃ : Ring τ} {X Y : Bytes} (h : Appended r₁ r₂ X)
    (h' : Appended r₂ r₃ Y) : Appended r₁ r₃ (X ++ Y) :=
  fun S hS => append_assoc S X Y ▸ h' _ (h S hS)

theorem Filled.history (h : Filled rb S) : History rb S :=
  h.retains.history h.firstSeq h.full

section Runs
variable [Zero τ] [BEq τ]

theorem filled_rbInit (maxBytes : Nat) : Filled (rbInit maxBytes : Ring τ) [] :=
  ⟨rbInit_retains maxBytes, rfl, (Nat.zero_min _).symm⟩

theorem Filled.rbAppend (h : Filled rb S) (data : Bytes) (ts : τ) :
    Filled (rbAppend .ok rb data ts) (S ++ data) := by
  obtain ⟨h1, h2, h3, h4⟩ := rbAppend_retains h.retains h.firstSeq h.full data ts
  exact ⟨h1, h2, by rw [h4, h3]⟩

theorem foldl_retains (ops : List (Bytes × τ)) (rb : Ring τ) (S : Bytes) (h : Retains rb S)
    (hf : FirstSeqOk rb) (hfull : rb.totalBytes = min S.length rb.maxBytes) :
    let rb' := ops.foldl (fun rb op => rbAppend .ok rb op.1 op.2) rb
    Retains rb' (S ++ ops.flatMap Prod.fst) ∧ FirstSeqOk rb' ∧ rb'.maxBytes = rb.maxBytes ∧
      rb'.totalBytes = min (S ++ ops.flatMap Prod.fst).length rb.maxBytes := by
  induction ops generalizing rb S with
  | nil => simpa using ⟨h, hf, hfull⟩
  | cons op ops ih =>
    obtain ⟨h1, h2, h3, h4⟩ := rbAppend_retains h hf hfull op.1 op.2
    have hrest := ih (rbAppend .ok rb op.1 op.2) (S ++ op.1) h1 h2 (by rw [h4, h3])
    simpa only [foldl_cons, flatMap_cons, append_assoc, h3] using hrest

/-- Every sequence of appends leaves exactly the last `min |S| maxBytes` bytes
of the stream `S`, in chunks numbered by their position in it. -/
theorem runAppends_history (maxBytes : Nat) (ops : List (Bytes × τ)) :
    (runAppends maxBytes ops).maxBytes = maxBytes ∧
      History (runAppends maxBytes ops) (ops.flatMap Prod.fst) := by
  obtain ⟨h1, h2, h3, h4⟩ :=
    foldl_retains ops (rbInit maxBytes) [] (rbInit_retains maxBytes) rfl (by simp [rbInit])
  simp only [nil_append] at h1 h4
  refine ⟨h3, h1.history h2 (h4.trans ?_)⟩
  rw [h3]

end Runs

end Smolmux.RingBuffer
