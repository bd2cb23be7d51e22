import Smolmux.RingHistory

/-! Read access to the history ring: by time, by size, everything, and by
sequence number with a byte cap. The first three return a run of chunks up to
the newest one. The last one also returns where inside the first chunk to start
and the sequence number just behind the bytes that fit the cap. -/

namespace Smolmux.RingBuffer
open Tiling List

variable {τ : Type*}

def copyRange (mem : Bool) (rb : Ring τ) (start n : Nat) : List (Chunk τ) :=
  if n = 0 ∨ mem = false then [] else (rb.chunks.drop start).take n

def rbGetAll (mem : Bool) (rb : Ring τ) : List (Chunk τ) := copyRange mem rb 0 rb.count

def rbGetSince (mem : Bool) (ge : τ → τ → Bool) (rb : Ring τ) (sinceTs : τ) : List (Chunk τ) :=
  let i := rb.chunks.findIdx fun c => ge c.timestamp sinceTs
  copyRange mem rb i (rb.count - i)

def lastBytesStart (chunks : List (Chunk τ)) (n : Nat) : (start acc : Nat) → Nat
  | 0, _ => 0
  | start + 1, acc =>
    if acc < n then
      lastBytesStart chunks n start (acc + (chunks[start]?.map Chunk.len).getD 0)
    else start + 1

def rbGetLastNBytes (mem : Bool) (rb : Ring τ) (n : Nat) : List (Chunk τ) :=
  if rb.count = 0 ∨ n = 0 then []
  else
    let start := lastBytesStart rb.chunks n rb.count 0
    copyRange mem rb start (rb.count - start)

structure Page (τ : Type*) where
  chunks : List (Chunk τ)
  firstSkip : Nat
  cursor : Nat
  dropped : Nat
  hasMore : Bool

/-- The page-selection loop, from the first chunk on: number of chunks taken
and the cursor behind them. Only the first chunk is entered at an offset. -/
def selectPage (maxBytes : Nat) : (off acc n cursor : Nat) → List (Chunk τ) → Nat × Nat
  | _, _, n, cursor, [] => (n, cursor)
  | off, acc, n, cursor, c :: cs =>
    let usable := c.len - off
    if usable = 0 then selectPage maxBytes 0 acc n cursor cs
    else if 0 < maxBytes ∧ maxBytes ≤ acc then (n, cursor)
    else if 0 < maxBytes ∧ maxBytes < acc + usable then
      (n + 1, c.seqStart + off + (maxBytes - acc))
    else selectPage maxBytes 0 (acc + usable) (n + 1) c.seqEnd cs

def Ring.want (rb : Ring τ) (sinceSeq : Nat) : Nat := max sinceSeq rb.firstSeq

def rbGetSinceSeq (mem : Bool) (rb : Ring τ) (sinceSeq maxBytes : Nat) : Page τ :=
  let want := rb.want sinceSeq
  let nothing : Page τ := ⟨[], 0, rb.totalSeq, rb.firstSeq - sinceSeq, false⟩
  if rb.count = 0 ∨ rb.totalSeq ≤ want then nothing
  else
    let startI := rb.chunks.findIdx fun c => want < c.seqEnd
    match rb.chunks.drop startI with
    | [] => nothing
    | first :: rest =>
      let firstSkip := want - first.seqStart
      let (n, cursor) := selectPage maxBytes firstSkip 0 0 want (first :: rest)
      let copied := copyRange mem rb startI n
      if copied.isEmpty then nothing
      else ⟨copied, firstSkip, cursor, rb.firstSeq - sinceSeq, cursor < rb.totalSeq⟩

def Page.usable (p : Page τ) (maxBytes : Nat) : Bytes :=
  ((p.chunks.flatMap Chunk.data).drop p.firstSkip).take maxBytes

variable (rb : Ring τ)

theorem copyRange_eq (start n : Nat) :
    copyRange true rb start n = (rb.chunks.drop start).take n := by
  unfold copyRange
  by_cases h : n = 0 <;> simp [h]

theorem chunks_length : rb.chunks.length = rb.count := by
  simp [Ring.chunks]

theorem copyRange_suffix (start : Nat) :
    copyRange true rb start (rb.count - start) = rb.chunks.drop start := by
  rw [copyRange_eq, take_of_length_le]
  simp [chunks_length]

variable {maxBytes : Nat}

theorem selectPage_spec (hmax : 0 < maxBytes) {a b : Nat} {chunks : List (Chunk τ)}
    (ht : Tiles Chunk.seqStart Chunk.data a chunks b) (off acc n : Nat) (hacc : acc ≤ maxBytes)
    (hoff : off = 0 ∨ ∃ c cs, chunks = c :: cs ∧ off < c.len) :
    ∃ k, (selectPage maxBytes off acc n (a + off) chunks).1 = n + k ∧
      (selectPage maxBytes off acc n (a + off) chunks).2 =
        a + off + min (maxBytes - acc) ((chunks.flatMap Chunk.data).length - off) ∧
      (((chunks.take k).flatMap Chunk.data).drop off).take (maxBytes - acc) =
        ((chunks.flatMap Chunk.data).drop off).take (maxBytes - acc) ∧
      (acc < maxBytes → chunks ≠ [] → 0 < k) := by
  induction chunks generalizing a off acc n with
  | nil => exact ⟨0, by simp [selectPage]⟩
  | cons c cs ih =>
    obtain ⟨hstart, hlen, hrest⟩ := ht
    have hin : off < c.data.length := by
      rcases hoff with rfl | ⟨c', cs', heq, h⟩
      · exact hlen
      · obtain ⟨rfl, rfl⟩ := List.cons.inj heq
        exact h
    have husable : c.len - off ≠ 0 := by simp only [Chunk.len]; omega
    simp only [selectPage, husable, if_false, hmax, true_and]
    split_ifs with hfull hcut
    · refine ⟨0, ?_⟩
      have hzero : maxBytes - acc = 0 := by omega
      simp only [hzero, take_zero, Nat.zero_min, Nat.add_zero, true_and]
      omega
    · refine ⟨1, rfl, ?_, ?_, fun _ _ => Nat.one_pos⟩
      · simp only [Chunk.len] at hcut
        simp only [hstart, flatMap_cons, length_append]
        omega
      · simp only [Chunk.len] at hcut
        simp only [take_succ_cons, take_zero, flatMap_cons, flatMap_nil,
          append_nil]
        rw [drop_append_of_le_length hin.le, take_append_of_le_length]
        rw [length_drop]
        omega
    · simp only [Chunk.len] at hcut husable ⊢
      obtain ⟨k, hn, hcursor, hbytes, -⟩ :=
        ih hrest 0 (acc + (c.data.length - off)) (n + 1) (by omega) (.inl rfl)
      have hseq : c.seqEnd = a + c.data.length + 0 := by simp [Chunk.seqEnd, Chunk.len, hstart]
      rw [hseq]
      refine ⟨k + 1, by rw [hn]; omega, ?_, ?_, fun _ _ => Nat.succ_pos k⟩
      · rw [hcursor]
        simp only [flatMap_cons, length_append]
        omega
      · simp only [drop_zero] at hbytes
        have hsplit : maxBytes - acc =
            (c.data.drop off).length + (maxBytes - (acc + (c.data.length - off))) := by
          rw [length_drop]
          omega
        simp only [take_succ_cons, flatMap_cons]
        rw [drop_append_of_le_length hin.le, drop_append_of_le_length hin.le, hsplit,
          take_length_add_append, take_length_add_append, hbytes]

theorem findIdx_want {a b : Nat} (want : Nat) {chunks : List (Chunk τ)}
    (ht : Tiles Chunk.seqStart Chunk.data a chunks b) (ha : a ≤ want) (hb : want < b) :
    ∃ first rest, chunks.drop (chunks.findIdx fun c => want < c.seqEnd) = first :: rest ∧
      Tiles Chunk.seqStart Chunk.data first.seqStart (first :: rest) b ∧
      first.seqStart ≤ want ∧ want < first.seqEnd ∧
      a ≤ first.seqStart ∧
      (chunks.flatMap Chunk.data).drop (first.seqStart - a) =
        (first :: rest).flatMap Chunk.data := by
  induction chunks generalizing a with
  | nil =>
    have hab : a = b := ht
    omega
  | cons c cs ih =>
    obtain ⟨hstart, hlen, hrest⟩ := ht
    by_cases hc : want < c.seqEnd
    · refine ⟨c, cs, by simp [findIdx_cons, hc], ⟨rfl, hlen, by rwa [hstart]⟩, by omega, hc,
        by omega, ?_⟩
      simp [hstart]
    · have hnext : a + c.data.length ≤ want := by
        simp only [Chunk.seqEnd, Chunk.len] at hc
        omega
      obtain ⟨first, rest, hdrop, htile, hle, hlt, hage, hbytes⟩ := ih hrest hnext
      refine ⟨first, rest, by simpa [findIdx_cons, hc] using hdrop, htile, hle, hlt,
        by omega, ?_⟩
      have hsplit : first.seqStart - a =
          c.data.length + (first.seqStart - (a + c.data.length)) := by omega
      rw [hsplit, flatMap_cons, drop_length_add_append, hbytes]

/-- A page read at `sinceSeq` with a positive cap, against the stream `S`. -/
structure PageSpec (rb : Ring τ) (S : Bytes) (sinceSeq maxBytes : Nat) (p : Page τ) : Prop where
  bytes : p.usable maxBytes =
    (S.drop (rb.want sinceSeq)).take (p.cursor - rb.want sinceSeq)
  want_le : rb.want sinceSeq ≤ p.cursor
  cursor_le : p.cursor ≤ rb.totalSeq
  capped : p.cursor - rb.want sinceSeq ≤ maxBytes
  progress : rb.want sinceSeq < rb.totalSeq → rb.want sinceSeq < p.cursor
  dropped : p.dropped = rb.want sinceSeq - sinceSeq
  hasMore : p.hasMore = true ↔ p.cursor < rb.totalSeq

variable {S : Bytes} {sinceSeq : Nat}

theorem nothing_spec {rb : Ring τ} (hend : rb.want sinceSeq = rb.totalSeq)
    (hd : rb.firstSeq - sinceSeq = rb.want sinceSeq - sinceSeq) :
    PageSpec rb S sinceSeq maxBytes ⟨[], 0, rb.totalSeq, rb.firstSeq - sinceSeq, false⟩ where
  bytes := by simp [Page.usable, hend]
  want_le := hend.le
  cursor_le := le_rfl
  capped := by simp [hend]
  progress := by simp [hend]
  dropped := hd
  hasMore := by simp

theorem rbGetSinceSeq_spec {rb : Ring τ} (h : Retains rb S) (hf : FirstSeqOk rb)
    (hs : sinceSeq ≤ rb.totalSeq) (hmax : 0 < maxBytes) :
    PageSpec rb S sinceSeq maxBytes (rbGetSinceSeq true rb sinceSeq maxBytes) := by
  have hseq := h.totalSeq
  have hkept := h.totalBytes_le
  have hfirst : rb.firstSeq = S.length - rb.totalBytes := by rw [hf, hseq]
  have hwant : rb.want sinceSeq = max sinceSeq rb.firstSeq := rfl
  have hdropped : rb.firstSeq - sinceSeq = rb.want sinceSeq - sinceSeq := by omega
  unfold rbGetSinceSeq
  dsimp only
  split_ifs with hnone
  · refine nothing_spec ?_ hdropped
    rcases hnone with hc | hle
    · have := h.totalBytes_of_count_zero hc
      omega
    · omega
  · obtain ⟨first, rest, hdrop, htile, hle, hlt, hge, hbytes⟩ :=
      findIdx_want (rb.want sinceSeq) h.tiles (by omega) (by omega)
    set want := rb.want sinceSeq
    have hoff : want - first.seqStart < first.len := by
      simp only [Chunk.seqEnd] at hlt
      omega
    have hcur : first.seqStart + (want - first.seqStart) = want := by omega
    obtain ⟨k, hn, hcursor, hsel, hpos⟩ := selectPage_spec hmax htile
      (want - first.seqStart) 0 0 (Nat.zero_le _) (.inr ⟨first, rest, rfl, hoff⟩)
    rw [hcur, Nat.zero_add] at hn
    rw [hcur, Nat.sub_zero] at hcursor
    rw [Nat.sub_zero] at hsel
    have hend := tiles_end htile
    have hcopied : copyRange true rb (rb.chunks.findIdx fun c => want < c.seqEnd) k =
        (first :: rest).take k := by rw [copyRange_eq, hdrop]
    obtain ⟨j, rfl⟩ : ∃ j, k = j + 1 := ⟨k - 1, by have := hpos hmax (by simp); omega⟩
    rw [hdrop]
    simp only [hn, hcopied, take_succ_cons, isEmpty_cons, Bool.false_eq_true, if_false]
    have hstream : ((first :: rest).flatMap Chunk.data).drop (want - first.seqStart) =
        S.drop want := by
      rw [← hbytes, h.suffix, drop_drop, drop_drop]
      congr 1
      omega
    have hmin : (selectPage maxBytes (want - first.seqStart) 0 0 want (first :: rest)).2 =
        want + min maxBytes (S.length - want) := by
      rw [hcursor]
      omega
    rw [hmin]
    refine ⟨?_, Nat.le_add_right _ _, by simp only; omega, by simp only; omega, by simp only; omega,
      hdropped, by simp⟩
    rw [take_succ_cons] at hsel
    have hcap : want + min maxBytes (S.length - want) - want =
        min maxBytes (S.drop want).length := by
      rw [length_drop]
      omega
    simp only [Page.usable]
    rw [hsel, hstream, hcap, ← take_eq_take_min]

theorem rbGetSinceSeq_beyond (mem : Bool) {rb : Ring τ} (maxBytes : Nat)
    (h : rb.totalSeq ≤ sinceSeq) :
    rbGetSinceSeq mem rb sinceSeq maxBytes =
      ⟨[], 0, rb.totalSeq, rb.firstSeq - sinceSeq, false⟩ := by
  have hwant : rb.totalSeq ≤ rb.want sinceSeq := h.trans (Nat.le_max_left _ _)
  simp [rbGetSinceSeq, hwant]

theorem rbGetSinceSeq_length (sinceSeq maxBytes : Nat) :
    (rbGetSinceSeq true rb sinceSeq maxBytes).chunks.length ≤ rb.count := by
  unfold rbGetSinceSeq
  dsimp only
  split_ifs
  · exact Nat.zero_le _
  · split
    · exact Nat.zero_le _
    · split_ifs
      · exact Nat.zero_le _
      · rw [copyRange_eq, length_take, length_drop, chunks_length]
        omega

theorem rbGetSinceSeq_tiles {rb : Ring τ} (h : Retains rb S) (hf : FirstSeqOk rb)
    (hne : (rbGetSinceSeq true rb sinceSeq maxBytes).chunks ≠ []) :
    ∃ first rest e, (rbGetSinceSeq true rb sinceSeq maxBytes).chunks = first :: rest ∧
      Tiles Chunk.seqStart Chunk.data first.seqStart (first :: rest) e ∧
      first.seqStart + (rbGetSinceSeq true rb sinceSeq maxBytes).firstSkip = rb.want sinceSeq ∧
      (rbGetSinceSeq true rb sinceSeq maxBytes).firstSkip < first.len := by
  have hseq := h.totalSeq
  have hfirst : rb.firstSeq = S.length - rb.totalBytes := by rw [hf, hseq]
  have hwant : rb.want sinceSeq = max sinceSeq rb.firstSeq := rfl
  unfold rbGetSinceSeq at hne ⊢
  dsimp only at hne ⊢
  split_ifs at hne ⊢ with hnone
  · exact absurd rfl hne
  · obtain ⟨first, rest, hdrop, htile, hle, hlt, -, -⟩ :=
      findIdx_want (rb.want sinceSeq) h.tiles (by omega) (by omega)
    simp only [hdrop] at hne ⊢
    generalize (selectPage maxBytes _ 0 0 _ (first :: rest)) = sel at hne ⊢
    rw [copyRange_eq, hdrop] at hne ⊢
    obtain ⟨n, cursor⟩ := sel
    cases n with
    | zero => simp at hne
    | succ n =>
      simp only [take_succ_cons, isEmpty_cons, Bool.false_eq_true, if_false]
      rw [← take_append_drop (n + 1) (first :: rest), take_succ_cons] at htile
      obtain ⟨e, htake, -⟩ := tiles_append.mp htile
      refine ⟨first, rest.take n, e, rfl, htake, by omega, ?_⟩
      simp only [Chunk.seqEnd] at hlt
      omega

end Smolmux.RingBuffer
