import Smolmux.RingReaders

/-! A reader that pages through the history by cursor while the device keeps
writing. The reader starts at sequence number 0 and always resumes from the
cursor it was given. `stream` is the ghost record of all bytes ever appended;
the log of served pages is checked against it. -/

namespace Smolmux.RingBuffer
open List

variable {τ : Type*}

structure Served where
  since : Nat
  dropped : Nat
  bytes : Bytes
  cursor : Nat
  hasMore : Bool

/-- Sequence numbers a page accounts for: first those counted as dropped, then
those of the delivered bytes. -/
def Served.seqs (s : Served) : List Nat :=
  List.range' s.since s.dropped ++ List.range' (s.since + s.dropped) s.bytes.length

structure Reader (τ : Type*) where
  ring : Ring τ
  stream : Bytes
  next : Nat
  served : List Served

inductive ReaderOp (τ : Type*) where
  | append (data : Bytes) (ts : τ)
  | page (maxBytes : Nat) (positive : 0 < maxBytes)

def readPage (maxBytes : Nat) (r : Reader τ) : Reader τ :=
  let p := rbGetSinceSeq true r.ring r.next maxBytes
  { r with
    next := p.cursor
    served := r.served ++ [⟨r.next, p.dropped, p.usable maxBytes, p.cursor, p.hasMore⟩] }

def readPages (sizes : Nat → Nat) : Nat → Reader τ → Reader τ
  | 0, r => r
  | n + 1, r => readPage (sizes n) (readPages sizes n r)

structure Reader.Good (r : Reader τ) : Prop where
  retains : Retains r.ring r.stream
  firstSeq : FirstSeqOk r.ring
  full : r.ring.totalBytes = min r.stream.length r.ring.maxBytes
  next_le : r.next ≤ r.stream.length
  covered : r.served.flatMap Served.seqs = List.range r.next
  exact : ∀ s ∈ r.served,
    s.bytes = (r.stream.drop (s.since + s.dropped)).take s.bytes.length

theorem readPage_spec {r : Reader τ} (h : r.Good) {maxBytes : Nat} (hmax : 0 < maxBytes) :
    PageSpec r.ring r.stream r.next maxBytes (rbGetSinceSeq true r.ring r.next maxBytes) :=
  rbGetSinceSeq_spec h.retains h.firstSeq (h.retains.totalSeq ▸ h.next_le) hmax

theorem range_append_range' (a n : Nat) :
    List.range a ++ List.range' a n = List.range (a + n) := by
  simpa [range_eq_range'] using range'_append_1 (s := 0) (m := a) (n := n)

theorem readPage_good {r : Reader τ} (h : r.Good) {maxBytes : Nat} (hmax : 0 < maxBytes) :
    (readPage maxBytes r).Good := by
  have hp := readPage_spec h hmax
  set p := rbGetSinceSeq true r.ring r.next maxBytes with hpdef
  have hseq := h.retains.totalSeq
  have hnext : r.next ≤ r.ring.want r.next := Nat.le_max_left _ _
  have hle := hp.want_le
  have hcur := hp.cursor_le
  have hstart : r.next + p.dropped = r.ring.want r.next := by
    rw [hp.dropped]
    omega
  have hlen : (p.usable maxBytes).length = p.cursor - r.ring.want r.next := by
    rw [hp.bytes, length_take, length_drop]
    omega
  refine ⟨h.retains, h.firstSeq, h.full, hcur.trans hseq.le, ?_, ?_⟩
  · simp only [readPage, ← hpdef, flatMap_append, flatMap_singleton, h.covered]
    simp only [Served.seqs, hlen]
    rw [← append_assoc, range_append_range', range_append_range', hstart]
    congr 1
    omega
  · intro s hs
    simp only [readPage, ← hpdef, mem_append, mem_singleton] at hs
    rcases hs with hs | rfl
    · exact h.exact s hs
    · simp only [readPage, hstart, hlen]
      exact hp.bytes

theorem take_drop_append {β : Type*} {xs zs : List β} (ys : List β) {k : Nat}
    (h : zs = (xs.drop k).take zs.length) : zs = ((xs ++ ys).drop k).take zs.length := by
  by_cases hz : zs.length = 0
  · simp [eq_nil_of_length_eq_zero hz]
  · have hlen := congrArg List.length h
    rw [length_take, length_drop] at hlen
    rw [drop_append_of_le_length (by omega),
      take_append_of_le_length (by rw [length_drop]; omega)]
    exact h

theorem readPages_reaches {r : Reader τ} (h : r.Good) {sizes : Nat → Nat}
    (hs : ∀ i, 0 < sizes i) (n : Nat) :
    (readPages sizes n r).Good ∧ (readPages sizes n r).stream = r.stream ∧
      min r.stream.length (r.next + n) ≤ (readPages sizes n r).next := by
  induction n with
  | zero => exact ⟨h, rfl, by simp [readPages]⟩
  | succ n ih =>
    obtain ⟨hgood, hstream, hnext⟩ := ih
    have hp := readPage_spec hgood (hs n)
    refine ⟨readPage_good hgood (hs n), hstream, ?_⟩
    have hseq := hgood.retains.totalSeq
    have hwant : (readPages sizes n r).next ≤
        (readPages sizes n r).ring.want (readPages sizes n r).next := Nat.le_max_left _ _
    have hle := hp.want_le
    have hprogress := hp.progress
    rw [hseq, hstream] at hprogress
    simp only [readPages, readPage]
    omega

section Runs
variable [Zero τ] [BEq τ]

def Reader.step (r : Reader τ) : ReaderOp τ → Reader τ
  | .append data ts => { r with ring := rbAppend .ok r.ring data ts, stream := r.stream ++ data }
  | .page maxBytes _ => readPage maxBytes r

def runReader (maxBytes : Nat) (ops : List (ReaderOp τ)) : Reader τ :=
  ops.foldl Reader.step ⟨rbInit maxBytes, [], 0, []⟩

theorem step_good {r : Reader τ} (h : r.Good) (op : ReaderOp τ) : (r.step op).Good := by
  cases op with
  | append data ts =>
    obtain ⟨h1, h2, h3, h4⟩ := rbAppend_retains h.retains h.firstSeq h.full data ts
    refine ⟨h1, h2, by rw [Reader.step, h4, h3], ?_, h.covered, ?_⟩
    · have := h.next_le
      simp only [Reader.step, length_append]
      omega
    · exact fun s hs => take_drop_append data (h.exact s hs)
  | page maxBytes positive => exact readPage_good h positive

theorem runReader_good (maxBytes : Nat) (ops : List (ReaderOp τ)) :
    (runReader maxBytes ops).Good := by
  have hinit : Reader.Good (⟨rbInit maxBytes, [], 0, []⟩ : Reader τ) :=
    ⟨rbInit_retains maxBytes, rfl, by simp [rbInit], le_rfl, rfl, by simp⟩
  unfold runReader
  generalize (⟨rbInit maxBytes, [], 0, []⟩ : Reader τ) = r at hinit ⊢
  induction ops generalizing r with
  | nil => exact hinit
  | cons op ops ih => exact ih (r.step op) (step_good hinit op)

/-- Cursor pagination loses nothing. A page of any reachable buffer holds the
stream bytes from `want` up to its cursor. A reader that resumes from each
cursor accounts for every sequence number below its position exactly once and in
order, as a delivered byte of the stream or in a `dropped` count, and once the
appends stop it reaches the end after finitely many pages. -/
theorem cursor_pagination_lossless (maxBytes : Nat) :
    (∀ (ops : List (Bytes × τ)) (sinceSeq pageBytes : Nat),
      sinceSeq ≤ (runAppends maxBytes ops).totalSeq → 0 < pageBytes →
      PageSpec (runAppends maxBytes ops) (ops.flatMap Prod.fst) sinceSeq pageBytes
        (rbGetSinceSeq true (runAppends maxBytes ops) sinceSeq pageBytes)) ∧
    ∀ ops : List (ReaderOp τ),
      let r := runReader maxBytes ops
      r.served.flatMap Served.seqs = List.range r.next ∧
      (∀ s ∈ r.served, s.bytes = (r.stream.drop (s.since + s.dropped)).take s.bytes.length) ∧
      ∀ sizes : Nat → Nat, (∀ i, 0 < sizes i) →
        ∃ n s, (readPages sizes n r).served.getLast? = some s ∧ s.hasMore = false ∧
          (readPages sizes n r).next = r.stream.length := by
  refine ⟨fun ops sinceSeq pageBytes hs hpos => ?_, fun ops => ?_⟩
  · obtain ⟨h1, h2, -, -⟩ := foldl_retains ops (rbInit maxBytes) [] (rbInit_retains maxBytes)
      rfl (by simp [rbInit])
    exact rbGetSinceSeq_spec h1 h2 hs hpos
  · have hgood := runReader_good maxBytes ops
    refine ⟨hgood.covered, hgood.exact, fun sizes hsizes => ?_⟩
    set r := runReader maxBytes ops
    let n := r.stream.length - r.next
    obtain ⟨hn, hstream, hnext⟩ := readPages_reaches hgood hsizes n
    obtain ⟨hn1, hstream1, hnext1⟩ := readPages_reaches hgood hsizes (n + 1)
    have hend : (readPages sizes (n + 1) r).next = r.stream.length := by
      have := hn1.next_le
      rw [hstream1] at this
      omega
    refine ⟨n + 1, _, getLast?_concat, ?_, hend⟩
    have hmore := (readPage_spec hn (hsizes n)).hasMore
    have hseq := hn.retains.totalSeq
    have hcur : (rbGetSinceSeq true (readPages sizes n r).ring (readPages sizes n r).next
        (sizes n)).cursor = r.stream.length := hend
    simp only [Bool.eq_false_iff, ne_eq, hmore, hcur, hseq, hstream, lt_irrefl, not_false_eq_true]

theorem cursor_pagination_five_bytes :
    PageSpec (runAppends 4 [([1, 2, 3], 0), ([4, 5], 1)] : Ring Nat) [1, 2, 3, 4, 5] 0 2
        (rbGetSinceSeq true (runAppends 4 [([1, 2, 3], 0), ([4, 5], 1)]) 0 2) ∧
      ∃ n s,
        let r : Reader Nat := runReader 4
          [.append [1, 2, 3] 0, .page 2 (by decide), .append [4, 5] 1]
        (readPages (fun _ => 1) n r).served.getLast? = some s ∧ s.hasMore = false ∧
          (readPages (fun _ => 1) n r).next = r.stream.length :=
  ⟨(cursor_pagination_lossless 4).1 _ 0 2 (Nat.zero_le _) (by decide),
    ((cursor_pagination_lossless 4).2 _).2.2 (fun _ => 1) (fun _ => Nat.one_pos)⟩

end Runs

end Smolmux.RingBuffer
