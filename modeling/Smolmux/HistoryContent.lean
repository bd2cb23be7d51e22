import Smolmux.HistorySnapshot

/-! What a history response carries. In cursor mode the slices tile the stream
from the wanted position to the cursor, in the broker's response and in the MCP
page alike; in the other modes the response holds the newest selected chunks
that fit the cap. -/

namespace Smolmux.History
open RingBuffer Protocol Base64 Tiling List

theorem pageSlices_owned (page skip done : Nat) (chunks : List (Chunk Rat)) :
    pageSlices page skip done (chunks.map fun c => { c with alloc := c.len }) =
      pageSlices page skip done chunks := by
  induction chunks generalizing skip done with
  | nil => rfl
  | cons c cs ih =>
    simp only [map_cons, pageSlices, ih]
    rfl

theorem pageSlices_tiles {page : Nat} (hpage : 0 < page) {a b : Nat} {chunks : List (Chunk Rat)}
    (ht : Tiles Chunk.seqStart Chunk.data a chunks b) (skip done : Nat) (hdone : done < page)
    (hskip : skip = 0 ∨ ∃ c cs, chunks = c :: cs ∧ skip < c.len) :
    (∃ e, Tiles Slice.seqStart Slice.data (a + skip) (pageSlices page skip done chunks) e) ∧
      (pageSlices page skip done chunks).flatMap Slice.data =
        ((chunks.flatMap Chunk.data).drop skip).take (page - done) := by
  induction chunks generalizing a skip done with
  | nil =>
    have hzero : skip = 0 := by simpa using hskip
    exact ⟨⟨a, by simp [pageSlices, Tiles, hzero]⟩, by simp [pageSlices]⟩
  | cons c cs ih =>
    obtain ⟨hstart, hlen, hrest⟩ := ht
    have hin : skip < c.data.length := by
      rcases hskip with rfl | ⟨c', cs', heq, h⟩
      · exact hlen
      · obtain ⟨rfl, rfl⟩ := List.cons.inj heq
        exact h
    have hoff : min skip c.len = skip := min_eq_left hin.le
    simp only [pageSlices, hoff, hpage, if_true, true_and, flatMap_cons]
    have hdata : ((c.data.drop skip).take (min (c.len - skip) (page - done))).length =
        min (c.len - skip) (page - done) := by
      simp only [length_take, length_drop, Chunk.len]
      omega
    have hpos : 0 < min (c.len - skip) (page - done) := by
      simp only [Chunk.len]
      omega
    rw [drop_append_of_le_length hin.le]
    split_ifs with hfull
    · have hcut : page - done ≤ c.data.length - skip := by
        simp only [Chunk.len] at hfull
        omega
      refine ⟨⟨_, by rw [hstart], by rw [hdata]; exact hpos, rfl⟩, ?_⟩
      rw [take_append_of_le_length (by rw [length_drop]; exact hcut), Chunk.len,
        min_eq_right hcut]
      simp
    · have hall : min (c.len - skip) (page - done) = c.data.length - skip := by
        simp only [Chunk.len] at hfull ⊢
        omega
      have hwhole : (c.data.drop skip).take (c.data.length - skip) = c.data.drop skip := by
        rw [take_of_length_le (by simp)]
      rw [hall] at hdata hfull ⊢
      obtain ⟨⟨e, he⟩, hbytes⟩ := ih hrest 0 (done + (c.data.length - skip)) (by omega) (.inl rfl)
      refine ⟨⟨e, by rw [hstart], by rw [hdata]; omega, ?_⟩, ?_⟩
      · rw [hdata]
        convert he using 1
        omega
      · have hsplit : page - done =
            (c.data.drop skip).length + (page - (done + (c.data.length - skip))) := by
          rw [length_drop]
          omega
        rw [hbytes, hwhole, hsplit, take_length_add_append, drop_zero]

def Slice.textJson (s : Slice) : Json := textChunkJson s.timestamp s.seqStart s.data

theorem pageTexts_eq {page : Nat} (hpage : 0 < page) {a b : Nat} {chunks : List (Chunk Rat)}
    (ht : Tiles Chunk.seqStart Chunk.data a chunks b) (skip done : Nat) (hdone : done < page)
    (hskip : skip = 0 ∨ ∃ c cs, chunks = c :: cs ∧ skip < c.len) :
    pageTexts page skip done chunks = (pageSlices page skip done chunks).map Slice.textJson := by
  induction chunks generalizing a skip done with
  | nil => rfl
  | cons c cs ih =>
    obtain ⟨hstart, hlen, hrest⟩ := ht
    have hin : skip < c.len := by
      rcases hskip with rfl | ⟨c', cs', heq, h⟩
      · exact hlen
      · obtain ⟨rfl, rfl⟩ := List.cons.inj heq
        exact h
    have hcut : (if page < done + (c.len - skip) then page - done else c.len - skip) =
        min (c.len - skip) (page - done) := by
      split_ifs <;> omega
    have hpos : min (c.len - skip) (page - done) ≠ 0 := by omega
    simp only [pageTexts, pageSlices, hcut, hpos, min_eq_left hin.le, hpage, if_true, if_false,
      true_and, map_cons]
    congr 1
    split_ifs with hfull
    · rfl
    · exact ih hrest 0 _ (by omega) (.inl rfl)

def chunkSlice (c : Chunk Rat) : Slice := ⟨c.timestamp, c.seqStart, c.data⟩

theorem pageSlices_whole (done : Nat) (chunks : List (Chunk Rat)) :
    pageSlices 0 0 done chunks = chunks.map chunkSlice := by
  induction chunks generalizing done with
  | nil => rfl
  | cons c cs ih => simp [pageSlices, ih, chunkSlice, Chunk.len]

theorem suffixStart_spec (chunks : List (Chunk Rat)) (start total : Nat)
    (hs : start ≤ chunks.length) (ht : total ≤ maxHistoryResponseBytes) :
    suffixStart chunks start total ≤ start ∧
      total + (((chunks.take start).drop (suffixStart chunks start total)).map Chunk.len).sum ≤
        maxHistoryResponseBytes := by
  induction start generalizing total with
  | zero => simpa [suffixStart] using ht
  | succ n ih =>
    have hn : n < chunks.length := hs
    simp only [suffixStart, getElem?_eq_getElem hn, Option.map_some, Option.getD_some]
    split_ifs with hfit
    · obtain ⟨hle, hsum⟩ := ih (total + chunks[n].len) hn.le hfit
      refine ⟨by omega, ?_⟩
      rw [take_succ_eq_append_getElem hn, drop_append_of_le_length
        (by rw [length_take]; omega), map_append, sum_append]
      simp only [map_cons, map_nil, sum_cons, sum_nil]
      omega
    · refine ⟨le_rfl, ?_⟩
      rw [drop_of_length_le (by simp)]
      simpa using ht

theorem selectedChunks_suffix (rb : RingBuffer.Ring Rat) (root : Json) :
    ∃ k, selectedChunks .ok rb root = rb.chunks.drop k := by
  unfold selectedChunks
  dsimp only [HistoryAlloc.ok]
  split_ifs with h1 h2
  · unfold rbGetLastNBytes
    split_ifs with h
    · exact ⟨rb.count, by rw [drop_of_length_le (chunks_length rb).le]⟩
    · exact ⟨_, copyRange_suffix rb _⟩
  · exact ⟨_, copyRange_suffix rb _⟩
  · exact ⟨0, by simpa [rbGetAll] using copyRange_suffix rb 0⟩

def readData (chunk : Json) : Option Bytes := (chunk.getString "data").bind base64Decode

def Carries (resp : Json) (slices : List Slice) : Prop :=
  ∃ items, resp.getArray "chunks" = some items ∧
    items.map readData = slices.map (fun s => some s.data) ∧
    items.map (·.getNumber "timestamp") = slices.map fun s => some s.timestamp

def CarriesSeqs (resp : Json) (slices : List Slice) : Prop :=
  ∃ items, resp.getArray "chunks" = some items ∧
    items.map (·.getNumber "seq_start") = slices.map fun s => some (s.seqStart : Rat)

def CarriesTexts (resp : Json) (slices : List Slice) : Prop :=
  ∃ items, resp.getArray "chunks" = some items ∧
    items.map (·.getString "text") = slices.map fun s => some (s.data.filter (· ≠ 0))

structure CarriesCursor (resp : Json) (cursor dropped : Nat) (hasMore : Bool) : Prop where
  cursor : resp.getNumber "cursor" = some (cursor : Rat)
  dropped : resp.getNumber "dropped" = some (dropped : Rat)
  hasMore : resp.item "has_more" = some (.bool hasMore)

variable {resp : Json} {slices : List Slice}

theorem carries_of_chunks {hasCursor : Bool}
    (h : resp.getArray "chunks" = some (slices.map (Slice.json hasCursor))) :
    Carries resp slices := by
  refine ⟨_, h, ?_, ?_⟩ <;> rw [map_map] <;> apply map_congr_left <;> intro s _ <;>
    cases hasCursor <;>
    simp [Slice.json, chunkJson, readData, Json.getString, Json.getNumber, base64Decode_encode]

theorem carriesSeqs_of_chunks (h : resp.getArray "chunks" = some (slices.map (Slice.json true))) :
    CarriesSeqs resp slices := by
  refine ⟨_, h, ?_⟩
  rw [map_map]
  apply map_congr_left
  intro s _
  simp [Slice.json, chunkJson, Json.getNumber]

theorem carries_of_texts (h : resp.getArray "chunks" = some (slices.map Slice.textJson)) :
    CarriesTexts resp slices ∧ CarriesSeqs resp slices := by
  refine ⟨⟨_, h, ?_⟩, ⟨_, h, ?_⟩⟩ <;> rw [map_map] <;> apply map_congr_left <;>
    intro s _ <;> simp [Slice.textJson, textChunkJson, Json.getNumber, Json.getString]

/-- What a cursor request is answered: the stream bytes from the wanted position
to the cursor, cut into slices that carry their own positions, and the same
slices as text from the MCP page for the same request. -/
def CursorAnswer (rb : RingBuffer.Ring Rat) (S : Bytes) (sinceSeq : Nat) (maxBytes : Int)
    (resp : Json) : Prop :=
  ∃ (slices : List Slice) (cursor : Nat),
    slices.flatMap Slice.data = (S.drop (rb.want sinceSeq)).take (cursor - rb.want sinceSeq) ∧
    Tiles Slice.seqStart Slice.data (rb.want sinceSeq) slices (max (rb.want sinceSeq) cursor) ∧
    cursor ≤ S.length ∧ cursor - rb.want sinceSeq ≤ pageCap maxBytes ∧
    Carries resp slices ∧ CarriesSeqs resp slices ∧
    CarriesCursor resp cursor (rb.want sinceSeq - sinceSeq) (cursor < S.length) ∧
    CarriesTexts (historyJsonPage rb sinceSeq maxBytes) slices ∧
    CarriesSeqs (historyJsonPage rb sinceSeq maxBytes) slices ∧
    CarriesCursor (historyJsonPage rb sinceSeq maxBytes) cursor (rb.want sinceSeq - sinceSeq)
      (cursor < S.length)

/-- What the other requests are answered: the newest of the selected chunks,
whole, within the cap, and marked truncated when a selected chunk is missing. -/
def SuffixAnswer (rb : RingBuffer.Ring Rat) (S : Bytes) (root resp : Json) : Prop :=
  ∃ kept : List (Chunk Rat),
    kept <:+ selectedChunks .ok rb root ∧ selectedChunks .ok rb root <:+ rb.chunks ∧
    kept.flatMap Chunk.data <:+ S ∧
    (∃ first, Tiles Chunk.seqStart Chunk.data first kept S.length) ∧
    (kept.map Chunk.len).sum ≤ maxHistoryResponseBytes ∧
    Carries resp (kept.map chunkSlice) ∧
    (resp.getBool "truncated" false = true ↔ kept ≠ selectedChunks .ok rb root)

def Answer (undef : Rat → Nat) (rb : RingBuffer.Ring Rat) (S : Bytes) (root resp : Json) : Prop :=
  match root.getNumber "since_seq" with
  | some seq => CursorAnswer rb S (seqOfDouble undef seq) (root.getInt "max_bytes" 0) resp
  | none => SuffixAnswer rb S root resp

theorem pageCap_pos (maxBytes : Int) : 0 < pageCap maxBytes := by
  unfold pageCap maxHistoryResponseBytes
  split_ifs <;> omega

structure PageCut (rb : RingBuffer.Ring Rat) (S : Bytes) (sinceSeq cap : Nat) (page : Page Rat)
    (slices : List Slice) : Prop where
  bytes : slices.flatMap Slice.data =
    (S.drop (rb.want sinceSeq)).take (page.cursor - rb.want sinceSeq)
  tiles : Tiles Slice.seqStart Slice.data (rb.want sinceSeq) slices
    (max (rb.want sinceSeq) page.cursor)
  cursor_le : page.cursor ≤ S.length
  capped : page.cursor - rb.want sinceSeq ≤ cap
  dropped : page.dropped = rb.want sinceSeq - sinceSeq
  hasMore : page.hasMore = decide (page.cursor < S.length)
  texts : pageTexts cap page.firstSkip 0 page.chunks = slices.map Slice.textJson

variable {rb : RingBuffer.Ring Rat} {S : Bytes}

theorem pageCut (h : Retains rb S) (hf : FirstSeqOk rb) (sinceSeq : Nat) {cap : Nat}
    (hcap : 0 < cap) :
    PageCut rb S sinceSeq cap (rbGetSinceSeq true rb sinceSeq cap)
      (pageSlices cap (rbGetSinceSeq true rb sinceSeq cap).firstSkip 0
        (rbGetSinceSeq true rb sinceSeq cap).chunks) := by
  have hseq := h.totalSeq
  by_cases hs : sinceSeq ≤ rb.totalSeq
  · have hp := rbGetSinceSeq_spec h hf hs hcap
    have hstart := @rbGetSinceSeq_tiles _ cap S sinceSeq rb h hf
    set page := rbGetSinceSeq true rb sinceSeq cap
    have hle := hp.want_le
    have hcur := hp.cursor_le
    have hmore : page.hasMore = decide (page.cursor < S.length) := by
      rw [Bool.eq_iff_iff, hp.hasMore, hseq, decide_eq_true_iff]
    have hlen : (page.usable cap).length = page.cursor - rb.want sinceSeq := by
      rw [hp.bytes, length_take, length_drop]
      omega
    have hcut : (∃ e, Tiles Slice.seqStart Slice.data (rb.want sinceSeq)
        (pageSlices cap page.firstSkip 0 page.chunks) e) ∧
        (pageSlices cap page.firstSkip 0 page.chunks).flatMap Slice.data = page.usable cap ∧
        pageTexts cap page.firstSkip 0 page.chunks =
          (pageSlices cap page.firstSkip 0 page.chunks).map Slice.textJson := by
      by_cases hne : page.chunks = []
      · rw [hne]
        exact ⟨⟨_, rfl⟩, by simp [pageSlices, Page.usable, hne], rfl⟩
      · obtain ⟨first, rest, e, heq, htile, hwant, hin⟩ := hstart hne
        have henter : page.firstSkip = 0 ∨ ∃ c cs, first :: rest = c :: cs ∧
            page.firstSkip < c.len := .inr ⟨first, rest, rfl, hin⟩
        obtain ⟨htiles, hbytes⟩ := pageSlices_tiles hcap htile page.firstSkip 0 hcap henter
        rw [hwant] at htiles
        rw [Page.usable, heq]
        exact ⟨htiles, hbytes, pageTexts_eq hcap htile page.firstSkip 0 hcap henter⟩
    obtain ⟨⟨e, htiles⟩, hbytes, htexts⟩ := hcut
    have hend : e = page.cursor := by
      rw [tiles_end htiles, hbytes, hlen]
      omega
    refine ⟨hbytes.trans hp.bytes, ?_, hseq ▸ hcur, hp.capped, hp.dropped, hmore, htexts⟩
    rw [Nat.max_eq_right hle, ← hend]
    exact htiles
  · have hfirst : rb.firstSeq ≤ rb.totalSeq := by rw [hf]; exact Nat.sub_le _ _
    have hwant : rb.want sinceSeq = sinceSeq := by
      simp only [Ring.want]
      omega
    rw [rbGetSinceSeq_beyond true cap (Nat.le_of_lt (Nat.lt_of_not_le hs))]
    refine ⟨?_, ?_, hseq.le, ?_, ?_, by simp [hseq], rfl⟩
    · simp only [pageSlices, flatMap_nil]
      rw [Nat.sub_eq_zero_of_le (by omega), take_zero]
    · simp only [pageSlices, Tiles]
      omega
    · simp only
      omega
    · simp only
      omega

theorem cursorAnswer_of_cut {sinceSeq : Nat} {maxBytes : Int} (resp : Json)
    (h : PageCut rb S sinceSeq (pageCap maxBytes)
      (rbGetSinceSeq true rb sinceSeq (pageCap maxBytes)) slices)
    (hchunks : resp.getArray "chunks" = some (slices.map (Slice.json true)))
    (hcursor : CarriesCursor resp (rbGetSinceSeq true rb sinceSeq (pageCap maxBytes)).cursor
      (rbGetSinceSeq true rb sinceSeq (pageCap maxBytes)).dropped
      (rbGetSinceSeq true rb sinceSeq (pageCap maxBytes)).hasMore) :
    CursorAnswer rb S sinceSeq maxBytes resp := by
  have hpage : (historyJsonPage rb sinceSeq maxBytes).getArray "chunks" =
      some (slices.map Slice.textJson) := by
    rw [← h.texts]
    simp [historyJsonPage, addCursor, Json.getArray]
  have hmcp : CarriesCursor (historyJsonPage rb sinceSeq maxBytes)
      (rbGetSinceSeq true rb sinceSeq (pageCap maxBytes)).cursor
      (rbGetSinceSeq true rb sinceSeq (pageCap maxBytes)).dropped
      (rbGetSinceSeq true rb sinceSeq (pageCap maxBytes)).hasMore := by
    constructor <;> simp [historyJsonPage, addCursor, Json.getNumber]
  rw [h.dropped, h.hasMore] at hcursor hmcp
  obtain ⟨htexts, hseqs⟩ := carries_of_texts hpage
  exact ⟨slices, _, h.bytes, h.tiles, h.cursor_le, h.capped, carries_of_chunks hchunks,
    carriesSeqs_of_chunks hchunks, hcursor, htexts, hseqs, hmcp⟩

/-- What an accepted request makes of the slot: the answer is sent at once and
the slot stays free, or a job over at most `limit` chunks promises it. -/
inductive Accepted (clientId : Bytes) (limit : Nat) (resp : Json) :
    HistoryPending × Option Json → Prop where
  | atOnce (h : isHistoryResponse resp = true) :
    Accepted clientId limit resp (historyPendingClear, some resp)
  | job {p : HistoryPending} (active : p.active = true) (client : p.clientId = clientId)
    (room : HasRoom p) (index : p.encodeIndex = 0) (left : 0 < p.chunks.length)
    (few : p.chunks.length ≤ limit) (promised : promisedResponse p = resp) :
    Accepted clientId limit resp (p, none)

theorem ownedCopies_ok (chunks : List (Chunk Rat)) :
    ownedCopies .ok chunks = some (chunks.map fun c => { c with alloc := c.len }) := by
  simp [ownedCopies, HistoryAlloc.ok]

variable {clientId : Bytes}

theorem requestCursor_accepted (h : Retains rb S) (hf : FirstSeqOk rb)
    (hid : clientId.length < 32) (id : Option Bytes) (sinceSeq : Nat) (maxBytes : Int) :
    ∃ resp, CursorAnswer rb S sinceSeq maxBytes resp ∧ Accepted clientId rb.count resp
      (requestCursor .ok rb clientId id sinceSeq (pageCap maxBytes)) := by
  have hcap := pageCap_pos maxBytes
  have hcut := pageCut h hf sinceSeq hcap
  have hlen := rbGetSinceSeq_length rb sinceSeq (pageCap maxBytes)
  have hans := fun resp => cursorAnswer_of_cut resp hcut
  unfold requestCursor
  rw [show HistoryAlloc.ok.range = true from rfl]
  set page := rbGetSinceSeq true rb sinceSeq (pageCap maxBytes)
  dsimp only
  by_cases hempty : page.chunks.length = 0
  · rw [if_pos hempty]
    refine ⟨_, hans (addCursor (msgHistoryResponse (id.getD []) []) page.cursor page.dropped
      page.hasMore) ?_ ?_, .atOnce ?_⟩
    · simp [eq_nil_of_length_eq_zero hempty, pageSlices, addCursor, msgHistoryResponse,
        makeMsg, Json.getArray]
    · constructor <;> simp [addCursor, msgHistoryResponse, makeMsg, Json.getNumber]
    · simp [isHistoryResponse, addCursor, msgHistoryResponse, makeMsg, Json.getString]
  · rw [if_neg hempty, ownedCopies_ok]
    refine ⟨_, hans _ ?_ ?_, .job rfl (stored_fits hid) ?_ rfl ?_ ?_ rfl⟩
    · simp [promisedResponse, promisedArr, pendingResponse, pageSlices_owned, addCursor,
        msgHistoryResponse, makeMsg, Json.getArray]
    · constructor <;> simp [promisedResponse, pendingResponse, addCursor, msgHistoryResponse,
        makeMsg, Json.getNumber]
    · exact fun _ _ => hcap
    · simpa using Nat.pos_of_ne_zero hempty
    · simpa using hlen

theorem suffix_kept (h : Retains rb S) (root resp : Json)
    (hcarries : Carries resp (((selectedChunks .ok rb root).drop
      (suffixStart (selectedChunks .ok rb root) (selectedChunks .ok rb root).length 0)).map
        chunkSlice)) (htrunc : resp.getBool "truncated" false = decide (0 <
      suffixStart (selectedChunks .ok rb root) (selectedChunks .ok rb root).length 0)) :
    SuffixAnswer rb S root resp := by
  obtain ⟨k, hk⟩ := selectedChunks_suffix rb root
  obtain ⟨hle, hsum⟩ := suffixStart_spec (selectedChunks .ok rb root) _ 0 le_rfl (Nat.zero_le _)
  set start := suffixStart (selectedChunks .ok rb root) (selectedChunks .ok rb root).length 0
  rw [take_length, Nat.zero_add] at hsum
  have hsuffix : (selectedChunks .ok rb root).drop start <:+ rb.chunks := by
    rw [hk, drop_drop]
    exact drop_suffix _ _
  refine ⟨(selectedChunks .ok rb root).drop start, drop_suffix _ _,
    hk ▸ drop_suffix _ _, ?_, ?_, hsum, hcarries, ?_⟩
  · obtain ⟨before, heq⟩ := hsuffix
    have hbytes := h.suffix
    rw [← heq, flatMap_append] at hbytes
    exact (suffix_append _ _).trans (hbytes ▸ drop_suffix _ _)
  · obtain ⟨before, heq⟩ := hsuffix
    obtain ⟨m, -, hm⟩ := tiles_append.mp (heq ▸ h.tiles)
    exact ⟨m, hm⟩
  · rw [htrunc, decide_eq_true_iff, ne_eq]
    constructor
    · intro hpos heq
      have := congrArg List.length heq
      rw [length_drop] at this
      omega
    · intro hne
      by_contra hzero
      exact hne (by rw [Nat.eq_zero_of_not_pos hzero, drop_zero])

theorem requestSuffix_accepted (h : Retains rb S) (hid : clientId.length < 32) (id : Option Bytes)
    (root : Json) :
    ∃ resp, SuffixAnswer rb S root resp ∧ Accepted clientId rb.count resp
      (requestSuffix .ok rb clientId id root) := by
  obtain ⟨k, hk⟩ := selectedChunks_suffix rb root
  have hans := fun resp => suffix_kept h root resp
  have hlen : (selectedChunks .ok rb root).length ≤ rb.count := by
    rw [hk, length_drop, chunks_length]
    omega
  unfold requestSuffix
  dsimp only
  set selected := selectedChunks .ok rb root
  set start := suffixStart selected selected.length 0
  by_cases hempty : selected.length - start = 0
  · rw [if_pos hempty]
    refine ⟨_, hans (if decide (0 < start) then (msgHistoryResponse (id.getD []) []).add
      "truncated" (.bool true) else msgHistoryResponse (id.getD []) []) ?_ ?_, .atOnce ?_⟩
    · rw [drop_of_length_le (by omega), map_nil]
      refine ⟨[], ?_, rfl, rfl⟩
      split_ifs <;> simp [msgHistoryResponse, makeMsg, Json.getArray]
    · split_ifs with hpos <;>
        simpa [msgHistoryResponse, makeMsg, Json.getBool] using hpos
    · split_ifs <;> simp [isHistoryResponse, msgHistoryResponse, makeMsg, Json.getString]
  · rw [if_neg hempty, ownedCopies_ok]
    refine ⟨_, hans _ ?_ ?_, .job rfl (stored_fits hid) ?_ rfl ?_ ?_ rfl⟩
    · refine @carries_of_chunks _ _ false ?_
      simp only [promisedResponse, promisedArr, pendingResponse, pageSlices_owned,
        pageSlices_whole, nil_append, if_true, drop_zero, Bool.false_eq_true, if_false]
      split_ifs <;> simp [msgHistoryResponse, makeMsg, Json.getArray]
    · simp only [promisedResponse, pendingResponse, Bool.false_eq_true, if_false]
      split_ifs with hpos <;>
        simpa [msgHistoryResponse, makeMsg, Json.getBool] using hpos
    · exact fun _ h => absurd h (lt_irrefl 0)
    · simpa using Nat.pos_of_ne_zero hempty
    · simp only [length_map, length_drop]
      omega

theorem handleHistoryRequest_accepted (h : Retains rb S) (hf : FirstSeqOk rb) (undef : Rat → Nat)
    (hid : clientId.length < 32) (root : Json) :
    ∃ resp, Answer undef rb S root resp ∧ Accepted clientId rb.count resp
      (handleHistoryRequest .ok undef rb historyPendingClear clientId root) := by
  unfold handleHistoryRequest Answer
  simp only [historyPendingClear, Bool.false_eq_true, if_false]
  cases root.getNumber "since_seq" with
  | some seq => exact requestCursor_accepted h hf hid _ _ _
  | none => exact requestSuffix_accepted h hid _ root

/-- A history response is a consistent snapshot. The answer to an accepted
request is fixed by the ring it was made on. Whatever turns follow, with appends
and rival requests among them, it is the first response sent, at the latest when
there have been as many processing turns as the ring had chunks; and by then the
slot is free, whether or not the requester is still connected. -/
theorem history_response_snapshot (maxBytes : Nat) (ops : List (Bytes × Rat))
    (undef : Rat → Nat) {clientId : Bytes} (hid : clientId.length < 32) (root : Json) :
    let rb := runAppends maxBytes ops
    let asked := Service.step undef ⟨rb, historyPendingClear, []⟩ (.request .ok clientId root)
    ∃ resp, Answer undef rb (ops.flatMap Prod.fst) root resp ∧ ∀ turns : List Turn,
      ((∀ t ∈ turns, t.Connected clientId) →
        ((asked.run undef turns).responses = [] ∧ turns.countP Turn.isProcess < rb.count) ∨
        ∃ rest, (asked.run undef turns).responses = (clientId, resp) :: rest ∧
          ((∀ t ∈ turns, t.isRequest = false) →
            rest = [] ∧ (asked.run undef turns).pending = historyPendingClear)) ∧
      ((∀ t ∈ turns, t.isRequest = false) → rb.count ≤ turns.countP Turn.isProcess →
        (asked.run undef turns).pending = historyPendingClear) := by
  intro rb asked
  obtain ⟨h1, h2, -, -⟩ := foldl_retains ops (rbInit maxBytes) [] (rbInit_retains maxBytes)
    rfl (by simp [rbInit])
  obtain ⟨resp, hans, hacc⟩ := handleHistoryRequest_accepted h1 h2 undef hid root
  refine ⟨resp, hans, fun turns => ?_⟩
  generalize hres : handleHistoryRequest .ok undef _ historyPendingClear clientId root = r at hacc
  have hasked : asked = ⟨rb, r.1, (r.2.map (clientId, ·)).toList⟩ := by
    rw [← hres]
    rfl
  cases hacc with
  | atOnce hresp =>
    have hfree : asked.pending = historyPendingClear := by rw [hasked]
    have hsent : asked.responses = [(clientId, resp)] := by
      simp [hasked, Service.responses, hresp]
    refine ⟨fun _ => .inr ?_, fun hquiet _ => (run_idle undef turns hfree hquiet).1⟩
    obtain ⟨rest, hrest⟩ := run_responses_prefix undef turns (s := asked)
    rw [hsent] at hrest
    refine ⟨rest, hrest.symm, fun hquiet => ?_⟩
    obtain ⟨hclear, hsame⟩ := run_idle undef turns hfree hquiet
    rw [hsent, ← hrest] at hsame
    exact ⟨by simpa using hsame, hclear⟩
  | @job p active client room index left few promised =>
    have hjob : Job clientId resp asked := by
      rw [hasked]
      exact ⟨active, client, room, by rw [index]; exact left, promised, rfl⟩
    have hfew : asked.remaining ≤ rb.count := by
      rw [hasked]
      exact (Nat.sub_le _ _).trans few
    refine ⟨fun hconn => ?_, fun hquiet henough =>
      hjob.run_released undef turns hquiet (hfew.trans henough)⟩
    rcases hjob.run_answers undef turns hconn with ⟨hstill, hcount⟩ | hdone
    · exact .inl ⟨hstill.silent, hcount.trans_le hfew⟩
    · exact .inr hdone

theorem history_response_three_bytes :
    let rb := runAppends 8 [([104, 105, 10], (1 : Rat))]
    let root := Json.obj [("type", .str (ascii "history_request")), ("since_seq", .num 0)]
    let turns := List.replicate rb.count (Turn.process [ascii "client-1"])
    ∃ resp, Answer (fun _ => 0) rb [104, 105, 10] root resp ∧
      (Service.run (fun _ => 0) (Service.step (fun _ => 0) ⟨rb, historyPendingClear, []⟩
        (.request .ok (ascii "client-1") root)) turns).responses =
        [(ascii "client-1", resp)] := by
  intro rb root turns
  obtain ⟨resp, hans, hrun⟩ := history_response_snapshot 8 [([104, 105, 10], 1)] (fun _ => 0)
    (show (ascii "client-1").length < 32 by decide) root
  have hconn : ∀ t ∈ turns, t.Connected (ascii "client-1") := by
    intro t ht
    rw [eq_of_mem_replicate ht]
    exact mem_singleton.mpr rfl
  have hquiet : ∀ t ∈ turns, t.isRequest = false := by
    intro t ht
    rw [eq_of_mem_replicate ht]
    rfl
  rcases (hrun turns).1 hconn with ⟨-, hcount⟩ | ⟨rest, hsent, hrest⟩
  · simp [turns, rb, countP_replicate, Turn.isProcess] at hcount
  · rw [(hrest hquiet).1] at hsent
    exact ⟨resp, hans, hsent⟩

end Smolmux.History
