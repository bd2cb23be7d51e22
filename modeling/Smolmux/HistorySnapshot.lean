import Mathlib.Tactic.Linarith
import Smolmux.History

/-! A history response is a snapshot. What a request will be answered is fixed
when it is accepted: the slices of the copied chunks that the turns of the event
loop encode one after the other do not depend on how the turns fall. The slices
of a cursor request tile the stream from the wanted position to the cursor. The
MCP page shows the same slices as text. -/

namespace Smolmux.History
open RingBuffer Protocol List

structure Slice where
  timestamp : Rat
  seqStart : Nat
  data : Bytes

def Slice.json (hasCursor : Bool) (s : Slice) : Json :=
  chunkJson hasCursor s.timestamp s.seqStart s.data

/-- The slices of a run of chunks entered at `skip`, with `done` bytes of the
page used; a page of 0 has no cap. -/
def pageSlices (page : Nat) : (skip done : Nat) → List (Chunk Rat) → List Slice
  | _, _, [] => []
  | skip, done, c :: cs =>
    let off := min skip c.len
    let len := if 0 < page then min (c.len - off) (page - done) else c.len - off
    ⟨c.timestamp, c.seqStart + off, (c.data.drop off).take len⟩ ::
      if 0 < page ∧ page ≤ done + len then [] else pageSlices page 0 (done + len) cs

def promisedArr (p : HistoryPending) : List Json :=
  p.responseArr ++ (pageSlices p.pageBytes (if p.encodeIndex = 0 then p.firstSkip else 0)
    p.bytesEncoded (p.chunks.drop p.encodeIndex)).map (Slice.json p.hasCursor)

def HasRoom (p : HistoryPending) : Prop :=
  p.encodeIndex < p.chunks.length → 0 < p.pageBytes → p.bytesEncoded < p.pageBytes

structure Continues (p q : HistoryPending) : Prop where
  job : ∃ arr bytes i,
    q = { p with responseArr := arr, bytesEncoded := bytes, encodeIndex := i }
  promised : promisedArr q = promisedArr p
  room : HasRoom q
  index_le : p.encodeIndex ≤ q.encodeIndex

variable {p : HistoryPending}

theorem Continues.refl (h : HasRoom p) : Continues p p :=
  ⟨⟨_, _, _, rfl⟩, rfl, h, le_rfl⟩

theorem Continues.trans {q r : HistoryPending} (h₁ : Continues p q) (h₂ : Continues q r) :
    Continues p r := by
  refine ⟨?_, h₂.promised.trans h₁.promised, h₂.room, h₁.index_le.trans h₂.index_le⟩
  obtain ⟨_, _, _, rfl⟩ := h₁.job
  obtain ⟨_, _, _, rfl⟩ := h₂.job
  exact ⟨_, _, _, rfl⟩

theorem encodeChunk_continues {ch : Chunk Rat} (hch : p.chunks[p.encodeIndex]? = some ch) : Continues p (encodeChunk p ch) := by
  obtain ⟨hlt, hget⟩ := List.getElem?_eq_some_iff.mp hch
  have hdrop : p.chunks.drop p.encodeIndex = ch :: p.chunks.drop (p.encodeIndex + 1) := by
    rw [drop_eq_getElem_cons hlt, hget]
  refine ⟨⟨_, _, _, rfl⟩, ?_, ?_, ?_⟩
  · have hoff : min (if p.encodeIndex = 0 then p.firstSkip else 0) ch.len = chunkOff p ch := by
      unfold chunkOff
      split_ifs <;> simp
    simp only [promisedArr, encodeChunk, hdrop, pageSlices, hoff, map_cons, chunkTake]
    split_ifs <;> simp_all [Slice.json, pageSlices]
  · intro hleft hpage
    simp only [encodeChunk] at hleft hpage ⊢
    split_ifs at hleft with hfull
    · omega
    · omega
  · simp only [encodeChunk]
    split_ifs <;> omega

theorem encodeChunks_continues (chunksLeft bytesDone : Nat) (h : HasRoom p) : Continues p (encodeChunks chunksLeft bytesDone p) := by
  induction chunksLeft generalizing bytesDone p with
  | zero => exact .refl h
  | succ n ih =>
    unfold encodeChunks
    split
    · exact .refl h
    · rename_i ch hch
      have hstep := encodeChunk_continues hch
      split_ifs
      · exact .refl h
      · exact .refl h
      · exact hstep.trans (ih _ hstep.room)

theorem encodeChunks_progress (h : HasRoom p) (hleft : p.encodeIndex < p.chunks.length) :
    p.encodeIndex < (encodeChunks historyEncodeMaxChunks 0 p).encodeIndex := by
  have hch : p.chunks[p.encodeIndex]? = some p.chunks[p.encodeIndex] :=
    getElem?_eq_getElem hleft
  have hroom := h hleft
  have hstep := encodeChunk_continues hch
  have hnext : p.encodeIndex < (encodeChunk p p.chunks[p.encodeIndex]).encodeIndex := by
    simp only [encodeChunk]
    split_ifs <;> omega
  unfold encodeChunks historyEncodeMaxChunks
  simp only [hch]
  rw [if_neg (by decide), if_neg (by omega)]
  exact hnext.trans_le (encodeChunks_continues _ _ hstep.room).index_le

def promisedResponse (p : HistoryPending) : Json :=
  pendingResponse { p with responseArr := promisedArr p }

theorem Continues.response {q : HistoryPending} (h : Continues p q) :
    promisedResponse q = promisedResponse p := by
  have hpromised := h.promised
  obtain ⟨_, _, _, rfl⟩ := h.job
  simp only [promisedResponse, pendingResponse, hpromised]

theorem promisedResponse_done (h : p.chunks.length ≤ p.encodeIndex) :
    promisedResponse p = pendingResponse p := by
  simp [promisedResponse, promisedArr, drop_eq_nil_of_le h, pageSlices]

theorem find_client (ids : List Bytes) (id : Bytes) :
    ids.find? (· == id) = if id ∈ ids then some id else none := by
  induction ids with
  | nil => rfl
  | cons x xs ih =>
    by_cases h : x = id
    · simp [h]
    · simp [ih, beq_eq_false_iff_ne.mpr h, Ne.symm h]

/-- A turn of an active job either moves it forward or ends it, and the slot is
free again whether or not the requester is still there. -/
theorem processHistoryPending_spec (hactive : p.active) (hroom : HasRoom p)
    (hleft : p.encodeIndex < p.chunks.length) (ids : List Bytes) :
    (∃ q, processHistoryPending p ids = (q, none) ∧ Continues p q ∧
      p.encodeIndex < q.encodeIndex ∧ q.encodeIndex < q.chunks.length) ∨
    processHistoryPending p ids = (historyPendingClear,
      if p.clientId ∈ ids then some (p.clientId, promisedResponse p) else none) := by
  have hcont := encodeChunks_continues historyEncodeMaxChunks 0 hroom
  have hprogress := encodeChunks_progress hroom hleft
  unfold processHistoryPending
  simp only [hactive, if_true]
  by_cases hmore : (encodeChunks historyEncodeMaxChunks 0 p).encodeIndex <
      (encodeChunks historyEncodeMaxChunks 0 p).chunks.length
  · rw [if_pos hmore]
    exact .inl ⟨_, rfl, hcont, hprogress, hmore⟩
  · right
    have hresp := hcont.response
    rw [promisedResponse_done (Nat.le_of_not_lt hmore)] at hresp
    have hclient : (encodeChunks historyEncodeMaxChunks 0 p).clientId = p.clientId := by
      obtain ⟨_, _, _, heq⟩ := hcont.job
      rw [heq]
    rw [if_neg hmore, hresp, hclient, find_client]
    split_ifs <;> rfl

structure Service where
  ring : RingBuffer.Ring Rat
  pending : HistoryPending
  sent : List (Bytes × Json)

inductive Turn where
  | append (mem : Alloc) (data : Bytes) (ts : Rat)
  | process (ids : List Bytes)
  | request (mem : HistoryAlloc) (clientId : Bytes) (root : Json)

def Turn.isProcess : Turn → Bool
  | process _ => true
  | _ => false

def Turn.isRequest : Turn → Bool
  | request .. => true
  | _ => false

def Turn.Connected (clientId : Bytes) : Turn → Prop
  | process ids => clientId ∈ ids
  | _ => True

def Service.step (undef : Rat → Nat) (s : Service) : Turn → Service
  | .append mem data ts => { s with ring := rbAppend mem s.ring data ts }
  | .process ids =>
    let (pending, sent) := processHistoryPending s.pending ids
    { s with pending := pending, sent := s.sent ++ sent.toList }
  | .request mem clientId root =>
    let (pending, reply) := handleHistoryRequest mem undef s.ring s.pending clientId root
    { s with pending := pending, sent := s.sent ++ (reply.map (clientId, ·)).toList }

def Service.run (undef : Rat → Nat) (s : Service) (turns : List Turn) : Service :=
  turns.foldl (Service.step undef) s

def isHistoryResponse (msg : Json) : Bool :=
  msg.getString "type" == some (ascii "history_response")

def Service.responses (s : Service) : List (Bytes × Json) :=
  s.sent.filter fun m => isHistoryResponse m.2

theorem isHistoryResponse_pending (p : HistoryPending) :
    isHistoryResponse (pendingResponse p) := by
  unfold pendingResponse addCursor
  split_ifs <;> simp [isHistoryResponse, msgHistoryResponse, makeMsg, Json.getString]

theorem isHistoryResponse_error (id : Option Bytes) (text : Bytes) :
    isHistoryResponse (msgError id text) = false := by
  simp only [isHistoryResponse, msgError, makeMsg, Json.getString, Json.add_obj,
    cons_append, Json.item_obj_cons, if_true]
  decide

/-- The slot holds an unfinished job that will answer `clientId` with `resp`, and
no response has been sent. -/
structure Job (clientId : Bytes) (resp : Json) (s : Service) : Prop where
  active : s.pending.active = true
  client : s.pending.clientId = clientId
  room : HasRoom s.pending
  left : s.pending.encodeIndex < s.pending.chunks.length
  promised : promisedResponse s.pending = resp
  silent : s.responses = []

def Service.remaining (s : Service) : Nat := s.pending.chunks.length - s.pending.encodeIndex

variable {clientId : Bytes} {resp : Json} {s : Service} (undef : Rat → Nat)

/-- What one turn does to a job: appends and rival requests leave it alone, and
a processing turn moves it forward or ends it. -/
theorem Job.step (h : Job clientId resp s) (t : Turn) :
    (Job clientId resp (s.step undef t) ∧
      (s.step undef t).remaining + t.isProcess.toNat ≤ s.remaining) ∨
    ∃ ids, t = .process ids ∧ (s.step undef t).pending = historyPendingClear ∧
      (s.step undef t).responses = if clientId ∈ ids then [(clientId, resp)] else [] := by
  cases t with
  | append mem data ts => exact .inl ⟨⟨h.1, h.2, h.3, h.4, h.5, h.6⟩, le_rfl⟩
  | request mem id root =>
    have hbusy : handleHistoryRequest mem undef s.ring s.pending id root = (s.pending,
        some (msgError (root.getString "id") (ascii "history request already in progress"))) := by
      simp [handleHistoryRequest, h.active]
    have hsilent : (s.step undef (.request mem id root)).responses = [] := by
      have hnone : s.sent.filter (fun m => isHistoryResponse m.2) = [] := h.silent
      simp [Service.step, Service.responses, hbusy, hnone, isHistoryResponse_error]
    have hpending : (s.step undef (.request mem id root)).pending = s.pending := by
      simp only [Service.step, hbusy]
    refine .inl ⟨⟨?_, ?_, ?_, ?_, ?_, hsilent⟩, ?_⟩
    all_goals simp only [Service.remaining, hpending]
    exacts [h.active, h.client, h.room, h.left, h.promised, le_rfl]
  | process ids =>
    have hnone : s.sent.filter (fun m => isHistoryResponse m.2) = [] := h.silent
    have hleft := h.left
    rcases processHistoryPending_spec h.active h.room h.left ids with
      ⟨q, hq, hcont, hlt, hmore⟩ | hdone
    · refine .inl ⟨?_, ?_⟩
      · have hresp := hcont.response
        have hroom := hcont.room
        obtain ⟨arr, bytes, i, hjob⟩ := hcont.job
        constructor <;> simp only [Service.step, hq]
        · rw [hjob, h.active]
        · rw [hjob, h.client]
        · exact hroom
        · exact hmore
        · exact hresp.trans h.promised
        · simpa [Service.responses] using hnone
      · obtain ⟨arr, bytes, i, hjob⟩ := hcont.job
        have hlen : q.chunks.length = s.pending.chunks.length := by rw [hjob]
        simp only [Service.step, Service.remaining, hq, Turn.isProcess, Bool.toNat_true]
        omega
    · refine .inr ⟨ids, rfl, by simp [Service.step, hdone], ?_⟩
      simp only [Service.step, Service.responses, hdone, h.client, h.promised, filter_append,
        hnone, nil_append]
      have hresp : isHistoryResponse resp := h.promised ▸ isHistoryResponse_pending _
      split_ifs <;> simp [hresp]

theorem run_idle (turns : List Turn) (hfree : s.pending = historyPendingClear)
    (hquiet : ∀ t ∈ turns, t.isRequest = false) :
    (s.run undef turns).pending = historyPendingClear ∧
      (s.run undef turns).responses = s.responses := by
  induction turns generalizing s with
  | nil => exact ⟨hfree, rfl⟩
  | cons t ts ih =>
    have hstep : (s.step undef t).pending = historyPendingClear ∧
        (s.step undef t).responses = s.responses := by
      cases t with
      | append mem data ts => exact ⟨hfree, rfl⟩
      | request mem id root => simp [Turn.isRequest] at hquiet
      | process ids =>
        simp [Service.step, Service.responses, hfree, processHistoryPending, historyPendingClear]
    obtain ⟨h1, h2⟩ := ih hstep.1 fun t ht => hquiet t (mem_cons_of_mem _ ht)
    exact ⟨h1, h2.trans hstep.2⟩

theorem run_responses_prefix (turns : List Turn) :
    s.responses <+: (s.run undef turns).responses := by
  induction turns generalizing s with
  | nil => exact prefix_rfl
  | cons t ts ih =>
    refine List.IsPrefix.trans ?_ ih
    cases t <;> simp [Service.step, Service.responses]

theorem Job.run_answers (h : Job clientId resp s) (turns : List Turn)
    (hconn : ∀ t ∈ turns, t.Connected clientId) :
    (Job clientId resp (s.run undef turns) ∧ turns.countP Turn.isProcess < s.remaining) ∨
    ∃ rest, (s.run undef turns).responses = (clientId, resp) :: rest ∧
      ((∀ t ∈ turns, t.isRequest = false) →
        rest = [] ∧ (s.run undef turns).pending = historyPendingClear) := by
  induction turns generalizing s with
  | nil =>
    refine .inl ⟨h, ?_⟩
    have := h.left
    simp only [countP_nil, Service.remaining]
    omega
  | cons t ts ih =>
    have hrest : ∀ t ∈ ts, t.Connected clientId := fun t ht => hconn t (mem_cons_of_mem _ ht)
    rcases h.step undef t with ⟨hjob, hrem⟩ | ⟨ids, rfl, hfree, hresp⟩
    · rcases ih hjob hrest with ⟨hjob', hcount⟩ | ⟨rest, hsent, hquiet⟩
      · refine .inl ⟨hjob', ?_⟩
        rw [countP_cons]
        cases ht : t.isProcess <;> simp [ht] at hrem ⊢ <;> omega
      · exact .inr ⟨rest, hsent, fun hq => hquiet fun t ht => hq t (mem_cons_of_mem _ ht)⟩
    · right
      have hin : clientId ∈ ids := hconn _ (mem_cons_self ..)
      rw [if_pos hin] at hresp
      obtain ⟨rest, hpre⟩ := run_responses_prefix undef ts (s := s.step undef (.process ids))
      rw [hresp] at hpre
      refine ⟨rest, hpre.symm, fun hq => ?_⟩
      obtain ⟨h1, h2⟩ := run_idle undef ts hfree fun t ht => hq t (mem_cons_of_mem _ ht)
      rw [hresp, ← hpre] at h2
      exact ⟨by simpa using h2, h1⟩

theorem Job.run_released (h : Job clientId resp s) (turns : List Turn)
    (hquiet : ∀ t ∈ turns, t.isRequest = false)
    (henough : s.remaining ≤ turns.countP Turn.isProcess) :
    (s.run undef turns).pending = historyPendingClear := by
  induction turns generalizing s with
  | nil =>
    have := h.left
    simp only [countP_nil, Service.remaining] at henough
    omega
  | cons t ts ih =>
    have hrest : ∀ t ∈ ts, t.isRequest = false := fun t ht => hquiet t (mem_cons_of_mem _ ht)
    rcases h.step undef t with ⟨hjob, hrem⟩ | ⟨ids, rfl, hfree, -⟩
    · refine ih hjob hrest ?_
      rw [countP_cons] at henough
      cases ht : t.isProcess <;> simp [ht] at hrem henough <;> omega
    · exact (run_idle undef ts hfree hrest).1

end Smolmux.History
