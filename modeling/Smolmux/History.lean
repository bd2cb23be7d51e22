import Smolmux.Protocol
import Smolmux.RingReaders

/-! Answers to history requests (`broker.c`) and the MCP history page
(`mcp_tools.c`). The broker copies the selected chunks at request time and
encodes them over several turns of its event loop, a few chunks and a bounded
number of bytes at a time; one request is served at a time. The MCP page is
encoded in one go from the same ring reader. -/

namespace Smolmux.History
open RingBuffer Protocol Base64

def maxHistoryResponseBytes : Nat := 512 * 1024

def historyEncodeMaxChunks : Nat := 4

def historyEncodeMaxBytes : Nat := 32 * 1024

structure HistoryPending where
  active : Bool
  clientId : Bytes
  msgId : Bytes
  chunks : List (Chunk Rat)
  encodeIndex : Nat
  responseArr : List Json
  truncated : Bool
  hasCursor : Bool
  cursor : Nat
  dropped : Nat
  hasMore : Bool
  firstSkip : Nat
  pageBytes : Nat
  bytesEncoded : Nat

def historyPendingClear : HistoryPending :=
  ⟨false, [], [], [], 0, [], false, false, 0, 0, false, 0, 0, 0⟩

def chunkJson (hasCursor : Bool) (timestamp : Rat) (seqStart : Nat) (data : Bytes) : Json :=
  let chunk := ((Json.obj []).add "data" (.str (base64Encode data))).add "timestamp"
    (.num timestamp)
  if hasCursor then chunk.add "seq_start" (.num seqStart) else chunk

def chunkOff (p : HistoryPending) (ch : Chunk Rat) : Nat :=
  if p.encodeIndex = 0 then min p.firstSkip ch.len else 0

def chunkTake (p : HistoryPending) (ch : Chunk Rat) : Nat :=
  let len := ch.len - chunkOff p ch
  if 0 < p.pageBytes then min len (p.pageBytes - p.bytesEncoded) else len

/-- The body of the encoding loop. A full page skips the chunks that remain. -/
def encodeChunk (p : HistoryPending) (ch : Chunk Rat) : HistoryPending :=
  let off := chunkOff p ch
  let len := chunkTake p ch
  let encoded := p.bytesEncoded + len
  { p with
    responseArr := p.responseArr ++
      [chunkJson p.hasCursor ch.timestamp (ch.seqStart + off) ((ch.data.drop off).take len)]
    bytesEncoded := encoded
    encodeIndex :=
      if 0 < p.pageBytes ∧ p.pageBytes ≤ encoded then p.chunks.length else p.encodeIndex + 1 }

/-- The encoding loop of one turn, with `chunksLeft` chunks of its budget to go
and `bytesDone` bytes of the other one used. -/
def encodeChunks : (chunksLeft bytesDone : Nat) → HistoryPending → HistoryPending
  | 0, _, p => p
  | chunksLeft + 1, bytesDone, p =>
    match p.chunks[p.encodeIndex]? with
    | none => p
    | some ch =>
      if historyEncodeMaxBytes ≤ bytesDone then p
      else if 0 < p.pageBytes ∧ p.pageBytes - p.bytesEncoded = 0 then p
      else encodeChunks chunksLeft (bytesDone + chunkTake p ch) (encodeChunk p ch)

def addCursor (resp : Json) (cursor dropped : Nat) (hasMore : Bool) : Json :=
  ((resp.add "cursor" (.num cursor)).add "dropped" (.num dropped)).add "has_more" (.bool hasMore)

def pendingResponse (p : HistoryPending) : Json :=
  let resp := msgHistoryResponse p.msgId p.responseArr
  let resp := if p.truncated then resp.add "truncated" (.bool true) else resp
  if p.hasCursor then addCursor resp p.cursor p.dropped p.hasMore else resp

/-- One turn: the slot behind it, and the line sent with the id of its receiver.
`ids` are the ids of the connected clients. -/
def processHistoryPending (p : HistoryPending) (ids : List Bytes) :
    HistoryPending × Option (Bytes × Json) :=
  if p.active then
    let p' := encodeChunks historyEncodeMaxChunks 0 p
    if p'.encodeIndex < p'.chunks.length then (p', none)
    else
      let target := ids.find? (· == p'.clientId)
      (historyPendingClear, target.map fun id => (id, pendingResponse p'))
  else (p, none)

/-- Outcomes of the allocations a request makes: the range copied out of the
ring, the table of owned chunks, and one buffer for each. -/
structure HistoryAlloc where
  range : Bool
  table : Bool
  buffers : Nat → Bool

def HistoryAlloc.ok : HistoryAlloc := ⟨true, true, fun _ => true⟩

def ownedCopies (mem : HistoryAlloc) (chunks : List (Chunk Rat)) : Option (List (Chunk Rat)) :=
  if mem.table && (List.range chunks.length).all mem.buffers then
    some (chunks.map fun c => { c with alloc := c.len })
  else none

def pageCap (maxBytes : Int) : Nat :=
  if maxBytes ≤ 0 then maxHistoryResponseBytes
  else if (maxHistoryResponseBytes : Int) < maxBytes then maxHistoryResponseBytes
  else maxBytes.toNat

/-- `(uint64_t)seq_d` of a `since_seq` that is first raised to zero. The
conversion is undefined from 2^64 on; `undef` is what the machine makes of it. -/
def seqOfDouble (undef : Rat → Nat) (seq : Rat) : Nat :=
  if seq < 0 then 0 else if seq < 2 ^ 64 then seq.floor.toNat else undef seq

/-- Walk back from the newest selected chunk while the response cap allows. -/
def suffixStart (chunks : List (Chunk Rat)) : (start total : Nat) → Nat
  | 0, _ => 0
  | start + 1, total =>
    let len := (chunks[start]?.map Chunk.len).getD 0
    if total + len ≤ maxHistoryResponseBytes then suffixStart chunks start (total + len)
    else start + 1

def selectedChunks (mem : HistoryAlloc) (rb : RingBuffer.Ring Rat) (root : Json) :
    List (Chunk Rat) :=
  let sinceTs := root.getDouble "since_ts" 0
  let lastBytes := root.getInt "last_bytes" 0
  if 0 < lastBytes then rbGetLastNBytes mem.range rb lastBytes.toNat
  else if 0 < sinceTs then rbGetSince mem.range (fun a b => b ≤ a) rb sinceTs
  else rbGetAll mem.range rb

def requestCursor (mem : HistoryAlloc) (rb : RingBuffer.Ring Rat) (clientId : Bytes)
    (id : Option Bytes) (sinceSeq cap : Nat) : HistoryPending × Option Json :=
  let page := rbGetSinceSeq mem.range rb sinceSeq cap
  if page.chunks.length = 0 then
    (historyPendingClear, some (addCursor (msgHistoryResponse (id.getD []) [])
      page.cursor page.dropped page.hasMore))
  else
    match ownedCopies mem page.chunks with
    | none => (historyPendingClear, some (msgError id (ascii "out of memory")))
    | some owned =>
      (⟨true, stored 32 clientId, stored 64 (id.getD []), owned, 0, [], false, true, page.cursor,
        page.dropped, page.hasMore, page.firstSkip, cap, 0⟩, none)

def requestSuffix (mem : HistoryAlloc) (rb : RingBuffer.Ring Rat) (clientId : Bytes)
    (id : Option Bytes) (root : Json) : HistoryPending × Option Json :=
  let chunks := selectedChunks mem rb root
  let start := suffixStart chunks chunks.length 0
  let truncated : Bool := 0 < start
  if chunks.length - start = 0 then
    let resp := msgHistoryResponse (id.getD []) []
    (historyPendingClear, some (if truncated then resp.add "truncated" (.bool true) else resp))
  else
    match ownedCopies mem (chunks.drop start) with
    | none => (historyPendingClear, some (msgError id (ascii "out of memory")))
    | some owned =>
      (⟨true, stored 32 clientId, stored 64 (id.getD []), owned, 0, [], truncated, false, 0, 0,
        false, 0, 0, 0⟩, none)

/-- The slot behind a request, and what the requester is sent at once. -/
def handleHistoryRequest (mem : HistoryAlloc) (undef : Rat → Nat) (rb : RingBuffer.Ring Rat)
    (p : HistoryPending) (clientId : Bytes) (root : Json) : HistoryPending × Option Json :=
  let id := root.getString "id"
  if p.active then (p, some (msgError id (ascii "history request already in progress")))
  else
    match root.getNumber "since_seq" with
    | some seq =>
      requestCursor mem rb clientId id (seqOfDouble undef seq)
        (pageCap (root.getInt "max_bytes" 0))
    | none => requestSuffix mem rb clientId id root

def textChunkJson (timestamp : Rat) (seqStart : Nat) (data : Bytes) : Json :=
  (((Json.obj []).add "text" (.str (data.filter (· ≠ 0)))).add "timestamp" (.num timestamp)).add
    "seq_start" (.num seqStart)

def pageTexts (cap : Nat) : (off encoded : Nat) → List (Chunk Rat) → List Json
  | _, _, [] => []
  | off, encoded, c :: cs =>
    let len := c.len - off
    let len := if cap < encoded + len then cap - encoded else len
    if len = 0 then []
    else
      textChunkJson c.timestamp (c.seqStart + off) ((c.data.drop off).take len) ::
        if cap ≤ encoded + len then [] else pageTexts cap 0 (encoded + len) cs

def historyJsonPage (rb : RingBuffer.Ring Rat) (sinceSeq : Nat) (maxBytes : Int) : Json :=
  let cap := pageCap maxBytes
  let page := rbGetSinceSeq true rb sinceSeq cap
  (addCursor (.obj []) page.cursor page.dropped page.hasMore).add "chunks"
    (.arr (pageTexts cap page.firstSkip 0 page.chunks))

end Smolmux.History
