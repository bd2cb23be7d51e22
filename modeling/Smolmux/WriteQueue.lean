import Smolmux.Circular
import Smolmux.Protocol

/-! The outbound queue of a client (`client.c`): a circular array of lines, the
first of them possibly written in part. A line handed to several clients is
shared; when an output line follows an output line that is still untouched, the
two are decoded and one line with both payloads takes the place of the first. -/

namespace Smolmux.Client
open Protocol Base64

def clientWriteQueueSize : Nat := 256

def clientCoalesceMaxBytes : Nat := 16 * 1024

structure WriteEntry where
  data : Bytes
  shared : Bool
  offset : Nat

structure WriteQueue where
  slots : Nat → WriteEntry
  head : Nat
  count : Nat
  cap : Nat
  drops : Nat

def WriteQueue.entries (q : WriteQueue) : List WriteEntry :=
  Circular.view q.slots q.head q.count q.cap

def newQueue : WriteQueue := ⟨fun _ => ⟨[], false, 0⟩, 0, 0, clientWriteQueueSize, 0⟩

/-- The test compares 15 bytes, all but the closing quote. -/
def lineIsOutput (line : Bytes) : Bool :=
  15 ≤ line.length && line.take 15 == ascii "\x7b\"type\":\"output"

/-- One output line with the payloads of two and the newer timestamp. `mem` is
whether the allocations on the way succeed. -/
def mergedLine (codec : Codec) (mem : Bool) (old new : Bytes) : Option Bytes := do
  let oldMsg := msgDecode codec old
  let newMsg := msgDecode codec new
  let oldRoot ← oldMsg.root
  let newRoot ← newMsg.root
  guard (oldMsg.type = .output ∧ newMsg.type = .output)
  let oldRaw ← base64Decode (← oldRoot.getString "data")
  let newRaw ← base64Decode (← newRoot.getString "data")
  guard mem
  return msgEncode codec (msgOutput (oldRaw ++ newRaw) (newRoot.getDouble "timestamp" 0))

def tryCoalesceOutput (codec : Codec) (mem : Bool) (q : WriteQueue) (line : Bytes) :
    Option WriteQueue :=
  if q.count = 0 ∨ lineIsOutput line = false then none
  else
    let prevSlot := (q.head + q.count - 1) % q.cap
    let prev := q.slots prevSlot
    if prev.offset ≠ 0 then none
    else if clientCoalesceMaxBytes ≤ prev.data.length then none
    else if prev.shared = false ∨ lineIsOutput prev.data = false then none
    else
      (mergedLine codec mem prev.data line).map fun merged =>
        { q with slots := Function.update q.slots prevSlot ⟨merged, true, 0⟩ }

def enqueue (q : WriteQueue) (fill : WriteEntry → WriteEntry) : WriteQueue × Bool :=
  if q.cap ≤ q.count then ({ q with drops := q.drops + 1 }, false)
  else
    let slot := (q.head + q.count) % q.cap
    ({ q with slots := Function.update q.slots slot (fill (q.slots slot)), count := q.count + 1 },
      true)

/-- The slot keeps its `shared` mark, which a freed slot does not have. -/
def clientSend (codec : Codec) (mem : Bool) (q : WriteQueue) (msg : Json) : WriteQueue × Bool :=
  if mem then enqueue q fun e => { e with data := msgEncode codec msg, offset := 0 }
  else (q, false)

def clientSendRaw (q : WriteQueue) (data : Bytes) : WriteQueue × Bool :=
  enqueue q fun _ => ⟨data, false, 0⟩

def clientSendShared (codec : Codec) (mem : Bool) (q : WriteQueue) (line : Bytes) :
    WriteQueue × Bool :=
  match tryCoalesceOutput codec mem q line with
  | some q' => (q', true)
  | none => enqueue q fun _ => ⟨line, true, 0⟩

/-- Outcome of one `write`: the socket takes at most `room` bytes, is full, or
fails. -/
inductive WriteResult where
  | wrote (room : Nat)
  | again
  | failed

inductive FlushResult where
  | done
  | pending
  | error
  deriving DecidableEq

def writeHead (q : WriteQueue) (room : Nat) : WriteQueue × Bytes :=
  let e := q.slots q.head
  let bytes := (e.data.drop e.offset).take room
  let offset := e.offset + bytes.length
  if e.data.length ≤ offset then
    ({ q with
        slots := Function.update q.slots q.head ⟨[], false, offset⟩
        head := (q.head + 1) % q.cap
        count := q.count - 1 }, bytes)
  else ({ q with slots := Function.update q.slots q.head { e with offset := offset } }, bytes)

def clientFlush : List WriteResult → WriteQueue → WriteQueue × FlushResult × Bytes
  | results, q =>
    if q.count = 0 then (q, .done, [])
    else
      match results with
      | [] => (q, .pending, [])
      | .again :: _ => (q, .pending, [])
      | .failed :: _ => (q, .error, [])
      | .wrote room :: rest =>
        let (q', bytes) := writeHead q room
        let (q'', result, more) := clientFlush rest q'
        (q'', result, bytes ++ more)

end Smolmux.Client
