import Smolmux.Bytes
import Smolmux.Circular

/-! The byte history of a link (`ring_buffer.c`). Chunks live in a circular
array of slots that doubles when it is full; bytes over `maxBytes` leave from
the front, by whole chunks and then by trimming the first one. A chunk's buffer
is modelled by its live bytes, so `len` is a length and only the recorded
capacity `alloc` stays a field. Counters are natural numbers: 2^64 bytes never
pass through one link. Timestamps are any type with the comparison the code
uses, which need not be lawful (a NaN differs from itself). -/

namespace Smolmux.RingBuffer

def chunkTarget : Nat := 4096

structure Chunk (τ : Type*) where
  timestamp : τ
  seqStart : Nat
  data : Bytes
  alloc : Nat

variable {τ : Type*}

def Chunk.len (c : Chunk τ) : Nat := c.data.length

def Chunk.seqEnd (c : Chunk τ) : Nat := c.seqStart + c.len

structure Ring (τ : Type*) where
  slots : Nat → Chunk τ
  head : Nat
  count : Nat
  capacity : Nat
  totalBytes : Nat
  maxBytes : Nat
  totalSeq : Nat
  firstSeq : Nat

/-- Live chunks, oldest first: slots `RB_IDX(rb, 0 .. count - 1)`. -/
def Ring.chunks (rb : Ring τ) : List (Chunk τ) :=
  Circular.view rb.slots rb.head rb.count rb.capacity

/-- Outcomes of the three allocations `sm_rb_append` may make. -/
structure Alloc where
  grow : Bool
  resize : Bool
  acquire : Bool

def Alloc.ok : Alloc := ⟨true, true, true⟩

section Operations
variable [Zero τ] [BEq τ]

def Chunk.empty : Chunk τ := ⟨0, 0, [], 0⟩

def rbInit (maxBytes : Nat) : Ring τ :=
  ⟨fun _ => Chunk.empty, 0, 0, 0, 0, maxBytes, 0, 0⟩

def syncFirstSeq (rb : Ring τ) : Ring τ :=
  { rb with firstSeq := if rb.count = 0 then rb.totalSeq else (rb.slots rb.head).seqStart }

def popFront (rb : Ring τ) : Ring τ :=
  let front := rb.slots rb.head
  { rb with
    totalBytes := rb.totalBytes - front.len
    slots := Function.update rb.slots rb.head { front with data := [], alloc := 0 }
    head := (rb.head + 1) % rb.capacity
    count := rb.count - 1 }

def trimFront (rb : Ring τ) (excess : Nat) : Ring τ :=
  let front := rb.slots rb.head
  { rb with
    totalBytes := rb.totalBytes - excess
    slots := Function.update rb.slots rb.head
      { front with data := front.data.drop excess, seqStart := front.seqStart + excess } }

def evict (rb : Ring τ) : Ring τ :=
  if 0 < rb.count ∧ rb.maxBytes < rb.totalBytes then
    if (rb.slots rb.head).len ≤ rb.totalBytes - rb.maxBytes then
      evict (syncFirstSeq (popFront rb))
    else
      evict (syncFirstSeq (trimFront rb (rb.totalBytes - rb.maxBytes)))
  else rb
termination_by (rb.count, rb.totalBytes - rb.maxBytes)
decreasing_by
  · exact Prod.Lex.left _ _ (by simp only [syncFirstSeq, popFront]; omega)
  · exact Prod.Lex.right _ (by simp only [syncFirstSeq, trimFront]; omega)

def extendLast (rb : Ring τ) (alloc : Nat) (data : Bytes) : Ring τ :=
  let slot := (rb.head + rb.count - 1) % rb.capacity
  let last := rb.slots slot
  { rb with
    slots := Function.update rb.slots slot { last with data := last.data ++ data, alloc := alloc }
    totalBytes := rb.totalBytes + data.length
    totalSeq := rb.totalSeq + data.length }

def grownCapacity (capacity : Nat) : Nat := if capacity = 0 then 64 else capacity * 2

def growSlots (rb : Ring τ) : Ring τ :=
  if rb.capacity ≤ rb.count then
    { rb with
      slots := fun i =>
        if i < rb.count then rb.slots ((rb.head + i) % rb.capacity) else Chunk.empty
      capacity := grownCapacity rb.capacity
      head := 0 }
  else rb

def pushChunk (rb : Ring τ) (data : Bytes) (ts : τ) : Ring τ :=
  let slot := (rb.head + rb.count) % rb.capacity
  { rb with
    slots := Function.update rb.slots slot
      ⟨ts, rb.totalSeq, data, max data.length chunkTarget⟩
    count := rb.count + 1
    totalBytes := rb.totalBytes + data.length
    totalSeq := rb.totalSeq + data.length
    firstSeq := if rb.count = 0 then rb.totalSeq else rb.firstSeq }

def appendChunk (mem : Alloc) (rb : Ring τ) (data : Bytes) (ts : τ) : Ring τ :=
  if rb.capacity ≤ rb.count ∧ mem.resize = false then rb
  else if mem.acquire = false then growSlots rb
  else evict (pushChunk (growSlots rb) data ts)

def rbAppend (mem : Alloc) (rb : Ring τ) (data : Bytes) (ts : τ) : Ring τ :=
  let last := rb.slots ((rb.head + rb.count - 1) % rb.capacity)
  let mergeable := 0 < rb.count ∧ last.timestamp == ts ∧ last.len < chunkTarget
  if data.length = 0 then rb
  else if mergeable ∧ last.len + data.length ≤ last.alloc then
    evict (extendLast rb last.alloc data)
  else if mergeable ∧ last.len + data.length ≤ chunkTarget ∧ mem.grow then
    evict (extendLast rb (last.len + data.length) data)
  else appendChunk mem rb data ts

def runAppends (maxBytes : Nat) (ops : List (Bytes × τ)) : Ring τ :=
  ops.foldl (fun rb op => rbAppend Alloc.ok rb op.1 op.2) (rbInit maxBytes)

end Operations

end Smolmux.RingBuffer
