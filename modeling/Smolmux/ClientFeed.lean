import Smolmux.Framing
import Smolmux.Protocol

/-! Reading requests from a client: `sm_client_feed` and the loop around it in
`process_client_event`. A connection is seen with the rest of the stream its
peer sends, which the kernel hands over in pieces of its own choice. What the
broker does with a message is a parameter; it may reject the connection. -/

namespace Smolmux.Client
open Protocol Framing

def clientReadBufSize : Nat := 64 * 1024

def feedMax : Nat := 16

def feedRounds : Nat := 64

def lineMsg (codec : Codec) (line : Bytes) : Option Msg :=
  if line = [] then none
  else
    let msg := msgDecode codec line
    if msg.root.isSome then some msg else none

def messages (codec : Codec) (stream : Bytes) : List Msg := items newline (lineMsg codec) stream

/-- What the kernel answers to a `read`: at most `n` bytes, nothing for now, the
end of the stream once all of it is read, or an error. -/
inductive ReadOutcome where
  | data (n : Nat)
  | again
  | eof
  | failed

def readSome (avail : Nat) (unread : Bytes) : ReadOutcome → Option Bytes
  | .data n => some (unread.take (min n avail))
  | .again => some []
  | .eof => if unread = [] then none else some []
  | .failed => none

structure FeedResult where
  msgs : List Msg
  buf : Bytes
  unread : Bytes
  disconnected : Bool

def clientFeedMax (codec : Codec) (maxOut : Nat) (buf unread : Bytes) (outcome : ReadOutcome) :
    FeedResult :=
  let avail := clientReadBufSize - buf.length - 1
  if avail = 0 then ⟨[], buf, unread, true⟩
  else
    match readSome avail unread outcome with
    | none => ⟨[], buf, unread, true⟩
    | some data =>
      let r := takeItems newline (lineMsg codec) maxOut [] (buf ++ data)
      ⟨r.1, r.2, unread.drop data.length, false⟩

def clientFeed (codec : Codec) (buf unread : Bytes) (outcome : ReadOutcome) : FeedResult :=
  clientFeedMax codec feedMax buf unread outcome

structure Conn (σ : Type*) where
  broker : σ
  buf : Bytes
  unread : Bytes
  live : Bool
  dispatched : List Msg
  rejected : Bool

variable {σ : Type*}

/-- Hand messages to the broker until one makes it reject the connection. -/
def dispatch (handle : σ → Msg → σ × Bool) : σ → List Msg → σ × Bool × List Msg
  | s, [] => (s, false, [])
  | s, m :: ms =>
    let r := handle s m
    if r.2 then (r.1, true, [m])
    else
      let rest := dispatch handle r.1 ms
      (rest.1, rest.2.1, m :: rest.2.2)

def feedRound (codec : Codec) (handle : σ → Msg → σ × Bool) (outcome : ReadOutcome)
    (c : Conn σ) : Conn σ × Nat :=
  let feed := clientFeed codec c.buf c.unread outcome
  let done := dispatch handle c.broker feed.msgs
  ({ broker := done.1
     buf := feed.buf
     unread := feed.unread
     live := !(feed.disconnected || done.2.1)
     dispatched := c.dispatched ++ done.2.2
     rejected := c.rejected || done.2.1 }, feed.msgs.length)

/-- The read loop of one wakeup, from its `k`-th round on. -/
def feedLoop (codec : Codec) (handle : σ → Msg → σ × Bool) (reads : Nat → ReadOutcome) :
    (left k : Nat) → Conn σ → Conn σ
  | 0, _, c => c
  | left + 1, k, c =>
    let r := feedRound codec handle (reads k) c
    if r.1.live = true ∧ r.2 = feedMax then feedLoop codec handle reads left (k + 1) r.1 else r.1

/-- One epoll event of the client: which of its flags are set, what its reads
return, and whether a flush on `EPOLLOUT` fails. -/
structure ClientEvent where
  readable : Bool
  reads : Nat → ReadOutcome
  hangup : Bool
  flushFails : Bool

def processClientEvent (codec : Codec) (handle : σ → Msg → σ × Bool) (ev : ClientEvent)
    (c : Conn σ) : Conn σ :=
  let c' := if ev.readable then feedLoop codec handle ev.reads feedRounds 0 c else c
  if c'.live = true ∧ (ev.hangup || ev.flushFails) = true then { c' with live := false } else c'

/-- What happens to a connection: an event of its own; its peer turns out to be
gone at the end of a turn, because its queue cannot be flushed or its process
does not exist; or the broker drops it for a reason of its own (a newer client
of the same name, no hello in time). -/
inductive ConnStep where
  | event (ev : ClientEvent)
  | gone
  | dropped

def connStep (codec : Codec) (handle : σ → Msg → σ × Bool) (c : Conn σ) : ConnStep → Conn σ
  | .event ev => if c.live then processClientEvent codec handle ev c else c
  | .gone => { c with live := false }
  | .dropped => { c with live := false, rejected := c.rejected || c.live }

def connRun (codec : Codec) (handle : σ → Msg → σ × Bool) (c : Conn σ) (steps : List ConnStep) :
    Conn σ :=
  steps.foldl (connStep codec handle) c

def newConn (broker : σ) (stream : Bytes) : Conn σ := ⟨broker, [], stream, true, [], false⟩

end Smolmux.Client
