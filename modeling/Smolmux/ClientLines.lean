import Smolmux.ClientFeed
import Smolmux.JsonText

/-! Which request lines reach the broker. A connection is in order when no
complete line waits in its buffer and every message of the bytes read was
dispatched; a connection that ended without being rejected has had all its
messages dispatched. The read loop does not keep this up in every case: an end
of file found after a full batch, the bound on the rounds, and a removal with
lines still to be read each leave messages behind. -/

namespace Smolmux.Client
open Protocol Framing List

variable {σ : Type*}

/-- The lines of the stream `S` that the broker owes the peer of `c` an answer
to are dispatched. -/
structure Delivered (codec : Codec) (S : Bytes) (c : Conn σ) : Prop where
  noneWaiting : c.live = true → newline ∉ c.buf
  readDispatched : c.live = true → c.dispatched =
    messages codec (S.take (S.length - c.unread.length))
  allDispatched : c.live = false → c.rejected = false → c.dispatched = messages codec S

def ReadOutcome.isEnd : ReadOutcome → Bool
  | .eof | .failed => true
  | _ => false

def ReadOutcome.most : ReadOutcome → Nat
  | .data n => n
  | _ => 0

/-- As many bytes the first `i` reads of a wakeup hand over at most. -/
def handed (reads : Nat → ReadOutcome) (i : Nat) : Nat :=
  ((range i).map fun k => (reads k).most).sum

def lineCount (bytes : Bytes) : Nat := bytes.count newline

/-- The lines that come up to read `i` of a wakeup are few enough for its rounds, sixteen
messages each: fewer than the rounds so far take, or no more than all 64 do; or the stream ends
with this read and has no more of them. -/
def InTime (reads : Nat → ReadOutcome) (buf unread : Bytes) (i : Nat) : Prop :=
  (∀ k < i, (reads k).isEnd = false) ∧
    (lineCount (buf ++ unread.take (handed reads i)) < feedMax * i ∨
      i = feedRounds ∧ lineCount (buf ++ unread.take (handed reads i)) ≤ feedMax * i ∨
      i < feedRounds ∧ (reads i).isEnd = true ∧ lineCount (buf ++ unread) ≤ feedMax * i)

def Timely (reads : Nat → ReadOutcome) (buf unread : Bytes) : Prop :=
  ∃ i ≤ feedRounds, InTime reads buf unread i

def firstRead (c : Conn σ) (ev : ClientEvent) : Bytes :=
  if ev.readable then
    (readSome (clientReadBufSize - c.buf.length - 1) c.unread (ev.reads 0)).getD []
  else []

/-- What a step finds: lines in time when the connection is read, and no line that the first
read leaves to the peer when the peer is gone. -/
def Meets (c : Conn σ) : ConnStep → Prop
  | .event ev => (ev.readable = true → Timely ev.reads c.buf c.unread) ∧
      ((ev.hangup || ev.flushFails) = true → newline ∉ c.unread.drop (firstRead c ev).length)
  | .gone => newline ∉ c.unread
  | .dropped => True

/-- The read side of a live connection: what is dispatched are the messages of
complete lines, and the rest of the stream is in the buffer or unread. -/
structure Reading (codec : Codec) (S : Bytes) (dispatched : List Msg) (buf unread : Bytes) :
    Prop where
  split : ∃ taken, S = taken ++ (buf ++ unread) ∧ Whole newline taken ∧
    dispatched = messages codec taken
  room : buf.length + 1 < clientReadBufSize

theorem Reading.all {codec : Codec} {S : Bytes} {dispatched : List Msg} {buf unread : Bytes}
    (h : Reading codec S dispatched buf unread) (hnone : newline ∉ buf ++ unread) :
    dispatched = messages codec S := by
  obtain ⟨taken, rfl, hwhole, rfl⟩ := h.split
  rw [messages, messages, items_append hwhole, items_of_not_mem hnone, append_nil]

theorem dispatch_all {handle : σ → Msg → σ × Bool} (s : σ) (ms : List Msg)
    (h : (dispatch handle s ms).2.1 = false) : (dispatch handle s ms).2.2 = ms := by
  induction ms generalizing s with
  | nil => rfl
  | cons m ms ih =>
    unfold dispatch at h ⊢
    dsimp only at h ⊢
    split_ifs at h ⊢ with hbad
    rw [ih _ h]

theorem Reading.round {codec : Codec} {frames : List Bytes}
    (hframes : ∀ f ∈ frames, f.length + 2 ≤ clientReadBufSize) {dispatched : List Msg}
    {buf unread data : Bytes} (h : Reading codec (framed newline frames) dispatched buf unread)
    (hdata : data <+: unread) (hfit : buf.length + data.length + 1 ≤ clientReadBufSize) :
    let r := takeItems newline (lineMsg codec) feedMax [] (buf ++ data)
    Reading codec (framed newline frames) (dispatched ++ r.1) r.2 (unread.drop data.length) ∧
      (r.1.length ≠ feedMax → newline ∉ r.2) := by
  intro r
  obtain ⟨taken, hS, hwhole, rfl⟩ := h.split
  obtain ⟨more, heq, hmore, hitems, hle, hrest⟩ :=
    takeItems_spec newline (lineMsg codec) feedMax [] (buf ++ data) (by simp)
  obtain ⟨rest, rfl⟩ := hdata
  change [] ++ (buf ++ data) = more ++ r.2 at heq
  change items newline (lineMsg codec) more = r.1 at hitems
  change r.1.length ≤ feedMax at hle
  change r.1.length < feedMax → newline ∉ r.2 at hrest
  rw [nil_append] at heq
  have hnone : r.1.length ≠ feedMax → newline ∉ r.2 := fun hne => hrest (by omega)
  have hsplit : framed newline frames = (taken ++ more) ++ (r.2 ++ rest) := by
    rw [hS, append_assoc, ← append_assoc more, ← heq, append_assoc]
  rw [drop_left]
  refine ⟨⟨⟨taken ++ more, hsplit, hwhole.append hmore, ?_⟩, ?_⟩, hnone⟩
  · rw [messages, messages, items_append hwhole, hitems]
  · by_cases hfull : r.1.length = feedMax
    · -- a full batch took at least one line out of the buffer
      have hpos : 0 < more.length := by
        rw [length_pos_iff]
        rintro rfl
        rw [← hitems] at hfull
        simp [items, itemsFrom, feedMax] at hfull
      have hlen := congrArg List.length heq
      rw [length_append, length_append] at hlen
      omega
    · have hbound : ∀ f ∈ frames, f.length ≤ clientReadBufSize - 2 := fun f hf => by
        have := hframes f hf
        omega
      have hshort := piece_length_le hbound hsplit (hnone hfull)
      have : 2 < clientReadBufSize := by decide
      omega

inductive LoopEnd (codec : Codec) (S : Bytes) (leaves : Bool) (c : Conn σ) : Prop where
  | rejected (dead : c.live = false) (rejected : c.rejected = true)
  | finished (dead : c.live = false) (all : c.dispatched = messages codec S)
  | ongoing (live : c.live = true) (reading : Reading codec S c.dispatched c.buf c.unread)
    (none : newline ∉ c.buf) (leaving : leaves = true → newline ∉ c.unread)

theorem feedRound_over {codec : Codec} (handle : σ → Msg → σ × Bool) {outcome : ReadOutcome}
    {c : Conn σ} (hread : readSome (clientReadBufSize - c.buf.length - 1) c.unread outcome = none) :
    (feedRound codec handle outcome c).1.live = false ∧
      (feedRound codec handle outcome c).1.dispatched = c.dispatched := by
  unfold feedRound clientFeed clientFeedMax
  simp only [hread]
  split_ifs <;> simp [dispatch]

theorem feedRound_read {codec : Codec} (handle : σ → Msg → σ × Bool) {outcome : ReadOutcome}
    {c : Conn σ} {data : Bytes} (hroom : c.buf.length + 1 < clientReadBufSize)
    (hread : readSome (clientReadBufSize - c.buf.length - 1) c.unread outcome = some data) :
    let r := takeItems newline (lineMsg codec) feedMax [] (c.buf ++ data)
    let done := dispatch handle c.broker r.1
    feedRound codec handle outcome c =
      (⟨done.1, r.2, c.unread.drop data.length, !done.2.1, c.dispatched ++ done.2.2,
        c.rejected || done.2.1⟩, r.1.length) := by
  unfold feedRound clientFeed clientFeedMax
  simp only [hread]
  rw [if_neg (by omega)]
  rfl

theorem readSome_some {avail : Nat} {unread data : Bytes} {outcome : ReadOutcome}
    (h : readSome avail unread outcome = some data) :
    data <+: unread ∧ data.length ≤ avail ∧ data.length ≤ outcome.most := by
  cases outcome with
  | data n =>
    obtain rfl := Option.some.inj h
    rw [length_take]
    exact ⟨List.take_prefix _ _, by omega, by rw [ReadOutcome.most]; omega⟩
  | again =>
    obtain rfl := Option.some.inj h
    exact ⟨List.nil_prefix, Nat.zero_le _, Nat.zero_le _⟩
  | eof =>
    unfold readSome at h
    split_ifs at h
    obtain rfl := Option.some.inj h
    exact ⟨List.nil_prefix, Nat.zero_le _, Nat.zero_le _⟩
  | failed => cases h

theorem handed_succ (reads : Nat → ReadOutcome) (i : Nat) :
    handed reads (i + 1) = handed reads i + (reads i).most := by
  rw [handed, range_succ, map_append, sum_append]
  simp [handed]

/-- After `i` full rounds of a wakeup that began with `buf` and `unread`: what was taken has
sixteen lines for each, and nothing came that the reads did not hand over. -/
structure Rounds (reads : Nat → ReadOutcome) (buf unread : Bytes) (i : Nat)
    (kept ahead : Bytes) : Prop where
  split : ∃ taken more, taken ++ kept = buf ++ more ∧ unread = more ++ ahead ∧
    more.length ≤ handed reads i ∧ feedMax * i ≤ lineCount taken

theorem Rounds.arrived {reads : Nat → ReadOutcome} {buf unread kept ahead : Bytes} {i : Nat}
    (h : Rounds reads buf unread i kept ahead) :
    feedMax * i + lineCount kept ≤ lineCount (buf ++ unread.take (handed reads i)) ∧
      feedMax * i + lineCount (kept ++ ahead) ≤ lineCount (buf ++ unread) := by
  obtain ⟨taken, more, hbuf, rfl, hmore, hlines⟩ := h.split
  have hcount := congrArg lineCount hbuf
  rw [take_append, take_of_length_le hmore]
  simp only [lineCount, count_append] at hcount hlines ⊢
  omega

theorem Rounds.next {codec : Codec} {reads : Nat → ReadOutcome}
    {buf unread kept ahead data : Bytes} {avail i : Nat}
    (h : Rounds reads buf unread i kept ahead) (hread : readSome avail ahead (reads i) = some data)
    (hfull : (takeItems newline (lineMsg codec) feedMax [] (kept ++ data)).1.length = feedMax) :
    Rounds reads buf unread (i + 1) (takeItems newline (lineMsg codec) feedMax [] (kept ++ data)).2
      (ahead.drop data.length) := by
  obtain ⟨taken, more, hsplit, rfl, hmore, hlines⟩ := h.split
  obtain ⟨lines, heq, -, hitems, -⟩ :=
    takeItems_spec newline (lineMsg codec) feedMax [] (kept ++ data) (by simp)
  rw [nil_append] at heq
  have htaken : feedMax ≤ lineCount lines := by
    rw [← hfull, ← hitems]
    exact length_itemsFrom_le [] lines
  refine ⟨taken ++ lines, more ++ data, ?_, ?_, ?_, ?_⟩
  · rw [append_assoc, ← heq, ← append_assoc, hsplit, append_assoc]
  · obtain ⟨rest, hrest⟩ := (readSome_some hread).1
    rw [← hrest, drop_left, append_assoc]
  · rw [length_append, handed_succ]
    exact Nat.add_le_add hmore (readSome_some hread).2.2
  · rw [lineCount, count_append, Nat.mul_succ]
    exact Nat.add_le_add hlines htaken

/-- When `i` rounds were full and the lines came in time, there were no more than these. -/
theorem Rounds.all_taken {reads : Nat → ReadOutcome} {buf unread kept ahead : Bytes} {i : Nat}
    (h : Rounds reads buf unread i kept ahead) (htime : InTime reads buf unread i)
    (hi : i < feedRounds) : lineCount (buf ++ unread) ≤ feedMax * i := by
  have hcount := h.arrived.1
  obtain ⟨-, hfew | hlast | ⟨-, -, hall⟩⟩ := htime
  · omega
  · omega
  · exact hall

theorem lineCount_eq_zero {bytes : Bytes} : lineCount bytes = 0 ↔ newline ∉ bytes := count_eq_zero

theorem readSome_of_not_end {avail : Nat} {unread : Bytes} {outcome : ReadOutcome}
    (h : outcome.isEnd = false) : ∃ data, readSome avail unread outcome = some data := by
  cases outcome with
  | data n => exact ⟨_, rfl⟩
  | again => exact ⟨_, rfl⟩
  | eof => cases h
  | failed => cases h

/-- No line stays in the buffer: the rounds before `last` read on, and at `last` the lines that
came are all taken. -/
theorem feedLoop_end {codec : Codec} {handle : σ → Msg → σ × Bool} {reads : Nat → ReadOutcome}
    {frames : List Bytes} (hframes : ∀ f ∈ frames, f.length + 2 ≤ clientReadBufSize)
    {buf unread : Bytes} {last : Nat} (hlast : last ≤ feedRounds)
    (htime : InTime reads buf unread last) {leaves : Bool} {left i : Nat} {c : Conn σ}
    (hi : i + left = feedRounds) (hle : i ≤ last) (hlive : c.live)
    (h : Reading codec (framed newline frames) c.dispatched c.buf c.unread)
    (hrounds : Rounds reads buf unread i c.buf c.unread)
    (hfirst : leaves = true → i = 0 → ∀ data,
      readSome (clientReadBufSize - c.buf.length - 1) c.unread (reads i) = some data →
        newline ∉ c.unread.drop data.length)
    (hlater : leaves = true → 0 < i → newline ∉ c.unread) :
    LoopEnd codec (framed newline frames) leaves (feedLoop codec handle reads left i c) := by
  induction left generalizing i c with
  | zero =>
    obtain rfl : i = feedRounds := hi
    obtain rfl : last = feedRounds := Nat.le_antisymm hlast hle
    have hcount := hrounds.arrived.1
    have hcases := htime.2
    refine .ongoing hlive h (lineCount_eq_zero.mp ?_) fun hleaves => hlater hleaves (by decide)
    rw [feedLoop]
    omega
  | succ left ih =>
    have hroom := h.room
    rw [feedLoop]
    have hall : i = last → lineCount (buf ++ unread) ≤ feedMax * i := by
      rintro rfl
      exact hrounds.all_taken htime (by omega)
    cases hread : readSome (clientReadBufSize - c.buf.length - 1) c.unread (reads i) with
    | none =>
      have hend : i = last := by
        by_contra hne
        obtain ⟨data, hdata⟩ := readSome_of_not_end (htime.1 i (by omega))
        rw [hdata] at hread
        cases hread
      have hdone : newline ∉ c.buf ++ c.unread := by
        have hcount := hrounds.arrived.2.trans (hall hend)
        rw [← lineCount_eq_zero]
        omega
      obtain ⟨hdead, hsame⟩ := @feedRound_over _ codec handle _ _ hread
      simp only [hdead, Bool.false_eq_true, false_and, if_false]
      exact .finished hdead (hsame.trans (h.all hdone))
    | some data =>
      obtain ⟨hpre, hlen, -⟩ := readSome_some hread
      obtain ⟨hround, hnone⟩ := h.round hframes hpre (by omega)
      have hleft : leaves = true → newline ∉ c.unread.drop data.length := fun hleaves => by
        rcases Nat.eq_zero_or_pos i with hzero | hpos
        · exact hfirst hleaves hzero data hread
        · exact fun hmem => hlater hleaves hpos (mem_of_mem_drop hmem)
      rw [feedRound_read handle hroom hread]
      dsimp only
      cases hbad : (dispatch handle c.broker
        (takeItems newline (lineMsg codec) feedMax [] (c.buf ++ data)).1).2.1 with
      | true => exact .rejected (by simp) (by simp)
      | false =>
        rw [← dispatch_all _ _ hbad] at hround
        by_cases hfull :
            (takeItems newline (lineMsg codec) feedMax [] (c.buf ++ data)).1.length = feedMax
        · rw [if_pos ⟨rfl, hfull⟩]
          have hnext := hrounds.next hread hfull
          have hlt : i < last := by
            refine Nat.lt_of_le_of_ne hle fun hend => ?_
            have hmore := hnext.arrived.2.trans (hall hend)
            have hsize : 0 < feedMax := by decide
            rw [Nat.mul_succ] at hmore
            omega
          exact ih (by omega) hlt rfl hround hnext (fun _ hzero => nomatch hzero)
            fun hleaves _ => hleft hleaves
        · rw [if_neg fun hcond => hfull hcond.2]
          exact .ongoing rfl hround (hnone hfull) hleft

inductive InOrder (codec : Codec) (S : Bytes) (c : Conn σ) : Prop where
  | rejected (dead : c.live = false) (rejected : c.rejected = true)
  | finished (dead : c.live = false) (all : c.dispatched = messages codec S)
  | ongoing (live : c.live = true) (reading : Reading codec S c.dispatched c.buf c.unread)
    (none : newline ∉ c.buf)

theorem processClientEvent_inOrder {codec : Codec} {handle : σ → Msg → σ × Bool}
    {frames : List Bytes} (hframes : ∀ f ∈ frames, f.length + 2 ≤ clientReadBufSize)
    {ev : ClientEvent} {c : Conn σ} (hlive : c.live)
    (h : Reading codec (framed newline frames) c.dispatched c.buf c.unread)
    (hnone : newline ∉ c.buf) (hok : Meets c (.event ev)) :
    InOrder codec (framed newline frames) (processClientEvent codec handle ev c) := by
  obtain ⟨htimely, hleaving⟩ := hok
  have hloop : LoopEnd codec (framed newline frames) (ev.hangup || ev.flushFails)
      (if ev.readable then feedLoop codec handle ev.reads feedRounds 0 c else c) := by
    cases hreadable : ev.readable with
    | true =>
      obtain ⟨last, hlast, htime⟩ := htimely hreadable
      refine feedLoop_end hframes hlast htime (Nat.zero_add _) (Nat.zero_le _) hlive h
        ⟨[], [], (append_nil _).symm, rfl, Nat.zero_le _, Nat.zero_le _⟩
        (fun hleaves _ data hread => ?_) fun _ hpos => absurd hpos (Nat.lt_irrefl 0)
      simpa only [firstRead, hreadable, if_true, hread, Option.getD_some] using hleaving hleaves
    | false =>
      refine .ongoing hlive h hnone fun hleaves => ?_
      simpa only [firstRead, hreadable, Bool.false_eq_true, if_false, length_nil, drop_zero]
        using hleaving hleaves
  unfold processClientEvent
  generalize (if ev.readable then feedLoop codec handle ev.reads feedRounds 0 c else c) = c' at *
  cases hloop with
  | rejected dead rejected => exact .rejected (by simp [dead]) (by simp [dead, rejected])
  | finished dead all => exact .finished (by simp [dead]) (by simpa [dead] using all)
  | ongoing live reading none leaving =>
    cases hleaves : (ev.hangup || ev.flushFails) with
    | true =>
      have hrest : newline ∉ c'.buf ++ c'.unread := by
        simpa only [mem_append, not_or] using ⟨none, leaving hleaves⟩
      exact .finished (by simp [live]) (by simpa [live] using reading.all hrest)
    | false => simpa [live] using InOrder.ongoing live reading none

theorem connStep_inOrder {codec : Codec} (handle : σ → Msg → σ × Bool) {frames : List Bytes}
    (hframes : ∀ f ∈ frames, f.length + 2 ≤ clientReadBufSize) {c : Conn σ}
    (h : InOrder codec (framed newline frames) c) (step : ConnStep)
    (hok : c.live → Meets c step) :
    InOrder codec (framed newline frames) (connStep codec handle c step) := by
  cases h with
  | rejected dead rejected =>
    cases step <;> exact .rejected (by simp [connStep, dead]) (by simp [connStep, dead, rejected])
  | finished dead all =>
    cases step <;> exact .finished (by simp [connStep, dead]) (by simpa [connStep, dead] using all)
  | ongoing live reading none =>
    have hgood := hok live
    cases step with
    | event ev =>
      simp only [connStep, live, if_true]
      exact processClientEvent_inOrder hframes live reading none hgood
    | gone =>
      have hrest : newline ∉ c.buf ++ c.unread := by
        simpa only [mem_append, not_or] using ⟨none, hgood⟩
      exact .finished rfl (reading.all hrest)
    | dropped => exact .rejected rfl (by simp [connStep, live])

theorem InOrder.delivered {codec : Codec} {S : Bytes} {c : Conn σ} (h : InOrder codec S c) :
    Delivered codec S c := by
  cases h with
  | rejected dead rejected => constructor <;> simp [dead, rejected]
  | finished dead all => constructor <;> simp [dead, all]
  | ongoing live reading none =>
    refine ⟨fun _ => none, fun _ => ?_, by simp [live]⟩
    obtain ⟨taken, rfl, hwhole, hdone⟩ := reading.split
    rw [hdone, ← append_assoc, length_append, Nat.add_sub_cancel, take_left,
      messages, messages, items_append hwhole, items_of_not_mem none, append_nil]

/-- No request line is lost or stalled as long as the lines come in time for the rounds of
each wakeup and no line is left to read when the peer goes. The peer sends lines that fit the
read buffer with their newlines; the kernel cuts the stream into reads as it likes. In every
state reached, a live connection has no complete line in its buffer and the messages of all
bytes read are dispatched, and a connection that ended without being rejected has had every
message of its stream dispatched. -/
theorem client_lines_dispatched (codec : Codec) (handle : σ → Msg → σ × Bool) (broker : σ)
    (lines : List Bytes)
    (hlines : ∀ l ∈ lines, (l ++ [newline]).length < clientReadBufSize)
    (steps : List ConnStep)
    (hok : ∀ i step, steps[i]? = some step →
      let c := connRun codec handle (newConn broker (framed newline lines)) (steps.take i)
      c.live = true → Meets c step) (k : Nat) :
    Delivered codec (framed newline lines)
      (connRun codec handle (newConn broker (framed newline lines)) (steps.take k)) := by
  have hframes : ∀ f ∈ lines, f.length + 2 ≤ clientReadBufSize := fun f hf => by
    have := hlines f hf
    rw [length_append, length_singleton] at this
    omega
  apply InOrder.delivered
  induction k with
  | zero =>
    exact .ongoing rfl ⟨⟨[], rfl, .inl rfl, rfl⟩, by simp [connRun, newConn, clientReadBufSize]⟩
      (by simp [connRun, newConn])
  | succ k ih =>
    cases hstep : steps[k]? with
    | none =>
      rw [getElem?_eq_none_iff] at hstep
      rwa [take_of_length_le (by omega : steps.length ≤ k + 1), ← take_of_length_le hstep]
    | some step =>
      rw [take_add_one, hstep, Option.toList_some, connRun, foldl_append]
      exact connStep_inOrder handle hframes ih step (hok k step hstep)

def statusLine : Bytes := JsonText.textCodec.print (makeMsg "status")

section Calls

structure FeedCall where
  maxOut : Nat
  arrived : Nat

def FeedCall.outcome (call : FeedCall) : ReadOutcome :=
  if call.arrived = 0 then .again else .data call.arrived

def feedCall (codec : Codec) (r : FeedResult) (call : FeedCall) : FeedResult :=
  let f := clientFeedMax codec call.maxOut r.buf r.unread call.outcome
  ⟨r.msgs ++ f.msgs, f.buf, f.unread, r.disconnected || f.disconnected⟩

def feedCalls (codec : Codec) (stream : Bytes) (calls : List FeedCall) : FeedResult :=
  calls.foldl (feedCall codec) ⟨[], [], stream, false⟩

structure Framed (codec : Codec) (S : Bytes) (r : FeedResult) : Prop where
  split : ∃ taken, S = taken ++ (r.buf ++ r.unread) ∧ Whole newline taken ∧
    r.msgs = messages codec taken
  room : r.buf.length + 1 ≤ clientReadBufSize
  full : r.buf.length + 1 = clientReadBufSize → newline ∉ r.buf
  ended : r.disconnected = true → r.buf.length + 1 = clientReadBufSize

def FeedResult.left (r : FeedResult) : Nat := r.unread.length + (r.buf ++ r.unread).count newline

variable {codec : Codec} {S : Bytes} {r : FeedResult}

theorem FeedResult.left_eq_zero : r.left = 0 ↔ r.unread = [] ∧ newline ∉ r.buf := by
  rw [FeedResult.left, Nat.add_eq_zero_iff, length_eq_zero_iff]
  refine and_congr_right fun h => ?_
  rw [h, append_nil, count_eq_zero]

theorem feedCall_full (hfull : r.buf.length + 1 = clientReadBufSize) (call : FeedCall) :
    feedCall codec r call = ⟨r.msgs, r.buf, r.unread, true⟩ := by
  simp only [feedCall, clientFeedMax]
  rw [if_pos (by omega)]
  simp

theorem feedCall_room (codec : Codec) (hroom : r.buf.length + 1 < clientReadBufSize)
    {call : FeedCall}
    (hmax : 1 ≤ call.maxOut) :
    ∃ data rest taken, r.unread = data ++ rest ∧ (0 < call.arrived → data = [] → r.unread = []) ∧
      r.buf ++ data = taken ++ (feedCall codec r call).buf ∧ Whole newline taken ∧
      (taken = [] → newline ∉ r.buf ++ data) ∧ (r.buf ++ data).length < clientReadBufSize ∧
      feedCall codec r call =
        ⟨r.msgs ++ messages codec taken, (feedCall codec r call).buf, rest, r.disconnected⟩ := by
  obtain ⟨data, hread, hsome⟩ : ∃ data, readSome (clientReadBufSize - r.buf.length - 1) r.unread
      call.outcome = some data ∧ (0 < call.arrived → data = [] → r.unread = []) := by
    unfold FeedCall.outcome
    split_ifs with h
    · exact ⟨[], rfl, fun hpos => absurd h (by omega)⟩
    · refine ⟨_, rfl, fun _ hnil => ?_⟩
      rw [take_eq_nil_iff] at hnil
      exact hnil.resolve_left (by omega)
  obtain ⟨⟨rest, hrest⟩, hle, -⟩ := readSome_some hread
  have hcall : feedCall codec r call = ⟨r.msgs ++ (takeItems newline (lineMsg codec) call.maxOut []
      (r.buf ++ data)).1, (takeItems newline (lineMsg codec) call.maxOut [] (r.buf ++ data)).2,
        rest,
      r.disconnected⟩ := by
    simp only [feedCall, clientFeedMax]
    rw [if_neg (by omega), hread, ← hrest]
    simp
  obtain ⟨taken, heq, hwhole, hitems, -, hdone⟩ :=
    takeItems_spec newline (lineMsg codec) call.maxOut [] (r.buf ++ data) (by simp)
  rw [nil_append] at heq
  rw [hcall]
  refine ⟨data, rest, taken, hrest.symm, hsome, heq, hwhole, ?_, ?_, ?_⟩
  · rintro rfl
    rw [heq]
    refine hdone ?_
    rw [← hitems]
    exact hmax
  · rw [length_append]
    omega
  · rw [← hitems]
    rfl

theorem Framed.next (h : Framed codec S r) {call : FeedCall} (hmax : 1 ≤ call.maxOut) :
    Framed codec S (feedCall codec r call) ∧ (feedCall codec r call).left ≤ r.left ∧
      (0 < call.arrived → r.buf.length + 1 < clientReadBufSize →
        (feedCall codec r call).left ≤ r.left - 1) := by
  rcases Nat.lt_or_eq_of_le h.room with hroom | hfull
  · obtain ⟨data, rest, taken, hunread, hsome, heq, hwhole, hnone, hfits, hcall⟩ :=
      feedCall_room codec hroom hmax
    generalize feedCall codec r call = next at heq hcall ⊢
    obtain ⟨old, hS, hold, hmsgs⟩ := h.split
    have hlength := congrArg List.length heq
    simp only [length_append] at hlength hfits
    have hbytes : r.buf ++ r.unread = taken ++ (next.buf ++ rest) := by
      rw [hunread, ← append_assoc, heq, append_assoc]
    have hleft : r.left = data.length + taken.count newline + next.left := by
      have hrest : next.unread = rest := by rw [hcall]
      rw [FeedResult.left, FeedResult.left, hbytes, hunread, hrest, count_append,
        length_append]
      omega
    refine ⟨⟨⟨old ++ taken, ?_, hold.append hwhole, ?_⟩, by omega, fun hfull => ?_, ?_⟩, by omega,
      fun harrived _ => ?_⟩
    · rw [hS, hbytes, hcall, append_assoc]
    · rw [hcall, hmsgs, messages, messages, messages, items_append hold]
    · -- nothing was taken out of a buffer that is full now
      have hnil : taken = [] := eq_nil_of_length_eq_zero (by omega)
      have hno := hnone hnil
      rwa [heq, hnil] at hno
    · rw [hcall]
      intro hover
      exact absurd (h.ended hover) (by omega)
    · cases hdata : data with
      | cons c data =>
        rw [hdata, length_cons] at hleft
        omega
      | nil =>
        cases hwhole with
        | inr hlast =>
          have hcount := count_pos_iff.mpr (mem_of_getLast? hlast)
          omega
        | inl hnil =>
          -- there was nothing to read and no line in the buffer
          have hdone : r.left = 0 := by
            rw [FeedResult.left_eq_zero]
            have hno := hnone hnil
            rw [hdata, append_nil] at hno
            exact ⟨hsome harrived hdata, hno⟩
          omega
  · rw [feedCall_full hfull]
    refine ⟨⟨h.split, h.room, h.full, fun _ => hfull⟩, Nat.le_refl _, fun _ hroom => ?_⟩
    omega

theorem Framed.run (h : Framed codec S r) {calls : List FeedCall}
    (hcalls : ∀ call ∈ calls, 1 ≤ call.maxOut) : Framed codec S (calls.foldl (feedCall codec) r) :=
      by
  induction calls generalizing r with
  | nil => exact h
  | cons call calls ih =>
    rw [forall_mem_cons] at hcalls
    exact ih (h.next hcalls.1).1 hcalls.2

theorem Framed.buf_infix (h : Framed codec S r) : r.buf <:+: S := by
  obtain ⟨taken, hS, -⟩ := h.split
  exact ⟨taken, r.unread, by rw [hS, append_assoc]⟩

def Lined (S : Bytes) : Prop := ∀ piece, piece <:+: S → piece.length = 65535 → newline ∈ piece

theorem Framed.lt_size (h : Framed codec S r) (hS : Lined S) :
    r.buf.length + 1 < clientReadBufSize := by
  refine Nat.lt_of_le_of_ne h.room fun hfull => h.full hfull (hS r.buf h.buf_infix ?_)
  have hsize : clientReadBufSize = 65536 := rfl
  omega

theorem Framed.left_run (h : Framed codec S r) (hS : Lined S) {calls : List FeedCall}
    (hcalls : ∀ call ∈ calls, 1 ≤ call.maxOut) :
    (calls.foldl (feedCall codec) r).left ≤ r.left - calls.countP (0 < ·.arrived) := by
  induction calls generalizing r with
  | nil => exact Nat.le_refl _
  | cons call calls ih =>
    rw [forall_mem_cons] at hcalls
    obtain ⟨hnext, hle, hless⟩ := h.next hcalls.1
    have hrest := ih hnext hcalls.2
    rw [foldl_cons, countP_cons]
    by_cases harrived : 0 < call.arrived
    · have hstep := hless harrived (h.lt_size hS)
      rw [if_pos (decide_eq_true harrived)]
      omega
    · rw [if_neg (by simpa using harrived)]
      omega

/-- However the kernel cuts a stream into reads and however many messages a call may return,
the calls return the messages of the lines of the stream in order, each once, all of them once
everything is consumed, and it is consumed when calls have read for each byte and each line.
The connection is ended only for a buffer that is full and has no end of line. -/
theorem client_framing_independent (codec : Codec) (S : Bytes) (calls : List FeedCall)
    (hcalls : ∀ call ∈ calls, 1 ≤ call.maxOut) :
    let r := feedCalls codec S calls
    r.msgs <+: messages codec S ∧
    (r.disconnected = true → r.buf.length = 65535 ∧ newline ∉ r.buf) ∧
    (Lined S → r.disconnected = false ∧
      (r.unread = [] → newline ∉ r.buf → r.msgs = messages codec S) ∧
      (S.length + S.count newline ≤ calls.countP (0 < ·.arrived) →
        r.unread = [] ∧ newline ∉ r.buf)) := by
  intro r
  have hsize : clientReadBufSize = 65536 := rfl
  have hstart : Framed codec S ⟨[], [], S, false⟩ :=
    ⟨⟨[], rfl, .inl rfl, rfl⟩, by simp [clientReadBufSize], by simp, nofun⟩
  have h : Framed codec S r := hstart.run hcalls
  obtain ⟨taken, hsplit, hwhole, hmsgs⟩ := h.split
  have hall : messages codec S = r.msgs ++ messages codec (r.buf ++ r.unread) := by
    rw [hmsgs, messages, messages, messages, ← items_append hwhole, ← hsplit]
  refine ⟨hall ▸ prefix_append _ _, fun hover => ?_, fun hS => ⟨?_, fun hunread hnone => ?_,
    fun hcount => ?_⟩⟩
  · have hfull := h.ended hover
    exact ⟨by omega, h.full hfull⟩
  · refine Bool.eq_false_iff.mpr fun hover => ?_
    have hlt := h.lt_size hS
    have hfull := h.ended hover
    omega
  · rw [hall, hunread, append_nil, messages, items_of_not_mem hnone, append_nil]
  · rw [← FeedResult.left_eq_zero]
    have hleft : r.left ≤ S.length + S.count newline - _ := hstart.left_run hS hcalls
    omega

end Calls

theorem client_framing_two_lines :
    let S := statusLine ++ [newline] ++ statusLine ++ [newline]
    let r := feedCalls JsonText.textCodec S [⟨1, 20⟩, ⟨1, 40⟩, ⟨1, 0⟩]
    r.msgs.length = 2 ∧ r.msgs <+: messages JsonText.textCodec S := by
  intro S r
  exact ⟨by decide +kernel,
    (client_framing_independent JsonText.textCodec S [⟨1, 20⟩, ⟨1, 40⟩, ⟨1, 0⟩] (by decide)).1⟩

/-- Seventeen status requests in one read, taken in two rounds, and later the end of the stream
with a hang-up. -/
theorem client_lines_two_rounds :
    let S := framed newline (List.replicate 17 statusLine)
    let steps : List ConnStep :=
      [.event ⟨true, fun k => if k = 0 then .data 400 else .again, false, false⟩,
        .event ⟨true, fun _ => .eof, true, false⟩]
    let c := connRun JsonText.textCodec (fun s _ => (s, false)) (newConn () S) steps
    Delivered JsonText.textCodec S c ∧ c.live = false ∧ c.dispatched.length = 17 := by
  intro S steps c
  refine ⟨client_lines_dispatched JsonText.textCodec _ () (List.replicate 17 statusLine)
    (by decide +kernel) steps (fun i step hstep => ?_) 2, by decide +kernel, by decide +kernel⟩
  rcases i with _ | _ | i
  · obtain rfl := Option.some.inj hstep
    refine fun _ => ⟨fun _ => ⟨2, by decide, ?_, .inl (by decide +kernel)⟩, nofun⟩
    decide +kernel
  · obtain rfl := Option.some.inj hstep
    refine fun _ => ⟨fun _ => ⟨0, by decide, nofun, .inr (.inr ⟨by decide, rfl, ?_⟩)⟩, fun _ => ?_⟩
    · decide +kernel
    · decide +kernel
  · cases hstep

/-- Seventeen status requests in one read and the end of the stream behind them:
the batch takes sixteen, the next read finds the end, and the last request is
given up. -/
theorem client_lines_lost :
    ¬ Delivered JsonText.textCodec (framed newline (List.replicate 17 statusLine))
      (connRun JsonText.textCodec (fun s _ => (s, false))
        (newConn () (framed newline (List.replicate 17 statusLine)))
        [.event ⟨true, fun k => if k = 0 then .data 400 else .eof, true, false⟩]) := by
  intro h
  have hlost := congrArg List.length (h.allDispatched (by decide +kernel) (by decide +kernel))
  revert hlost
  decide +kernel

end Smolmux.Client
