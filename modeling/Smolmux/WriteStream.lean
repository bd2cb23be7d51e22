import Mathlib.Data.List.Flatten
import Smolmux.JsonText
import Smolmux.WriteQueue

/-! What a client reads from its socket. Every line of the queue stands for a
group of accepted messages: one message, or several outputs merged. The history
of the queue keeps these groups, the messages accepted and refused and the bytes
written, next to the queue itself. -/

namespace Smolmux.Client
open Protocol Base64 List

inductive QueueMsg where
  | output (payload : Bytes) (nonempty : payload ≠ []) (timestamp : Rat)
  | other (msg : Json) (type : lookupType (msg.getString "type") ≠ .output)

namespace QueueMsg

def json : QueueMsg → Json
  | output payload _ timestamp => msgOutput payload timestamp
  | other msg _ => msg

def isOutput : QueueMsg → Bool
  | output .. => true
  | other .. => false

def payload : QueueMsg → Bytes
  | output payload .. => payload
  | other .. => []

def timestamp : QueueMsg → Rat
  | output _ _ timestamp => timestamp
  | other .. => 0

end QueueMsg

def Mergeable (g : List QueueMsg) : Prop :=
  (∃ m, g = [m]) ∨ (g ≠ [] ∧ ∀ m ∈ g, m.isOutput = true)

/-- The message that stands for a group: outputs give one output with all their
payloads and the newest timestamp. -/
def groupJson : List QueueMsg → Json
  | [.other msg _] => msg
  | g => msgOutput (g.flatMap QueueMsg.payload) ((g.getLast?.map QueueMsg.timestamp).getD 0)

def groupLine (codec : Codec) (g : List QueueMsg) : Bytes := msgEncode codec (groupJson g)

def touched (codec : Codec) : List (List QueueMsg) → Nat → List (List QueueMsg)
  | [], _ => []
  | g :: gs, n => if n = 0 then [] else g :: touched codec gs (n - (groupLine codec g).length)

structure Session where
  queue : WriteQueue
  accepted : List QueueMsg
  rejected : List Nat
  written : Bytes
  groups : List (List QueueMsg)

inductive QueueOp where
  | send (m : QueueMsg)
  | sendRaw (m : QueueMsg)
  | sendShared (m : QueueMsg)
  | flush (results : List WriteResult)

def addToLast (groups : List (List QueueMsg)) (m : QueueMsg) : List (List QueueMsg) :=
  groups.dropLast ++ [groups.getLastD [] ++ [m]]

def Session.sent (s : Session) (m : QueueMsg) (r : WriteQueue × Bool) : Session :=
  if r.2 then
    { s with queue := r.1, accepted := s.accepted ++ [m], groups := s.groups ++ [[m]] }
  else { s with queue := r.1, rejected := s.rejected ++ [s.queue.count] }

def Session.step (codec : Codec) (s : Session) : QueueOp → Session
  | .send m => s.sent m (clientSend codec true s.queue m.json)
  | .sendRaw m => s.sent m (clientSendRaw s.queue (msgEncode codec m.json))
  | .sendShared m =>
    let line := msgEncode codec m.json
    match tryCoalesceOutput codec true s.queue line with
    | some _ =>
      { s with
        queue := (clientSendShared codec true s.queue line).1
        accepted := s.accepted ++ [m]
        groups := addToLast s.groups m }
    | none => s.sent m (clientSendShared codec true s.queue line)
  | .flush results =>
    let (queue, _, bytes) := clientFlush results s.queue
    { s with queue := queue, written := s.written ++ bytes }

def Session.new : Session := ⟨newQueue, [], [], [], []⟩

def runQueue (codec : Codec) (ops : List QueueOp) : Session :=
  ops.foldl (Session.step codec) Session.new

theorem groupJson_singleton (m : QueueMsg) : groupJson [m] = m.json := by
  cases m with
  | output payload _ timestamp => simp [groupJson, QueueMsg.json, QueueMsg.payload,
      QueueMsg.timestamp]
  | other msg _ => rfl

variable {g : List QueueMsg}

theorem groupJson_outputs (h : ∀ m ∈ g, m.isOutput) :
    groupJson g =
      msgOutput (g.flatMap QueueMsg.payload) ((g.getLast?.map QueueMsg.timestamp).getD 0) := by
  unfold groupJson
  split
  · simp [QueueMsg.isOutput] at h
  · rfl

theorem msgOutput_data (payload : Bytes) (timestamp : Rat) :
    (msgOutput payload timestamp).getString "data" = some (base64Encode payload) := by
  simp [msgOutput, addB64Data, makeMsg, Json.getString]

theorem msgOutput_timestamp (payload : Bytes) (timestamp : Rat) :
    (msgOutput payload timestamp).getDouble "timestamp" 0 = timestamp := by
  simp [msgOutput, addB64Data, makeMsg, Json.getDouble, Json.getNumber]

theorem guard_some {p : Prop} [Decidable p] {u : Unit} (h : guard p = some u) : p := by
  by_contra hp
  simp [guard, hp] at h

theorem mergeable_outputs (h : Mergeable g)
    (htype : lookupType ((groupJson g).getString "type") = .output) :
    ∀ m ∈ g, m.isOutput := by
  rcases h with ⟨m, rfl⟩ | ⟨-, hall⟩
  · cases m with
    | output => simp [QueueMsg.isOutput]
    | other msg hother => exact absurd htype hother
  · exact hall

variable {m : QueueMsg}

theorem mergedLine_group (codec : Codec) (hg : Mergeable g) {line : Bytes}
    (h : mergedLine codec true (groupLine codec g) (groupLine codec [m]) = some line) :
    Mergeable (g ++ [m]) ∧ line = groupLine codec (g ++ [m]) := by
  simp only [mergedLine, Option.bind_eq_bind, Option.bind_eq_some_iff, Option.pure_def] at h
  obtain ⟨oldRoot, hold, newRoot, hnew, _, htypes, oldB64, hob, oldRaw, hor, newB64, hnb, newRaw,
    hnr, _, -, hline⟩ := h
  obtain ⟨hdecOld, rfl⟩ := msgDecode_encode codec _ hold
  obtain ⟨hdecNew, rfl⟩ := msgDecode_encode codec _ hnew
  have htype := guard_some htypes
  rw [groupLine, groupLine, hdecOld, hdecNew] at htype
  have hall := mergeable_outputs hg htype.1
  have hm := mergeable_outputs (.inl ⟨m, rfl⟩) htype.2
  have hboth : ∀ x ∈ g ++ [m], x.isOutput := by
    intro x hx
    rcases mem_append.mp hx with hx | hx
    · exact hall x hx
    · exact hm x hx
  refine ⟨.inr ⟨by simp, hboth⟩, ?_⟩
  rw [groupJson_outputs hall, msgOutput_data, Option.some.injEq] at hob
  rw [groupJson_outputs hm, msgOutput_data, Option.some.injEq] at hnb
  rw [← hob, base64Decode_encode, Option.some.injEq] at hor
  rw [← hnb, base64Decode_encode, Option.some.injEq] at hnr
  rw [groupLine, groupJson_outputs hboth, ← Option.some.inj hline, groupJson_outputs hm,
    msgOutput_timestamp, ← hor, ← hnr]
  simp

def startedBytes : List WriteEntry → Bytes
  | [] => []
  | e :: _ => e.data.take e.offset

def Started : List WriteEntry → Prop
  | [] => True
  | e :: rest => e.offset < e.data.length ∧ ∀ x ∈ rest, x.offset = 0

variable {x : WriteEntry}

theorem started_concat {es : List WriteEntry} (h : Started es) (hoff : x.offset = 0)
    (hdata : x.data ≠ []) :
    Started (es ++ [x]) ∧ startedBytes (es ++ [x]) = startedBytes es := by
  cases es with
  | nil => simpa [Started, startedBytes, hoff] using length_pos_iff.mpr hdata
  | cons e rest =>
    refine ⟨⟨h.1, fun y hy => ?_⟩, rfl⟩
    rcases mem_append.mp hy with hy | hy
    · exact h.2 y hy
    · rwa [mem_singleton.mp hy]

theorem started_dropLast {es : List WriteEntry} (h : Started (es ++ [x])) (hoff : x.offset = 0) : Started es ∧ startedBytes (es ++ [x]) = startedBytes es := by
  cases es with
  | nil => simp [Started, startedBytes, hoff]
  | cons e rest => exact ⟨⟨h.1, fun y hy => h.2 y (mem_append_left _ hy)⟩, rfl⟩

/-- The queue holds the lines of the last groups, and everything before them and
the started part of the first is written. -/
structure Holds (codec : Codec) (q : WriteQueue) (groups : List (List QueueMsg))
    (written : Bytes) : Prop where
  count_le : q.count ≤ q.cap
  head_lt : q.head < q.cap
  started : Started q.entries
  lines : ∃ done live, groups = done ++ live ∧
    q.entries.map WriteEntry.data = live.map (groupLine codec) ∧
    written = done.flatMap (groupLine codec) ++ startedBytes q.entries

variable {codec : Codec} {q : WriteQueue} {groups : List (List QueueMsg)} {written : Bytes}

theorem groupLine_ne_nil (codec : Codec) (g : List QueueMsg) : groupLine codec g ≠ [] := by
  simp [groupLine, msgEncode]

theorem Holds.written_append (h : Holds codec q groups written) :
    written ++ q.entries.flatMap (fun e => e.data.drop e.offset) =
      groups.flatMap (groupLine codec) := by
  obtain ⟨done, live, rfl, hlive, rfl⟩ := h.lines
  have hstarted := h.started
  rw [flatMap_append, append_assoc]
  congr 1
  rw [flatMap_def (l := live), ← hlive]
  generalize q.entries = es at hstarted
  cases es with
  | nil => rfl
  | cons e rest =>
    have hrest : rest.flatMap (fun e => e.data.drop e.offset) = rest.flatMap WriteEntry.data := by
      rw [flatMap_def, flatMap_def]
      congr 1
      exact map_congr_left fun x hx => by rw [hstarted.2 x hx, drop_zero]
    rw [flatMap_cons, hrest, startedBytes, ← append_assoc, take_append_drop,
      map_cons, flatten_cons, flatMap_def]

theorem enqueue_full (fill : WriteEntry → WriteEntry) (h : q.count = q.cap) :
    enqueue q fill = ({ q with drops := q.drops + 1 }, false) := by
  simp [enqueue, h]

theorem enqueue_room (fill : WriteEntry → WriteEntry) (h : q.count < q.cap) :
    ∃ old slots, enqueue q fill = ({ q with slots := slots, count := q.count + 1 }, true) ∧
      Circular.view slots q.head (q.count + 1) q.cap = q.entries ++ [fill old] := by
  refine ⟨q.slots ((q.head + q.count) % q.cap), _, if_neg (Nat.not_le.mpr h), ?_⟩
  exact Circular.view_push q.slots q.head q.count q.cap _ h

theorem Holds.push (h : Holds codec q groups written) (hroom : q.count < q.cap)
    {slots : Nat → WriteEntry}
    (hview : Circular.view slots q.head (q.count + 1) q.cap = q.entries ++ [x])
    (hdata : x.data = groupLine codec [m]) (hoff : x.offset = 0) :
    Holds codec { q with slots := slots, count := q.count + 1 } (groups ++ [[m]]) written := by
  obtain ⟨done, live, rfl, hlive, hwritten⟩ := h.lines
  have hne : x.data ≠ [] := hdata ▸ groupLine_ne_nil codec _
  obtain ⟨hstarted, hbytes⟩ := started_concat h.started hoff hne
  refine ⟨hroom, h.head_lt, ?_, done, live ++ [[m]], ?_, ?_, ?_⟩
  · rwa [WriteQueue.entries, hview]
  · rw [append_assoc]
  · rw [WriteQueue.entries, hview, map_append, map_append, hlive]
    simp [hdata]
  · rw [WriteQueue.entries, hview, hbytes, hwritten]

theorem tryCoalesceOutput_some {mem : Bool} {line : Bytes} {q' : WriteQueue}
    (h : tryCoalesceOutput codec mem q line = some q') :
    0 < q.count ∧ ∃ prev merged slot, slot = (q.head + q.count - 1) % q.cap ∧
      q.slots slot = prev ∧ prev.offset = 0 ∧ mergedLine codec mem prev.data line = some merged ∧
      q' = { q with slots := Function.update q.slots slot ⟨merged, true, 0⟩ } := by
  unfold tryCoalesceOutput at h
  dsimp only at h
  split_ifs at h with h1 h2
  obtain ⟨merged, hmerged, rfl⟩ := Option.map_eq_some_iff.mp h
  simp only [not_or, ne_eq, not_not] at h1 h2
  exact ⟨Nat.pos_of_ne_zero h1.1, _, merged, _, rfl, rfl, h2, hmerged, rfl⟩

theorem Holds.merge (h : Holds codec q groups written) (hgroups : ∀ g ∈ groups, Mergeable g)
    {q' : WriteQueue} (hq : tryCoalesceOutput codec true q (groupLine codec [m]) = some q') :
    Holds codec q' (addToLast groups m) written ∧ Mergeable (groups.getLastD [] ++ [m]) ∧
      groups ≠ [] ∧ written.length ≤ (groups.dropLast.flatMap (groupLine codec)).length := by
  obtain ⟨hcount, prev, merged, slot, hslot, hprev, hoff, hmerged, rfl⟩ :=
    tryCoalesceOutput_some hq
  obtain ⟨done, live, rfl, hlive, hwritten⟩ := h.lines
  have hlast := Circular.view_getLast q.slots q.head q.count q.cap hcount
  have hset := Circular.view_set_last q.slots q.head q.count q.cap ⟨merged, true, 0⟩ hcount
    h.count_le
  rw [← hslot] at hlast hset
  rw [hprev] at hlast
  change q.entries = q.entries.dropLast ++ [prev] at hlast
  -- the last entry is the line of the last group
  have hlen : q.entries.length = live.length := by simpa using congrArg List.length hlive
  have hne : live ≠ [] := by
    rintro rfl
    simp [WriteQueue.entries] at hlen
    omega
  obtain ⟨before, g, rfl⟩ : ∃ before g, live = before ++ [g] :=
    ⟨live.dropLast, live.getLast hne, (dropLast_append_getLast hne).symm⟩
  rw [hlast, map_append, map_append] at hlive
  obtain ⟨hbefore, hdata⟩ := append_inj' hlive rfl
  have hprevLine : prev.data = groupLine codec g := by simpa using hdata
  rw [hprevLine] at hmerged
  obtain ⟨hmerge, hline⟩ := mergedLine_group codec (hgroups g (by simp)) hmerged
  have hstarted := h.started
  rw [hlast] at hstarted hwritten
  obtain ⟨hstarted', hbytes⟩ := started_dropLast hstarted hoff
  obtain ⟨hnew, hnewBytes⟩ := started_concat (x := ⟨merged, true, 0⟩) hstarted' rfl
    (by rw [hline]; exact groupLine_ne_nil codec _)
  have hview : WriteQueue.entries
      { q with slots := Function.update q.slots slot ⟨merged, true, 0⟩ } =
      q.entries.dropLast ++ [⟨merged, true, 0⟩] := hset
  have hgetLast : (done ++ (before ++ [g])).getLastD [] = g := by
    rw [← append_assoc, getLastD_concat]
  have hdrop : (done ++ (before ++ [g])).dropLast = done ++ before := by
    rw [← append_assoc, dropLast_concat]
  refine ⟨⟨h.count_le, h.head_lt, by rwa [hview], done, before ++ [g ++ [m]], ?_, ?_, ?_⟩, ?_,
    by simp, ?_⟩
  · rw [addToLast, hgetLast, hdrop, append_assoc]
  · rw [hview, map_append, map_append, hbefore]
    simp [hline]
  · rw [hview, hnewBytes, hwritten, hbytes]
  · rwa [hgetLast]
  · rw [hdrop, hwritten, hbytes, flatMap_append, length_append, length_append]
    have hle : (startedBytes q.entries.dropLast).length ≤
        (before.flatMap (groupLine codec)).length := by
      rw [flatMap_def, ← hbefore]
      generalize q.entries.dropLast = es
      cases es with
      | nil => exact Nat.zero_le _
      | cons e rest =>
        simp only [startedBytes, map_cons, flatten_cons, length_append,
          length_take]
        omega
    omega

theorem Holds.writeHead (h : Holds codec q groups written) (hcount : 0 < q.count) (room : Nat) :
    Holds codec (writeHead q room).1 groups (written ++ (writeHead q room).2) := by
  obtain ⟨done, live, rfl, hlive, rfl⟩ := h.lines
  have hcons := Circular.view_cons q.slots q.head q.count q.cap h.head_lt hcount
  have hpop := fun x => Circular.view_pop q.slots q.head q.count q.cap x h.head_lt hcount h.count_le
  have hset := fun x =>
    Circular.view_set_head q.slots q.head q.count q.cap x h.head_lt hcount h.count_le
  have hstarted := h.started
  change q.entries = _ at hcons
  generalize Circular.view q.slots ((q.head + 1) % q.cap) (q.count - 1) q.cap = rest at hcons
  rw [show Circular.view q.slots q.head q.count q.cap = q.entries from rfl, hcons,
    tail_cons] at hpop hset
  rw [hcons] at hstarted hlive ⊢
  obtain ⟨hlt, hrest⟩ := hstarted
  rw [map_cons] at hlive
  obtain ⟨g, live', rfl, hg, hlive'⟩ := map_eq_cons_iff.mp hlive.symm
  unfold Client.writeHead
  dsimp only
  generalize q.slots q.head = e at *
  have hlen : ((e.data.drop e.offset).take room).length =
      min room (e.data.length - e.offset) := by simp
  split_ifs with hdone
  · -- the line is finished: its group moves to the written part
    have hall : (e.data.drop e.offset).take room = e.data.drop e.offset := by
      rw [take_of_length_le]
      rw [length_drop]
      omega
    have hentries := hpop ⟨[], false, e.offset + ((e.data.drop e.offset).take room).length⟩
    refine ⟨by simp only; have := h.count_le; omega, Nat.mod_lt _ (by have := h.head_lt; omega), ?_,
      done ++ [g], live', ?_, ?_, ?_⟩
    · rw [WriteQueue.entries, hentries]
      cases rest with
      | nil => trivial
      | cons x xs =>
        refine ⟨?_, fun y hy => hrest y (mem_cons_of_mem _ hy)⟩
        rw [hrest x (mem_cons_self ..)]
        obtain ⟨g', live'', rfl, hg', -⟩ := map_eq_cons_iff.mp hlive'
        rw [← hg']
        exact length_pos_iff.mpr (groupLine_ne_nil codec g')
    · rw [append_assoc, singleton_append]
    · rw [WriteQueue.entries, hentries, hlive']
    · have hnone : startedBytes rest = [] := by
        cases rest with
        | nil => rfl
        | cons x xs => simp [startedBytes, hrest x (mem_cons_self ..)]
      dsimp only
      rw [WriteQueue.entries, hentries, hall, hnone, flatMap_append, flatMap_singleton,
        hg, append_nil, append_assoc, startedBytes, take_append_drop]
  · have hentries := hset { e with offset := e.offset + ((e.data.drop e.offset).take room).length }
    refine ⟨h.count_le, h.head_lt, ?_, done, g :: live', rfl, ?_, ?_⟩
    · rw [WriteQueue.entries, hentries]
      exact ⟨Nat.lt_of_not_le hdone, hrest⟩
    · rw [WriteQueue.entries, hentries, map_cons, map_cons, hlive', hg]
    · dsimp only
      rw [WriteQueue.entries, hentries, startedBytes, startedBytes, append_assoc, hlen,
        take_add, ← length_drop, ← take_eq_take_min]

theorem Holds.clientFlush (results : List WriteResult) (h : Holds codec q groups written) :
    Holds codec (clientFlush results q).1 groups (written ++ (clientFlush results q).2.2) := by
  induction results generalizing q written with
  | nil =>
    unfold Client.clientFlush
    split_ifs <;> simpa using h
  | cons r rest ih =>
    unfold Client.clientFlush
    split_ifs with hempty
    · simpa using h
    · cases r with
      | again => simpa using h
      | failed => simpa using h
      | wrote room =>
        have hnext := ih (h.writeHead (Nat.pos_of_ne_zero hempty) room)
        simpa [append_assoc] using hnext

theorem clientFlush_frame (results : List WriteResult) (q : WriteQueue) :
    (clientFlush results q).1.drops = q.drops ∧ (clientFlush results q).1.cap = q.cap := by
  have hwrite : ∀ (q : WriteQueue) room,
      (writeHead q room).1.drops = q.drops ∧ (writeHead q room).1.cap = q.cap := by
    intro q room
    unfold writeHead
    dsimp only
    split_ifs <;> exact ⟨rfl, rfl⟩
  induction results generalizing q with
  | nil =>
    unfold clientFlush
    split_ifs <;> exact ⟨rfl, rfl⟩
  | cons r rest ih =>
    unfold clientFlush
    split_ifs
    · exact ⟨rfl, rfl⟩
    · cases r with
      | again => exact ⟨rfl, rfl⟩
      | failed => exact ⟨rfl, rfl⟩
      | wrote room =>
        obtain ⟨h1, h2⟩ := ih (writeHead q room).1
        exact ⟨h1.trans (hwrite q room).1, h2.trans (hwrite q room).2⟩

theorem touched_append (codec : Codec) (gs hs : List (List QueueMsg)) {n : Nat}
    (h : n ≤ (gs.flatMap (groupLine codec)).length) :
    touched codec (gs ++ hs) n = touched codec gs n := by
  induction gs generalizing n with
  | nil =>
    have hzero : n = 0 := by simpa using h
    cases hs <;> simp [touched, hzero]
  | cons g gs ih =>
    simp only [flatMap_cons, length_append] at h
    simp only [cons_append, touched, ih (Nat.sub_le_iff_le_add'.mpr h)]

theorem touched_mono (codec : Codec) (gs : List (List QueueMsg)) {n k : Nat} (h : n ≤ k) :
    touched codec gs n <+: touched codec gs k := by
  induction gs generalizing n k with
  | nil => exact prefix_rfl
  | cons g gs ih =>
    simp only [touched]
    split_ifs with h1 h2
    · exact prefix_rfl
    · exact nil_prefix
    · omega
    · exact (prefix_cons_inj g).mpr (ih (by omega))

theorem touched_append_right (codec : Codec) (gs : List (List QueueMsg)) (n : Nat) :
    touched codec gs n <+: gs := by
  induction gs generalizing n with
  | nil => exact prefix_rfl
  | cons g gs ih =>
    simp only [touched]
    split_ifs
    · exact nil_prefix
    · exact (prefix_cons_inj g).mpr (ih _)

/-- The history of a session is right: the queue holds what is not written, the
groups are the accepted messages in order, and drops are refusals of a full
queue. -/
structure Session.Good (codec : Codec) (s : Session) : Prop where
  holds : Holds codec s.queue s.groups s.written
  mergeable : ∀ g ∈ s.groups, Mergeable g
  accepted : s.groups.flatten = s.accepted
  drops : s.queue.drops = s.rejected.length
  full : ∀ n ∈ s.rejected, n = s.queue.cap

/-- `s'` comes after `s`: lines that were begun stay as they were. -/
def Session.Follows (codec : Codec) (s s' : Session) : Prop :=
  touched codec s.groups s.written.length <+: touched codec s'.groups s'.written.length

variable {s : Session}

theorem Holds.length_le (h : Holds codec q groups written) :
    written.length ≤ (groups.flatMap (groupLine codec)).length := by
  rw [← h.written_append, length_append]
  exact Nat.le_add_right _ _

theorem Session.Good.enqueue (h : s.Good codec) {fill : WriteEntry → WriteEntry}
    (hdata : ∀ e, (fill e).data = groupLine codec [m]) (hoff : ∀ e, (fill e).offset = 0) :
    (s.sent m (enqueue s.queue fill)).Good codec ∧
      s.Follows codec (s.sent m (enqueue s.queue fill)) := by
  rcases Nat.lt_or_ge s.queue.count s.queue.cap with hroom | hfull
  · obtain ⟨old, slots, heq, hview⟩ := enqueue_room fill hroom
    have hpush := h.holds.push hroom hview (hdata old) (hoff old)
    simp only [Session.sent, heq, if_true]
    refine ⟨⟨hpush, ?_, ?_, h.drops, h.full⟩, ?_⟩
    · intro g hg
      rcases mem_append.mp hg with hg | hg
      · exact h.mergeable g hg
      · exact .inl ⟨m, mem_singleton.mp hg⟩
    · simp [h.accepted]
    · exact ⟨[], (append_nil _).trans (touched_append codec _ _ h.holds.length_le).symm⟩
  · have hcount : s.queue.count = s.queue.cap := le_antisymm h.holds.count_le hfull
    simp only [Session.sent, enqueue_full fill hcount, Bool.false_eq_true, if_false]
    refine ⟨⟨?_, h.mergeable, h.accepted, ?_, ?_⟩, prefix_rfl⟩
    · exact ⟨h.holds.count_le, h.holds.head_lt, h.holds.started, h.holds.lines⟩
    · simp [h.drops]
    · intro n hn
      rcases mem_append.mp hn with hn | hn
      · exact h.full n hn
      · rw [mem_singleton.mp hn, hcount]

theorem Session.Good.step (h : s.Good codec) (op : QueueOp) :
    (s.step codec op).Good codec ∧ s.Follows codec (s.step codec op) := by
  have hline : ∀ m : QueueMsg, msgEncode codec m.json = groupLine codec [m] := fun m => by
    rw [groupLine, groupJson_singleton]
  cases op with
  | send m =>
    simp only [Session.step, clientSend, if_true]
    exact h.enqueue (fun _ => hline m) fun _ => rfl
  | sendRaw m =>
    simp only [Session.step, clientSendRaw]
    exact h.enqueue (fun _ => hline m) fun _ => rfl
  | sendShared m =>
    simp only [Session.step, clientSendShared, hline]
    cases hq : tryCoalesceOutput codec true s.queue (groupLine codec [m]) with
    | none => exact h.enqueue (fun _ => rfl) fun _ => rfl
    | some q' =>
      obtain ⟨hholds, hmerge, hne, hlen⟩ := h.holds.merge h.mergeable hq
      obtain ⟨-, _, _, _, -, -, -, -, rfl⟩ := tryCoalesceOutput_some hq
      have hsplit : s.groups.dropLast ++ [s.groups.getLastD []] = s.groups := by
        rw [getLastD_eq_getLast?, getLast?_eq_some_getLast hne, Option.getD_some,
          dropLast_append_getLast]
      refine ⟨⟨hholds, ?_, ?_, h.drops, h.full⟩, ?_⟩
      · intro g hg
        rcases mem_append.mp hg with hg | hg
        · exact h.mergeable g (dropLast_subset _ hg)
        · rwa [mem_singleton.mp hg]
      · have hflat := h.accepted
        rw [← hsplit] at hflat
        simp only [addToLast, ← hflat, flatten_append, flatten_cons, flatten_nil,
          append_nil, append_assoc]
      · have hbefore : touched codec s.groups s.written.length =
            touched codec s.groups.dropLast s.written.length := by
          conv_lhs => rw [← hsplit]
          exact touched_append codec _ _ hlen
        exact ⟨[], (append_nil _).trans (hbefore.trans (touched_append codec _ _ hlen).symm)⟩
  | flush results =>
    have hholds := h.holds.clientFlush results
    obtain ⟨hdrops, hcap⟩ := clientFlush_frame results s.queue
    refine ⟨⟨hholds, h.mergeable, h.accepted, hdrops.trans h.drops, ?_⟩, ?_⟩
    · exact fun n hn => (h.full n hn).trans hcap.symm
    exact touched_mono codec s.groups (by simp [Session.step])

theorem foldl_good (ops : List QueueOp) (h : s.Good codec) :
    (ops.foldl (Session.step codec) s).Good codec ∧
      s.Follows codec (ops.foldl (Session.step codec) s) := by
  induction ops generalizing s with
  | nil => exact ⟨h, prefix_rfl⟩
  | cons op ops ih =>
    obtain ⟨hgood, hfollows⟩ := h.step op
    obtain ⟨hrun, hrest⟩ := ih hgood
    exact ⟨hrun, List.IsPrefix.trans hfollows hrest⟩

theorem new_good (codec : Codec) : Session.new.Good codec where
  holds := ⟨Nat.zero_le _, by decide, trivial, [], [], rfl, rfl, rfl⟩
  mergeable := by simp [Session.new]
  accepted := rfl
  drops := rfl
  full := by simp [Session.new]

/-- The write queue delivers the accepted stream. After any interleaving of the
three sends and flushes, with any outcomes of `write`, the bytes written are the
start of a sequence of whole lines that carry the accepted messages in order, a
line standing for one message or for a run of outputs merged into one. A line of
which anything is written stays as it is in every continuation. Messages are
refused only by a queue with every slot taken, and `drops` counts them. -/
theorem write_queue_delivers (codec : Codec) (ops : List QueueOp) :
    let s := runQueue codec ops
    s.groups.flatten = s.accepted ∧ (∀ g ∈ s.groups, Mergeable g) ∧
      s.written <+: s.groups.flatMap (groupLine codec) ∧
      (∀ more, touched codec s.groups s.written.length <+:
        (runQueue codec (ops ++ more)).groups) ∧
      (∀ n ∈ s.rejected, n = s.queue.cap) ∧ s.queue.drops = s.rejected.length := by
  intro s
  obtain ⟨hgood, -⟩ := foldl_good ops (new_good codec)
  refine ⟨hgood.accepted, hgood.mergeable, ⟨_, hgood.holds.written_append⟩, fun more => ?_,
    hgood.full, hgood.drops⟩
  obtain ⟨-, hfollows⟩ := foldl_good more hgood
  rw [runQueue, foldl_append]
  exact List.IsPrefix.trans hfollows (touched_append_right codec _ _)

theorem write_queue_two_outputs :
    let s := runQueue JsonText.textCodec [.sendShared (.output [97] (by decide) 1),
      .sendShared (.output [98] (by decide) 2), .flush [.wrote 20, .again]]
    s.groups.length = 1 ∧ s.written.length = 20 ∧
      s.written <+: s.groups.flatMap (groupLine JsonText.textCodec) :=
  ⟨by decide +kernel, by decide +kernel, (write_queue_delivers JsonText.textCodec _).2.2.1⟩

end Smolmux.Client
