import Mathlib.Data.List.Forall2
import Smolmux.WriteQueue

/-! The outbound queue of a link (`link_wq.c`). A write goes straight to the
descriptor as far as it takes bytes, and the rest waits in a circular array of
entries that grows. An entry owns a copy of its bytes; a freed entry has a null
pointer, and an operation that reads one has no result. -/

namespace Smolmux.Links
open Client List

def linkWriteQueueMaxBytes : Nat := 512 * 1024

structure WqEntry where
  data : Option Bytes
  len : Nat
  offset : Nat

/-- The bytes of an entry that are left to write: `len - offset` bytes from `offset`
on, which have to lie inside the copy. -/
def WqEntry.rest (e : WqEntry) : Option Bytes :=
  match e.data with
  | none => none
  | some data => if data.length < e.len then none else some ((data.take e.len).drop e.offset)

structure LinkWq where
  slots : Nat → WqEntry
  head : Nat
  count : Nat
  cap : Nat
  totalBytes : Nat

def linkWqInit : LinkWq := ⟨fun _ => ⟨none, 0, 0⟩, 0, 0, 0, 0⟩

def LinkWq.entries (wq : LinkWq) : List WqEntry := Circular.view wq.slots wq.head wq.count wq.cap

def LinkWq.queued (wq : LinkWq) : Bytes := wq.entries.flatMap fun e => e.rest.getD []

def linkWqHasPending (wq : LinkWq) : Bool := decide (0 < wq.count)

def LinkWq.grown (wq : LinkWq) : LinkWq :=
  { wq with
    slots := fun i => if i < wq.count then wq.slots ((wq.head + i) % wq.cap) else ⟨none, 0, 0⟩
    head := 0
    cap := if wq.cap = 0 then 16 else wq.cap * 2 }

structure WqMem where
  table : Bool
  copy : Bool

def linkWqEnqueue (mem : WqMem) (wq : LinkWq) (data : Bytes) : LinkWq × Int :=
  if data = [] then (wq, 0)
  else if linkWriteQueueMaxBytes < wq.totalBytes + data.length then (wq, -1)
  else if wq.cap ≤ wq.count ∧ mem.table = false then (wq, -1)
  else
    let wq := if wq.cap ≤ wq.count then wq.grown else wq
    if mem.copy = false then (wq, -1)
    else
      ({ wq with
          slots := Function.update wq.slots ((wq.head + wq.count) % wq.cap)
            ⟨some data, data.length, 0⟩
          count := wq.count + 1
          totalBytes := wq.totalBytes + data.length }, 0)

/-- The loop of a write on an empty queue: the bytes handed to the descriptor come
last. The descriptor is full when the outcomes run out. -/
def writeDirect (mem : WqMem) (wq : LinkWq) : List WriteResult → Bytes → LinkWq × Int × Bytes
  | results, data =>
    if data = [] then (wq, 0, [])
    else
      match results with
      | [] | .again :: _ =>
        let r := linkWqEnqueue mem wq data
        (r.1, r.2, [])
      | .failed :: _ => (wq, -1, [])
      | .wrote room :: rest =>
        if room = 0 then (wq, -1, [])
        else
          let r := writeDirect mem wq rest (data.drop room)
          (r.1, r.2.1, data.take room ++ r.2.2)

def linkWqWrite (mem : WqMem) (results : List WriteResult) (wq : LinkWq) (data : Bytes) :
    LinkWq × Int × Bytes :=
  if data = [] then (wq, 0, [])
  else if linkWqHasPending wq then
    let r := linkWqEnqueue mem wq data
    (r.1, r.2, [])
  else writeDirect mem wq results data

/-- The queue after `n` bytes of its first entry have been written; an entry that is
written completely is freed. -/
def LinkWq.advanced (wq : LinkWq) (n : Nat) : LinkWq :=
  let e := wq.slots wq.head
  let offset := e.offset + n
  if e.len ≤ offset then
    { wq with
      slots := Function.update wq.slots wq.head ⟨none, e.len, offset⟩
      head := (wq.head + 1) % wq.cap
      count := wq.count - 1
      totalBytes := wq.totalBytes - n }
  else
    { wq with
      slots := Function.update wq.slots wq.head { e with offset := offset }
      totalBytes := wq.totalBytes - n }

def linkWqFlush : List WriteResult → LinkWq → Option (LinkWq × FlushResult × Bytes)
  | results, wq =>
    if wq.count = 0 then some (wq, .done, [])
    else
      match (wq.slots wq.head).rest with
      | none => none
      | some rest =>
        match results with
        | [] | .again :: _ => some (wq, .pending, [])
        | .failed :: _ => some (wq, .error, [])
        | .wrote room :: more =>
          let bytes := rest.take room
          if bytes = [] then some (wq, .error, [])
          else
            (linkWqFlush more (wq.advanced bytes.length)).map fun r =>
              (r.1, r.2.1, bytes ++ r.2.2)

/-- The queue is well formed: every entry in it has bytes left to write, and they
are counted. -/
structure LinkWq.Good (wq : LinkWq) : Prop where
  count_le : wq.count ≤ wq.cap
  head_lt : 0 < wq.cap → wq.head < wq.cap
  live : ∀ e ∈ wq.entries, ∃ r, e.rest = some r ∧ r ≠ []
  total : wq.totalBytes = wq.queued.length
  bounded : wq.totalBytes ≤ linkWriteQueueMaxBytes

section Entries

variable {e : WqEntry} {r : Bytes}

theorem rest_fresh (data : Bytes) : (⟨some data, data.length, 0⟩ : WqEntry).rest = some data := by
  simp [WqEntry.rest]

theorem rest_length (h : e.rest = some r) : r.length = e.len - e.offset := by
  unfold WqEntry.rest at h
  split at h
  · cases h
  · split at h
    · cases h
    · cases h
      simp only [length_drop, length_take]
      omega

theorem rest_advanced (h : e.rest = some r) (n : Nat) :
    ({ e with offset := e.offset + n } : WqEntry).rest = some (r.drop n) := by
  unfold WqEntry.rest at h ⊢
  split at h
  · cases h
  · next data hdata =>
    simp only [hdata]
    split at h
    · cases h
    · next hlen =>
      cases h
      rw [if_neg hlen, drop_drop]

end Entries

namespace LinkWq.Good

variable {wq : LinkWq}

theorem queued_nil (h : wq.count = 0) : wq.queued = [] := by
  simp [queued, entries, h]

theorem grown (h : wq.Good) : wq.grown.Good ∧ wq.grown.queued = wq.queued ∧
    wq.grown.count < wq.grown.cap := by
  have hcap : wq.grown.count < wq.grown.cap := by
    have hle := h.count_le
    simp only [LinkWq.grown]
    split <;> omega
  have hentries : wq.grown.entries = wq.entries :=
    Circular.view_compact wq.slots _ wq.head wq.count wq.cap _ hcap.le
  have hqueued : wq.grown.queued = wq.queued := by rw [queued, hentries, queued]
  refine ⟨⟨hcap.le, fun hpos => hpos, ?_, ?_, h.bounded⟩, hqueued, hcap⟩
  · rw [hentries]
    exact h.live
  · rw [hqueued]
    exact h.total

theorem pushed (h : wq.Good) (hroom : wq.count < wq.cap) {data : Bytes} (hdata : data ≠ [])
    (hmax : wq.totalBytes + data.length ≤ linkWriteQueueMaxBytes) :
    let wq' : LinkWq := { wq with
      slots := Function.update wq.slots ((wq.head + wq.count) % wq.cap) ⟨some data, data.length, 0⟩
      count := wq.count + 1
      totalBytes := wq.totalBytes + data.length }
    wq'.Good ∧ wq'.queued = wq.queued ++ data := by
  intro wq'
  have hentries : wq'.entries = wq.entries ++ [⟨some data, data.length, 0⟩] :=
    Circular.view_push wq.slots wq.head wq.count wq.cap _ hroom
  have hqueued : wq'.queued = wq.queued ++ data := by
    rw [queued, hentries, flatMap_append, flatMap_singleton, rest_fresh]
    rfl
  refine ⟨⟨hroom, h.head_lt, fun e he => ?_, ?_, hmax⟩, hqueued⟩
  · rw [hentries] at he
    rcases mem_append.mp he with he | he
    · exact h.live e he
    · exact ⟨data, mem_singleton.mp he ▸ rest_fresh data, hdata⟩
  · rw [hqueued, length_append, ← h.total]

theorem enqueue (h : wq.Good) (mem : WqMem) {data : Bytes} (hdata : data ≠ []) :
    (linkWqEnqueue mem wq data).1.Good ∧
      (((linkWqEnqueue mem wq data).2 = 0 ∧
          (linkWqEnqueue mem wq data).1.queued = wq.queued ++ data) ∨
        ((linkWqEnqueue mem wq data).2 = -1 ∧
          (linkWqEnqueue mem wq data).1.queued = wq.queued)) := by
  unfold linkWqEnqueue
  rw [if_neg hdata]
  split_ifs with hmax htable hfull hcopy hcopy
  · exact ⟨h, .inr ⟨rfl, rfl⟩⟩
  · exact ⟨h, .inr ⟨rfl, rfl⟩⟩
  · exact ⟨h.grown.1, .inr ⟨rfl, h.grown.2.1⟩⟩
  · obtain ⟨hgood, hqueued, hroom⟩ := h.grown
    obtain ⟨hpushed, hdone⟩ := hgood.pushed hroom hdata (not_lt.mp hmax)
    exact ⟨hpushed, .inl ⟨rfl, hdone.trans (by rw [hqueued])⟩⟩
  · exact ⟨h, .inr ⟨rfl, rfl⟩⟩
  · obtain ⟨hpushed, hdone⟩ := h.pushed (not_le.mp hfull) hdata (not_lt.mp hmax)
    exact ⟨hpushed, .inl ⟨rfl, hdone⟩⟩

theorem direct (h : wq.Good) (hempty : wq.count = 0) (mem : WqMem) (results : List WriteResult)
    (data : Bytes) :
    (writeDirect mem wq results data).1.Good ∧ ∃ part, part <+: data ∧
      (writeDirect mem wq results data).2.2 ++ (writeDirect mem wq results data).1.queued = part ∧
      ((writeDirect mem wq results data).2.1 = 0 → part = data) ∧
      ((writeDirect mem wq results data).2.1 ≠ 0 →
        (writeDirect mem wq results data).1.queued = []) := by
  have hnone : wq.queued = [] := queued_nil hempty
  have hqueue : ∀ data : Bytes, data ≠ [] → (linkWqEnqueue mem wq data).1.Good ∧
      ∃ part, part <+: data ∧ [] ++ (linkWqEnqueue mem wq data).1.queued = part ∧
        ((linkWqEnqueue mem wq data).2 = 0 → part = data) ∧
        ((linkWqEnqueue mem wq data).2 ≠ 0 → (linkWqEnqueue mem wq data).1.queued = []) := by
    intro data hdata
    obtain ⟨hgood, ⟨hok, hqueued⟩ | ⟨hfailed, hqueued⟩⟩ := h.enqueue mem hdata
    · refine ⟨hgood, data, prefix_rfl, ?_, fun _ => rfl, fun hnot => absurd hok hnot⟩
      rw [hqueued, hnone]
      rfl
    · refine ⟨hgood, [], nil_prefix, ?_, fun hok => ?_, fun _ => hqueued.trans hnone⟩
      · rw [hqueued, hnone]
        rfl
      · rw [hfailed] at hok
        cases hok
  induction results generalizing data with
  | nil =>
    unfold writeDirect
    split_ifs with hdata
    · exact ⟨h, [], nil_prefix, hnone, fun _ => hdata.symm, fun _ => hnone⟩
    · exact hqueue data hdata
  | cons result rest ih =>
    unfold writeDirect
    split_ifs with hdata
    · exact ⟨h, [], nil_prefix, hnone, fun _ => hdata.symm, fun _ => hnone⟩
    · cases result with
      | again => exact hqueue data hdata
      | failed => exact ⟨h, [], nil_prefix, hnone, nofun, fun _ => hnone⟩
      | wrote room =>
        dsimp only
        split_ifs
        · exact ⟨h, [], nil_prefix, hnone, nofun, fun _ => hnone⟩
        · obtain ⟨hgood, part, hpart, hdone, hall, hfailed⟩ := ih (data.drop room)
          refine ⟨hgood, data.take room ++ part, ?_, ?_, fun hok => ?_, hfailed⟩
          · obtain ⟨more, hmore⟩ := hpart
            exact ⟨more, by rw [append_assoc, hmore, take_append_drop]⟩
          · rw [append_assoc, hdone]
          · rw [hall hok, take_append_drop]

theorem head (h : wq.Good) (hcount : 0 < wq.count) :
    ∃ r tail, (wq.slots wq.head).rest = some r ∧ r ≠ [] ∧
      wq.entries = wq.slots wq.head :: tail ∧
      wq.queued = r ++ tail.flatMap fun e => e.rest.getD [] := by
  have hlt : wq.head < wq.cap := h.head_lt (hcount.trans_le h.count_le)
  have hcons := Circular.view_cons wq.slots wq.head wq.count wq.cap hlt hcount
  obtain ⟨r, hr, hne⟩ := h.live (wq.slots wq.head) (by
    rw [entries, hcons]
    exact mem_cons_self)
  refine ⟨r, _, hr, hne, hcons, ?_⟩
  rw [queued, entries, hcons, flatMap_cons, hr]
  rfl

theorem advanced (h : wq.Good) (hcount : 0 < wq.count) {r : Bytes}
    (hr : (wq.slots wq.head).rest = some r) {n : Nat} (hn : n ≤ r.length) :
    (wq.advanced n).Good ∧ wq.queued = r.take n ++ (wq.advanced n).queued := by
  have hlt : wq.head < wq.cap := h.head_lt (hcount.trans_le h.count_le)
  obtain ⟨r', tail, hr', -, hentries, hqueued⟩ := h.head hcount
  obtain rfl : r = r' := Option.some.inj (hr.symm.trans hr')
  have hlen := rest_length hr
  have htail : wq.entries.tail = tail := by rw [hentries, tail_cons]
  have htotal : wq.totalBytes - n = (r.drop n ++ tail.flatMap fun e => e.rest.getD []).length := by
    rw [h.total, hqueued, length_append, length_append, length_drop]
    omega
  have hlive : ∀ e ∈ tail, ∃ r, e.rest = some r ∧ r ≠ [] := fun e he =>
    h.live e (hentries ▸ mem_cons_of_mem _ he)
  unfold LinkWq.advanced
  dsimp only
  split_ifs with hdone
  · -- the entry is written: it leaves the queue
    have hall : r.drop n = [] := drop_eq_nil_of_le (by omega)
    have hview := Circular.view_pop wq.slots wq.head wq.count wq.cap
      ⟨none, (wq.slots wq.head).len, (wq.slots wq.head).offset + n⟩ hlt hcount h.count_le
    change _ = wq.entries.tail at hview
    rw [htail] at hview
    refine ⟨⟨?_, fun hpos => Nat.mod_lt _ hpos, ?_, ?_, ?_⟩, ?_⟩
    · have hle := h.count_le
      dsimp only
      omega
    · rw [entries, hview]
      exact hlive
    · dsimp only
      rw [htotal, hall, queued, entries, hview]
      rfl
    · exact (Nat.sub_le _ _).trans h.bounded
    · rw [hqueued, queued, entries, hview]
      congr 1
      rw [← take_append_drop n r, hall, append_nil, take_take, Nat.min_self]
  · have hview := Circular.view_set_head wq.slots wq.head wq.count wq.cap
      { wq.slots wq.head with offset := (wq.slots wq.head).offset + n } hlt hcount h.count_le
    change _ = _ :: wq.entries.tail at hview
    rw [htail] at hview
    have hrest := rest_advanced hr n
    refine ⟨⟨h.count_le, h.head_lt, ?_, ?_, ?_⟩, ?_⟩
    · rw [entries, hview]
      intro e he
      rcases mem_cons.mp he with rfl | he
      · refine ⟨r.drop n, hrest, fun hnil => ?_⟩
        rw [drop_eq_nil_iff] at hnil
        omega
      · exact hlive e he
    · dsimp only
      rw [htotal, queued, entries, hview, flatMap_cons, hrest]
      rfl
    · exact (Nat.sub_le _ _).trans h.bounded
    · rw [hqueued, queued, entries, hview, flatMap_cons, hrest]
      change _ = r.take n ++ (r.drop n ++ _)
      rw [← append_assoc, take_append_drop]

theorem flush (h : wq.Good) (results : List WriteResult) :
    ∃ r, linkWqFlush results wq = some r ∧ r.1.Good ∧ r.2.2 ++ r.1.queued = wq.queued := by
  induction results generalizing wq with
  | nil =>
    unfold linkWqFlush
    split_ifs with hcount
    · exact ⟨_, rfl, h, rfl⟩
    · obtain ⟨r, -, hr, -⟩ := h.head (Nat.pos_of_ne_zero hcount)
      rw [hr]
      exact ⟨_, rfl, h, rfl⟩
  | cons result more ih =>
    unfold linkWqFlush
    split_ifs with hcount
    · exact ⟨_, rfl, h, rfl⟩
    · obtain ⟨r, -, hr, -⟩ := h.head (Nat.pos_of_ne_zero hcount)
      rw [hr]
      cases result with
      | again => exact ⟨_, rfl, h, rfl⟩
      | failed => exact ⟨_, rfl, h, rfl⟩
      | wrote room =>
        dsimp only
        split_ifs
        · exact ⟨_, rfl, h, rfl⟩
        · obtain ⟨hgood, hsplit⟩ := h.advanced (Nat.pos_of_ne_zero hcount) hr
            (n := (r.take room).length) (by simp)
          obtain ⟨done, hdone, hgood', hrest⟩ := ih hgood
          rw [hdone]
          refine ⟨_, rfl, hgood', ?_⟩
          rw [append_assoc, hrest, hsplit, length_take, ← take_eq_take_min]

end LinkWq.Good

inductive WqOp where
  | write (data : Bytes) (results : List WriteResult) (mem : WqMem)
  | flush (results : List WriteResult)

structure WqSession where
  wq : LinkWq
  writes : List (Bytes × Int)
  delivered : Bytes

def WqSession.step (s : WqSession) : WqOp → Option WqSession
  | .write data results mem =>
    let r := linkWqWrite mem results s.wq data
    some ⟨r.1, s.writes ++ [(data, r.2.1)], s.delivered ++ r.2.2⟩
  | .flush results =>
    (linkWqFlush results s.wq).map fun r => ⟨r.1, s.writes, s.delivered ++ r.2.2⟩

def WqSession.run (s : WqSession) (ops : List WqOp) : Option WqSession := ops.foldlM step s

def wqStart : WqSession := ⟨linkWqInit, [], []⟩

/-- What a write may contribute to the stream: its payload, or a part of it when it
reports a failure. -/
def Contributes (w : Bytes × Int) (part : Bytes) : Prop :=
  part <+: w.1 ∧ (w.2 = 0 → part = w.1)

/-- The queue is well formed, and the bytes delivered and queued are what the writes
contribute, in the order of the calls. -/
structure WqSession.Sound (s : WqSession) : Prop where
  good : s.wq.Good
  stream : ∃ parts, List.Forall₂ Contributes s.writes parts ∧
    s.delivered ++ s.wq.queued = parts.flatten

section Session

variable {s : WqSession}

theorem sound_start : wqStart.Sound where
  good := ⟨Nat.le_refl _, fun h => absurd h (by decide), by simp [wqStart, linkWqInit, LinkWq.entries],
    rfl, Nat.zero_le _⟩
  stream := ⟨[], .nil, rfl⟩

theorem write_contributes (h : s.wq.Good) (data : Bytes) (results : List WriteResult)
    (mem : WqMem) : (linkWqWrite mem results s.wq data).1.Good ∧
      ∃ part, Contributes (data, (linkWqWrite mem results s.wq data).2.1) part ∧
        (linkWqWrite mem results s.wq data).2.2 ++ (linkWqWrite mem results s.wq data).1.queued =
          s.wq.queued ++ part ∧
        ((linkWqWrite mem results s.wq data).2.1 ≠ 0 →
          (linkWqWrite mem results s.wq data).1.queued = s.wq.queued) := by
  unfold linkWqWrite
  split_ifs with hdata hpending
  · exact ⟨h, [], ⟨List.nil_prefix, fun _ => hdata.symm⟩, (append_nil _).symm,
      fun _ => rfl⟩
  · obtain ⟨hgood, ⟨hok, hqueued⟩ | ⟨hfailed, hqueued⟩⟩ := h.enqueue mem hdata
    · exact ⟨hgood, data, ⟨prefix_rfl, fun _ => rfl⟩, hqueued,
        fun hnot => absurd hok hnot⟩
    · refine ⟨hgood, [], ⟨List.nil_prefix, fun hok => ?_⟩, ?_, fun _ => hqueued⟩
      · exact absurd (hfailed.symm.trans hok) (by decide)
      · rw [append_nil]
        exact hqueued
  · have hempty : s.wq.count = 0 := by simpa [linkWqHasPending] using hpending
    have hnone : s.wq.queued = [] := LinkWq.Good.queued_nil hempty
    obtain ⟨hgood, part, hpart, hdone, hall, hfailed⟩ := h.direct hempty mem results data
    rw [hnone]
    exact ⟨hgood, part, ⟨hpart, hall⟩, hdone, hfailed⟩

theorem WqSession.Sound.step (h : s.Sound) (op : WqOp) : ∃ s', s.step op = some s' ∧ s'.Sound := by
  obtain ⟨parts, hparts, hstream⟩ := h.stream
  cases op with
  | write data results mem =>
    obtain ⟨hgood, part, hpart, hdone, -⟩ := write_contributes h.good data results mem
    refine ⟨_, rfl, hgood, parts ++ [part], ?_, ?_⟩
    · exact rel_append hparts (.cons hpart .nil)
    · rw [append_assoc, hdone, ← append_assoc, hstream, flatten_append]
      simp
  | flush results =>
    obtain ⟨r, hr, hgood, hdone⟩ := h.good.flush results
    refine ⟨⟨r.1, s.writes, s.delivered ++ r.2.2⟩, ?_, hgood, parts, hparts, ?_⟩
    · rw [WqSession.step, hr]
      rfl
    · rw [append_assoc, hdone, hstream]

theorem WqSession.Sound.run (h : s.Sound) (ops : List WqOp) :
    ∃ s', s.run ops = some s' ∧ s'.Sound := by
  induction ops generalizing s with
  | nil => exact ⟨s, rfl, h⟩
  | cons op ops ih =>
    obtain ⟨t, ht, hsound⟩ := h.step op
    obtain ⟨s', hs', hsound'⟩ := ih hsound
    refine ⟨s', ?_, hsound'⟩
    rw [WqSession.run, foldlM_cons, ht]
    exact hs'

end Session

/-- Integrity of the queue: whatever the descriptor and the allocator answer, no freed
entry is read, the bytes handed over followed by those queued are the payloads of the
writes in order, a failed one counting for a part of it, and the counter is the
number of bytes queued, which stays within the limit. -/
theorem link_queue_integrity (ops : List WqOp) :
    ∃ s, wqStart.run ops = some s ∧
      (∃ parts, List.Forall₂ Contributes s.writes parts ∧
        s.delivered ++ s.wq.queued = parts.flatten) ∧
      s.wq.totalBytes = s.wq.queued.length ∧ s.wq.totalBytes ≤ linkWriteQueueMaxBytes := by
  obtain ⟨s, hs, hsound⟩ := sound_start.run ops
  exact ⟨s, hs, hsound.stream, hsound.good.total, hsound.good.bounded⟩

end Smolmux.Links
