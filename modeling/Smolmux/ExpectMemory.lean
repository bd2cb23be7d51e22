import Smolmux.Expect
import Smolmux.Heap
import Smolmux.Window

/-! The memory of the expect engine (`expect.c`). A request owns two blocks, its compiled
pattern and its buffer; the buffer of a result goes to whoever collects it. Memory may be
refused at any time, and a block that is given back twice has no result. -/

namespace Smolmux.Expect
open List

variable {ρ : Type}

structure Held (ρ : Type) where
  req : ExpectRequest ρ
  compiled : Nat
  buffer : Nat
  bufCap : Nat

def Held.blocks (r : Held ρ) : List Nat := [r.compiled, r.buffer]

/-- The engine with the memory it lives in; `given` are the buffers of results. -/
structure ExpectStore (ρ : Type) where
  heap : Heap
  requests : List (Held ρ)
  capacity : Nat
  next : Nat
  given : List Nat

def ExpectStore.engine (s : ExpectStore ρ) : ExpectEngine ρ :=
  ⟨s.requests.map Held.req, s.capacity, s.next⟩

def storeInit : ExpectStore ρ := ⟨⟨[], 0, 0⟩, [], 0, 0, []⟩

def storeRequest (regex : Regex ρ) (mem : Nat → Bool) (s : ExpectStore ρ) (id pattern : Bytes)
    (deadline : Rat) (clientId : Bytes) (owner : Option Nat) :
    Option (ExpectStore ρ × Option ExpectError) :=
  match regex.compile pattern with
  | none => some (s, some .badPattern)
  | some compiled =>
    match s.heap.alloc mem with
    | (none, h) => some ({ s with heap := h }, some .badPattern)
    | (some re, h) =>
      match h.alloc mem with
      | (none, h) => (h.free re).map fun h => ({ s with heap := h }, some .nomem)
      | (some buffer, h) =>
        some ({ s with
          heap := h
          requests := s.requests ++
            [⟨newRequest id pattern compiled deadline clientId s.next owner, re, buffer, 4096⟩]
          next := s.next + 1 }, none)

def storeAdd (regex : Regex ρ) (mem : Nat → Bool) (s : ExpectStore ρ) (id pattern : Bytes)
    (timeoutS : Rat) (clientId : Bytes) (now : Rat) (owner : Option Nat) :
    Option (ExpectStore ρ × Option ExpectError) :=
  if maxExpectPending ≤ s.requests.length then some (s, some .full)
  else if maxExpectPerClient ≤ (s.requests.filter (·.req.clientId == clientId)).length then
    some (s, some .perClient)
  else if s.capacity ≤ s.requests.length then
    let newCap := if s.capacity = 0 then 16 else s.capacity * 2
    if maxExpectPending < newCap then some (s, some .full)
    else
      let (granted, h) := s.heap.ask mem
      if granted = false then some ({ s with heap := h }, some .nomem)
      else
        storeRequest regex mem { s with heap := h, capacity := newCap } id pattern (now + timeoutS)
          clientId owner
  else storeRequest regex mem s id pattern (now + timeoutS) clientId owner

def growBuffer (mem : Nat → Bool) (need : Nat) : (fuel : Nat) → Heap → (block cap : Nat) →
    Option (Heap × Nat × Nat × Bool)
  | 0, _, _, _ => none
  | fuel + 1, h, block, cap =>
    if need < cap then some (h, block, cap, true)
    else
      (h.realloc mem block).bind fun r =>
        match r.1 with
        | none => some (r.2, block, cap, false)
        | some p => growBuffer mem need fuel r.2 p (cap * 2)

def slide (data : Bytes) (req : ExpectRequest ρ) : Bytes × Nat :=
  if maxExpectBufSize < data.length then ([], 0)
  else
    let drop := req.buffer.length + data.length - maxExpectBufSize
    (req.buffer.drop drop, req.searchOffset - drop)

/-- One request reads new output; without memory for it the output is lost. -/
def feedHeld (regex : Regex ρ) (mem : Nat → Bool) (data : Bytes) (h : Heap) (r : Held ρ) :
    Option (Heap × Held ρ) :=
  if r.req.matched then some (h, r)
  else
    let kept := slide data r.req
    let need := kept.1.length + min data.length maxExpectBufSize
    (growBuffer mem need 20 h r.buffer r.bufCap).map fun (h, block, cap, room) =>
      if room then
        (h, { r with req := feedRequest regex data r.req, buffer := block, bufCap := cap })
      else
        (h, { r with
          req := { r.req with buffer := kept.1, searchOffset := kept.2 }
          buffer := block
          bufCap := cap })

def feedRequests (regex : Regex ρ) (mem : Nat → Bool) (data : Bytes) :
    Heap → List (Held ρ) → Option (Heap × List (Held ρ))
  | h, [] => some (h, [])
  | h, r :: rs =>
    (feedHeld regex mem data h r).bind fun fed =>
      (feedRequests regex mem data fed.1 rs).map fun rest => (rest.1, fed.2 :: rest.2)

def storeFeed (regex : Regex ρ) (mem : Nat → Bool) (s : ExpectStore ρ) (data : Bytes) :
    Option (ExpectStore ρ) :=
  (feedRequests regex mem data s.heap s.requests).map fun r =>
    { s with heap := r.1, requests := r.2 }

def storeAbortAll (s : ExpectStore ρ) (reason patternName : Bytes) : ExpectStore ρ :=
  { s with
    requests := s.requests.map fun r => { r with req := abortRequest reason patternName r.req } }

/-- The loops that remove requests by swapping: the requests that go are given back as
`release` says; what is left of them is the first component. -/
def removeFrom (gone : Held ρ → Bool) (release : Held ρ → Heap → Option Heap) :
    (left room i : Nat) → List (Held ρ) → Heap → Option (List (Held ρ) × List (Held ρ) × Heap)
  | 0, _, _, rs, h => some ([], rs, h)
  | _, 0, _, rs, h => some ([], rs, h)
  | left + 1, room + 1, i, rs, h =>
    match rs[i]? with
    | none => some ([], rs, h)
    | some r =>
      if gone r then
        (release r h).bind fun h =>
          (removeFrom gone release left room i (swapRemove rs i) h).map fun rest =>
            (r :: rest.1, rest.2)
      else removeFrom gone release left (room + 1) (i + 1) rs h

def freePattern (r : Held ρ) (h : Heap) : Option Heap := h.free r.compiled

def freeBoth (r : Held ρ) (h : Heap) : Option Heap := (h.free r.compiled).bind (·.free r.buffer)

def storeCollect (s : ExpectStore ρ) (now : Rat) (maxOut : Nat) :
    Option (List ExpectResult × ExpectStore ρ) :=
  (removeFrom (requestDone now ·.req) freePattern s.requests.length maxOut 0 s.requests s.heap).map
    fun (taken, rest, h) =>
      (taken.map (resultOf ·.req),
        { s with heap := h, requests := rest, given := taken.map Held.buffer ++ s.given })

def storeCancel (gone : Held ρ → Bool) (s : ExpectStore ρ) : Option (ExpectStore ρ) :=
  (removeFrom gone freeBoth s.requests.length s.requests.length 0 s.requests s.heap).map
    fun (_, rest, h) => { s with heap := h, requests := rest }

def storeCancelId (s : ExpectStore ρ) (id : Bytes) : Option (ExpectStore ρ) :=
  storeCancel (·.req.id == id) s

def storeCancelClient (s : ExpectStore ρ) (clientId : Bytes) : Option (ExpectStore ρ) :=
  storeCancel (·.req.clientId == clientId) s

def freeAll : List (Held ρ) → Heap → Option Heap
  | [], h => some h
  | r :: rs, h => (freeBoth r h).bind (freeAll rs)

def storeCancelAll (s : ExpectStore ρ) : Option (ExpectStore ρ) :=
  (freeAll s.requests s.heap).map fun h => { s with heap := h, requests := [] }

def storeRelease (s : ExpectStore ρ) : Option (ExpectStore ρ) :=
  match s.given with
  | [] => some s
  | p :: given => (s.heap.free p).map fun h => { s with heap := h, given := given }

inductive StoreOp where
  | add (id pattern : Bytes) (timeoutS : Rat) (clientId : Bytes) (now : Rat) (owner : Option Nat)
  | feed (data : Bytes)
  | abortAll (reason patternName : Bytes)
  | collect (now : Rat) (maxOut : Nat)
  | cancelId (id : Bytes)
  | cancelClient (clientId : Bytes)
  | cancelAll
  | release

def StoreOp.apply (regex : Regex ρ) (mem : Nat → Bool) (s : ExpectStore ρ) :
    StoreOp → Option (ExpectStore ρ)
  | .add id pattern timeoutS clientId now owner =>
    (storeAdd regex mem s id pattern timeoutS clientId now owner).map (·.1)
  | .feed data => storeFeed regex mem s data
  | .abortAll reason patternName => some (storeAbortAll s reason patternName)
  | .collect now maxOut => (storeCollect s now maxOut).map (·.2)
  | .cancelId id => storeCancelId s id
  | .cancelClient clientId => storeCancelClient s clientId
  | .cancelAll => storeCancelAll s
  | .release => storeRelease s

def runStore (regex : Regex ρ) (mem : Nat → Bool) (s : ExpectStore ρ) (ops : List StoreOp) :
    Option (ExpectStore ρ) :=
  ops.foldlM (StoreOp.apply regex mem) s

def StoreOp.Short : StoreOp → Prop
  | .add _ _ _ clientId _ _ => clientId.length < 32
  | _ => True

structure Held.Fits (r : Held ρ) : Prop where
  least : 4096 ≤ r.bufCap
  room : r.req.buffer.length < r.bufCap
  bounded : r.req.buffer.length ≤ maxExpectBufSize
  searched : r.req.searchOffset ≤ r.req.buffer.length

def clients (rs : List (Held ρ)) : List Bytes := rs.map (·.req.clientId)

/-- What holds of the engine and its memory between operations. -/
structure ExpectStore.Sane (s : ExpectStore ρ) : Prop where
  holds : Heap.Holds (s.requests.flatMap Held.blocks ++ s.given) s.heap
  within : s.requests.length ≤ s.capacity
  limit : s.capacity ≤ maxExpectPending
  fits : ∀ r ∈ s.requests, r.Fits

def ExpectStore.Shared (s : ExpectStore ρ) : Prop :=
  ∀ clientId, (clients s.requests).count clientId ≤ maxExpectPerClient

variable {owned : List Nat}

theorem growBuffer_spec (mem : Nat → Bool) {need cap fuel : Nat} {h : Heap} {block : Nat}
    (hh : Heap.Holds (block :: owned) h) (hfuel : need < cap * 2 ^ fuel) :
    ∃ h' block' cap' room,
      growBuffer mem need (fuel + 1) h block cap = some (h', block', cap', room) ∧
      Heap.Holds (block' :: owned) h' ∧ cap ≤ cap' ∧ (room → need < cap') := by
  induction fuel generalizing h block cap with
  | zero =>
    rw [pow_zero, Nat.mul_one] at hfuel
    exact ⟨h, block, cap, true, by rw [growBuffer, if_pos hfuel], hh, Nat.le_refl _, fun _ => hfuel⟩
  | succ fuel ih =>
    rw [growBuffer]
    split_ifs with hneed
    · exact ⟨h, block, cap, true, rfl, hh, Nat.le_refl _, fun _ => hneed⟩
    · obtain ⟨q, h', hq, hh'⟩ | ⟨h', hq, hh'⟩ := hh.realloc mem
      · have hmore : need < cap * 2 * 2 ^ fuel := by
          rwa [Nat.mul_assoc, ← Nat.pow_succ']
        obtain ⟨h'', block', cap', room, heq, hholds, hcap, hroom⟩ := ih hh' hmore
        refine ⟨h'', block', cap', room, ?_, hholds, by omega, hroom⟩
        rw [hq]
        exact heq
      · refine ⟨h', block, cap, false, ?_, hh', Nat.le_refl _, by simp⟩
        rw [hq]
        rfl

theorem length_slide (data : Bytes) {req : ExpectRequest ρ}
    (hoff : req.searchOffset ≤ req.buffer.length) :
    (slide data req).1.length + min data.length maxExpectBufSize ≤ maxExpectBufSize ∧
      (slide data req).1.length ≤ req.buffer.length ∧
      (slide data req).2 ≤ (slide data req).1.length := by
  unfold slide
  split_ifs with hlong
  · exact ⟨by simp, Nat.zero_le _, Nat.le_refl _⟩
  · simp only [length_drop]
    omega

theorem abortRequest_text (reason patternName : Bytes) (req : ExpectRequest ρ) :
    (abortRequest reason patternName req).buffer = req.buffer ∧
      (abortRequest reason patternName req).searchOffset = req.searchOffset ∧
      (abortRequest reason patternName req).clientId = req.clientId := by
  unfold abortRequest
  split <;> exact ⟨rfl, rfl, rfl⟩

theorem length_feedRequest (regex : Regex ρ) (data : Bytes) {req : ExpectRequest ρ}
    (hmatched : req.matched = false) :
    (feedRequest regex data req).buffer.length =
        (slide data req).1.length + min data.length maxExpectBufSize ∧
      (feedRequest regex data req).searchOffset = (feedRequest regex data req).buffer.length := by
  have hdata : (data.drop (data.length - maxExpectBufSize)).length =
      min data.length maxExpectBufSize := by
    rw [length_drop]
    omega
  unfold feedRequest slide
  rw [if_neg (by simp [hmatched])]
  dsimp only
  rw [length_append, hdata]
  exact ⟨rfl, rfl⟩

@[simp] theorem clientId_feedRequest (regex : Regex ρ) (data : Bytes) (req : ExpectRequest ρ) :
    (feedRequest regex data req).clientId = req.clientId := by
  unfold feedRequest
  dsimp only
  split_ifs <;> rfl

variable {r : Held ρ}

theorem feedHeld_spec (regex : Regex ρ) (mem : Nat → Bool) (data : Bytes) {h : Heap}
    (hh : Heap.Holds (r.blocks ++ owned) h) (hr : r.Fits) :
    ∃ h' r', feedHeld regex mem data h r = some (h', r') ∧ Heap.Holds (r'.blocks ++ owned) h' ∧
      r'.Fits ∧ r'.req.clientId = r.req.clientId := by
  unfold feedHeld
  by_cases hmatched : r.req.matched
  · rw [if_pos hmatched]
    exact ⟨h, r, rfl, hh, hr, rfl⟩
  rw [if_neg hmatched]
  have hmatched : r.req.matched = false := by simpa using hmatched
  have hslide := length_slide data hr.searched
  have hlength := length_feedRequest regex data hmatched
  have hleast := hr.least
  have hneed : (slide data r.req).1.length + min data.length maxExpectBufSize <
      r.bufCap * 2 ^ 19 := by
    simp only [maxExpectBufSize] at hslide ⊢
    omega
  have hheld : Heap.Holds (r.buffer :: r.compiled :: owned) h := hh.reorder (.swap _ _ _)
  obtain ⟨h', block, cap, room, hgrow, hholds, hcap, hroom⟩ :=
    growBuffer_spec mem hheld hneed
  have hblocks : Heap.Holds ([r.compiled, block] ++ owned) h' := hholds.reorder (.swap _ _ _)
  dsimp only
  rw [hgrow, Option.map_some]
  cases room with
  | true =>
    refine ⟨h', _, rfl, hblocks, ⟨hleast.trans hcap, ?_, ?_, ?_⟩,
      clientId_feedRequest regex data r.req⟩
    · exact hlength.1 ▸ hroom rfl
    · exact hlength.1 ▸ hslide.1
    · exact Nat.le_of_eq hlength.2
  | false =>
    refine ⟨h', _, rfl, hblocks, ⟨hleast.trans hcap, ?_, ?_, hslide.2.2⟩, rfl⟩
    · exact hslide.2.1.trans_lt (hr.room.trans_le hcap)
    · exact hslide.2.1.trans hr.bounded

variable {rs : List (Held ρ)}

theorem feedRequests_spec (regex : Regex ρ) (mem : Nat → Bool) (data : Bytes) {h : Heap}
    {others : List Nat} (hh : Heap.Holds (rs.flatMap Held.blocks ++ others) h)
    (hrs : ∀ r ∈ rs, r.Fits) :
    ∃ h' rs', feedRequests regex mem data h rs = some (h', rs') ∧
      Heap.Holds (rs'.flatMap Held.blocks ++ others) h' ∧ (∀ r ∈ rs', r.Fits) ∧
      clients rs' = clients rs := by
  induction rs generalizing h others with
  | nil => exact ⟨h, [], rfl, hh, by simp, rfl⟩
  | cons r rs ih =>
    rw [flatMap_cons, append_assoc] at hh
    obtain ⟨h₁, r', hfed, hh₁, hfits, hclient⟩ :=
      feedHeld_spec regex mem data hh (hrs r mem_cons_self)
    -- the blocks of the request just fed are now among the others
    have hrest : Heap.Holds (rs.flatMap Held.blocks ++ (r'.blocks ++ others)) h₁ :=
      hh₁.reorder (perm_append_comm_assoc _ _ _)
    obtain ⟨h₂, rs', hfeds, hh₂, hall, hclients⟩ :=
      ih hrest fun x hx => hrs x (mem_cons_of_mem _ hx)
    refine ⟨h₂, r' :: rs', ?_, ?_, ?_, ?_⟩
    · simp only [feedRequests, hfed, Option.bind_some, hfeds, Option.map_some]
    · rw [flatMap_cons, append_assoc]
      exact hh₂.reorder (perm_append_comm_assoc _ _ _)
    · exact forall_mem_cons.mpr ⟨hfits, hall⟩
    · simp only [clients, map_cons, hclient] at hclients ⊢
      rw [hclients]

variable {release : Held ρ → Heap → Option Heap}

/-- The loops that remove requests: what goes and what stays are what there was, and the
blocks are those of what stays, and of what goes those that `release` leaves. -/
theorem removeFrom_spec (gone : Held ρ → Bool) (rest : Held ρ → List Nat)
    (hrelease : ∀ {r : Held ρ} {owned : List Nat} {h : Heap}, Heap.Holds (r.blocks ++ owned) h →
      ∃ h', release r h = some h' ∧ Heap.Holds (rest r ++ owned) h') (left room i : Nat)
    (rs : List (Held ρ)) {h : Heap} {others : List Nat}
    (hh : Heap.Holds (rs.flatMap Held.blocks ++ others) h) :
    ∃ taken stay h', removeFrom gone release left room i rs h = some (taken, stay, h') ∧
      (taken ++ stay).Perm rs ∧
      Heap.Holds (stay.flatMap Held.blocks ++ (taken.flatMap rest ++ others)) h' := by
  induction left generalizing room i rs h others with
  | zero => exact ⟨[], rs, h, by simp [removeFrom], .refl _, hh⟩
  | succ left ih =>
    cases room with
    | zero => exact ⟨[], rs, h, by simp [removeFrom], .refl _, hh⟩
    | succ room =>
      rw [removeFrom]
      cases hreq : rs[i]? with
      | none => exact ⟨[], rs, h, rfl, .refl _, hh⟩
      | some r =>
        dsimp only
        split_ifs with hgone
        · obtain ⟨hi, rfl⟩ := List.getElem?_eq_some_iff.mp hreq
          have hperm : (rs[i] :: swapRemove rs i).Perm rs :=
            ((swapRemove_perm hi).cons _).trans (getElem_cons_eraseIdx_perm hi)
          have hheld : Heap.Holds
              (rs[i].blocks ++ ((swapRemove rs i).flatMap Held.blocks ++ others)) h := by
            refine hh.reorder ?_
            rw [← append_assoc]
            exact (hperm.flatMap_right Held.blocks).append_right _
          obtain ⟨h₁, hfree, hh₁⟩ := hrelease hheld
          have hothers : Heap.Holds
              ((swapRemove rs i).flatMap Held.blocks ++ (rest rs[i] ++ others)) h₁ :=
            hh₁.reorder (perm_append_comm_assoc _ _ _)
          obtain ⟨taken, stay, h₂, heq, hsame, hholds⟩ := ih room i _ hothers
          refine ⟨rs[i] :: taken, stay, h₂, ?_, (hsame.cons _).trans hperm, ?_⟩
          · rw [hfree, Option.bind_some, heq, Option.map_some]
          · refine hholds.reorder (List.Perm.append_left _ ?_)
            rw [flatMap_cons, append_assoc]
            exact perm_append_comm_assoc _ _ _
        · exact ih (room + 1) (i + 1) rs hh

theorem freePattern_spec {h : Heap} (hh : Heap.Holds (r.blocks ++ owned) h) :
    ∃ h', freePattern r h = some h' ∧ Heap.Holds ([r.buffer] ++ owned) h' := hh.free

theorem freeBoth_spec {h : Heap} (hh : Heap.Holds (r.blocks ++ owned) h) :
    ∃ h', freeBoth r h = some h' ∧ Heap.Holds ([] ++ owned) h' := by
  obtain ⟨h₁, hfirst, hh₁⟩ := Heap.Holds.free hh
  obtain ⟨h₂, hsecond, hh₂⟩ := Heap.Holds.free hh₁
  exact ⟨h₂, by rw [freeBoth, hfirst, Option.bind_some, hsecond], hh₂⟩

theorem freeAll_spec {h : Heap} (hh : Heap.Holds (rs.flatMap Held.blocks ++ owned) h) :
    ∃ h', freeAll rs h = some h' ∧ Heap.Holds owned h' := by
  induction rs generalizing h with
  | nil => exact ⟨h, rfl, hh⟩
  | cons r rs ih =>
    rw [flatMap_cons, append_assoc] at hh
    obtain ⟨h₁, hfree, hh₁⟩ := freeBoth_spec hh
    obtain ⟨h₂, hall, hh₂⟩ := ih hh₁
    exact ⟨h₂, by rw [freeAll, hfree, Option.bind_some, hall], hh₂⟩

variable {taken stay : List (Held ρ)}

section Ops

variable (regex : Regex ρ) (mem : Nat → Bool) {s : ExpectStore ρ}

structure Outcome (s : ExpectStore ρ) (clientId : Bytes)
    (r : ExpectStore ρ × Option ExpectError) : Prop where
  sane : r.1.Sane
  refused_or_added : r.2 ≠ none ∧ r.1.requests = s.requests ∨
    r.2 = none ∧ clients r.1.requests = clients s.requests ++ [stored 32 clientId]

theorem storeRequest_spec (hs : s.Sane) (hroom : s.requests.length < s.capacity)
    (id pattern : Bytes) (deadline : Rat) (clientId : Bytes) (owner : Option Nat) :
    ∃ r, storeRequest regex mem s id pattern deadline clientId owner = some r ∧
      Outcome s clientId r := by
  have hrefused (h : Heap) (hh : Heap.Holds (s.requests.flatMap Held.blocks ++ s.given) h)
      (err : ExpectError) : Outcome s clientId ({ s with heap := h }, some err) :=
    ⟨⟨hh, hs.within, hs.limit, hs.fits⟩, .inl ⟨by simp, rfl⟩⟩
  unfold storeRequest
  cases regex.compile pattern with
  | none => exact ⟨_, rfl, hrefused s.heap hs.holds _⟩
  | some compiled =>
    dsimp only
    obtain ⟨re, h₁, halloc, hh₁⟩ | ⟨h₁, halloc, hh₁⟩ := hs.holds.alloc mem
    · obtain ⟨buffer, h₂, halloc', hh₂⟩ | ⟨h₂, halloc', hh₂⟩ := hh₁.alloc mem
      · rw [halloc]
        dsimp only
        rw [halloc']
        refine ⟨_, rfl, ⟨?_, ?_, hs.limit, ?_⟩, .inr ⟨rfl, by simp [clients, newRequest]⟩⟩
        · refine hh₂.reorder ?_
          simp only [flatMap_append, flatMap_singleton, Held.blocks, append_assoc]
          exact (perm_append_comm_assoc _ _ _).trans (.swap _ _ _)
        · rw [length_append]
          exact hroom
        · intro r hr
          rcases mem_append.mp hr with hr | hr
          · exact hs.fits r hr
          · rw [mem_singleton.mp hr]
            exact ⟨Nat.le_refl _, by simp [newRequest], by simp [newRequest], by simp [newRequest]⟩
      · obtain ⟨h₃, hfree, hh₃⟩ := hh₂.free
        rw [halloc]
        dsimp only
        rw [halloc']
        dsimp only
        rw [hfree]
        exact ⟨_, rfl, hrefused h₃ hh₃ _⟩
    · rw [halloc]
      exact ⟨_, rfl, hrefused h₁ hh₁ _⟩

theorem storeAdd_spec (hs : s.Sane) (id pattern : Bytes) (timeoutS : Rat) (clientId : Bytes)
    (now : Rat) (owner : Option Nat) :
    ∃ r, storeAdd regex mem s id pattern timeoutS clientId now owner = some r ∧
      Outcome s clientId r ∧
      (r.2 = none → (clients s.requests).count clientId < maxExpectPerClient) := by
  have hrefused (err : ExpectError) : Outcome s clientId (s, some err) :=
    ⟨hs, .inl ⟨by simp, rfl⟩⟩
  have hcount : (s.requests.filter (·.req.clientId == clientId)).length =
      (clients s.requests).count clientId := by
    rw [clients, List.count, countP_map, countP_eq_length_filter]
    rfl
  have hwithin := hs.within
  unfold storeAdd
  dsimp only
  rw [hcount]
  generalize hcap : (if s.capacity = 0 then 16 else s.capacity * 2) = newCap
  have hnew : s.requests.length < newCap := by
    split_ifs at hcap <;> omega
  split_ifs with hfull hper hgrow hmax hgranted
  · exact ⟨_, rfl, hrefused _, by simp⟩
  · exact ⟨_, rfl, hrefused _, by simp⟩
  · exact ⟨_, rfl, hrefused _, by simp⟩
  · exact ⟨_, rfl, ⟨⟨hs.holds.ask mem, hs.within, hs.limit, hs.fits⟩, .inl ⟨by simp, rfl⟩⟩, by simp⟩
  · -- the table has grown
    obtain ⟨r, heq, hout⟩ := storeRequest_spec regex mem
      (s := { s with heap := (s.heap.ask mem).2, capacity := newCap })
      ⟨hs.holds.ask mem, hnew.le, Nat.le_of_not_lt hmax, hs.fits⟩ hnew id pattern
      (now + timeoutS) clientId owner
    exact ⟨r, heq, ⟨hout.sane, hout.refused_or_added⟩, fun _ => Nat.lt_of_not_le hper⟩
  · obtain ⟨r, heq, hout⟩ := storeRequest_spec regex mem hs (Nat.lt_of_not_le hgrow) id pattern
      (now + timeoutS) clientId owner
    exact ⟨r, heq, hout, fun _ => Nat.lt_of_not_le hper⟩

theorem ExpectStore.Sane.remove (hs : s.Sane) {h : Heap} {given : List Nat}
    (hperm : (taken ++ stay).Perm s.requests)
    (hholds : Heap.Holds (stay.flatMap Held.blocks ++ given) h) :
    ExpectStore.Sane { s with heap := h, requests := stay, given := given } where
  holds := hholds
  within := by
    have hlength := hperm.length_eq
    have hwithin := hs.within
    rw [length_append] at hlength
    dsimp only
    omega
  limit := hs.limit
  fits r hr := hs.fits r (hperm.mem_iff.mp (mem_append_right _ hr))

theorem count_clients_le (hperm : (taken ++ stay).Perm rs) (clientId : Bytes) : (clients stay).count clientId ≤ (clients rs).count clientId := by
  have hcount := (hperm.map (·.req.clientId)).count_eq clientId
  rw [map_append, count_append] at hcount
  exact hcount ▸ Nat.le_add_left _ _

theorem storeCancel_spec (hs : s.Sane) (gone : Held ρ → Bool) :
    ∃ s', storeCancel gone s = some s' ∧ s'.Sane ∧ (s.Shared → s'.Shared) := by
  obtain ⟨taken, stay, h, heq, hperm, hholds⟩ := removeFrom_spec gone (fun _ => [])
    freeBoth_spec s.requests.length s.requests.length 0 s.requests hs.holds
  refine ⟨_, by rw [storeCancel, heq, Option.map_some], hs.remove hperm ?_, ?_⟩
  · have hnone : taken.flatMap (fun _ => ([] : List Nat)) = [] := by simp
    rwa [hnone, nil_append] at hholds
  · exact fun hshared c => (count_clients_le hperm c).trans (hshared c)

theorem apply_spec (hs : s.Sane) (op : StoreOp) :
    ∃ s', op.apply regex mem s = some s' ∧ s'.Sane ∧ (op.Short → s.Shared → s'.Shared) := by
  cases op with
  | add id pattern timeoutS clientId now owner =>
    obtain ⟨r, heq, hout, hcount⟩ :=
      storeAdd_spec regex mem hs id pattern timeoutS clientId now owner
    refine ⟨r.1, by rw [StoreOp.apply, heq, Option.map_some], hout.sane, ?_⟩
    intro hshort hshared c
    obtain ⟨-, hsame⟩ | ⟨hnone, hadded⟩ := hout.refused_or_added
    · exact hsame ▸ hshared c
    · have hfits : stored 32 clientId = clientId := stored_fits hshort
      rw [hadded, count_append, hfits, count_singleton]
      split_ifs with hc
      · exact beq_iff_eq.mp hc ▸ hcount hnone
      · exact hshared c
  | feed data =>
    obtain ⟨h, rs, heq, hholds, hfits, hclients⟩ :=
      feedRequests_spec regex mem data hs.holds hs.fits
    have hlength : rs.length = s.requests.length := by
      simpa [clients] using congrArg List.length hclients
    refine ⟨{ s with heap := h, requests := rs }, ?_,
      ⟨hholds, hlength.trans_le hs.within, hs.limit, hfits⟩, ?_⟩
    · rw [StoreOp.apply, storeFeed, heq, Option.map_some]
    · intro _ hshared c
      rw [hclients]
      exact hshared c
  | abortAll reason patternName =>
    have hsame (r : Held ρ) := abortRequest_text reason patternName r.req
    refine ⟨_, rfl, ⟨?_, ?_, hs.limit, ?_⟩, ?_⟩
    · rw [storeAbortAll, flatMap_map]
      exact hs.holds
    · rw [storeAbortAll, length_map]
      exact hs.within
    · intro r hr
      obtain ⟨r, hmem, rfl⟩ := mem_map.mp hr
      obtain ⟨hleast, hroom, hbounded, hsearched⟩ := hs.fits r hmem
      obtain ⟨hbuffer, hoffset, -⟩ := hsame r
      exact ⟨hleast, hbuffer ▸ hroom, hbuffer ▸ hbounded, hbuffer ▸ hoffset ▸ hsearched⟩
    · intro _ hshared c
      have hclients : clients (storeAbortAll s reason patternName).requests =
          clients s.requests := by
        rw [clients, clients, storeAbortAll, map_map]
        exact map_congr_left fun r _ => (hsame r).2.2
      rw [hclients]
      exact hshared c
  | collect now maxOut =>
    obtain ⟨taken, stay, h, heq, hperm, hholds⟩ := removeFrom_spec
      (fun r : Held ρ => requestDone now r.req) (fun r => [r.buffer]) freePattern_spec
      s.requests.length maxOut 0 s.requests hs.holds
    rw [StoreOp.apply, storeCollect, heq, Option.map_some, Option.map_some]
    refine ⟨_, rfl, hs.remove hperm ?_, ?_⟩
    · rwa [← map_eq_flatMap] at hholds
    · exact fun _ hshared c => (count_clients_le hperm c).trans (hshared c)
  | cancelId id =>
    obtain ⟨s', heq, hs', hshared⟩ := storeCancel_spec hs (·.req.id == id)
    exact ⟨s', heq, hs', fun _ => hshared⟩
  | cancelClient clientId =>
    obtain ⟨s', heq, hs', hshared⟩ := storeCancel_spec hs (·.req.clientId == clientId)
    exact ⟨s', heq, hs', fun _ => hshared⟩
  | cancelAll =>
    obtain ⟨h, heq, hholds⟩ := freeAll_spec hs.holds
    rw [StoreOp.apply, storeCancelAll, heq, Option.map_some]
    exact ⟨_, rfl, ⟨hholds, Nat.zero_le _, hs.limit, by simp⟩, fun _ _ c => Nat.zero_le _⟩
  | release =>
    rw [StoreOp.apply, storeRelease]
    cases hgiven : s.given with
    | nil => exact ⟨s, rfl, hs, fun _ => id⟩
    | cons p given =>
      have hheld : Heap.Holds (p :: (s.requests.flatMap Held.blocks ++ given)) s.heap :=
        hs.holds.reorder (hgiven ▸ perm_middle.symm)
      obtain ⟨h, hfree, hholds⟩ := hheld.free
      dsimp only
      rw [hfree]
      exact ⟨_, rfl, ⟨hholds, hs.within, hs.limit, hs.fits⟩, fun _ => id⟩

theorem runStore_spec (hs : s.Sane) (ops : List StoreOp) :
    ∃ s', runStore regex mem s ops = some s' ∧ s'.Sane ∧
      ((∀ op ∈ ops, op.Short) → s.Shared → s'.Shared) := by
  induction ops generalizing s with
  | nil => exact ⟨s, rfl, hs, fun _ => id⟩
  | cons op ops ih =>
    obtain ⟨s₁, hop, hs₁, hshared₁⟩ := apply_spec regex mem hs op
    obtain ⟨s₂, hops, hs₂, hshared₂⟩ := ih hs₁
    refine ⟨s₂, ?_, hs₂, ?_⟩
    · rw [runStore, foldlM_cons, hop]
      exact hops
    · intro hshort hshared
      obtain ⟨hfirst, hrest⟩ := forall_mem_cons.mp hshort
      exact hshared₂ hrest (hshared₁ hfirst hshared)

theorem sane_storeInit : (storeInit : ExpectStore ρ).Sane :=
  ⟨Heap.Holds.empty, Nat.le_refl _, Nat.zero_le _, by simp [storeInit]⟩

end Ops

def StoreOp.onEngine (regex : Regex ρ) (eng : ExpectEngine ρ) : StoreOp → ExpectEngine ρ
  | .add id pattern timeoutS clientId now owner =>
    (expectAdd regex true true eng id pattern timeoutS clientId now owner).1
  | .feed data => expectFeed regex eng data
  | .abortAll reason patternName => expectAbortAll eng reason patternName
  | .collect now maxOut => (expectCollect eng now maxOut).2
  | .cancelId id => expectCancelId eng id
  | .cancelClient clientId => expectCancelClient eng clientId
  | .cancelAll => expectCancelAll eng
  | .release => eng

section Erasure

variable {regex : Regex ρ} {s s' : ExpectStore ρ}

def plenty : Nat → Bool := fun _ => true

@[simp] theorem alloc_plenty (h : Heap) :
    h.alloc plenty = (some h.next, ⟨h.next :: h.live, h.next + 1, h.asked + 1⟩) := rfl

theorem growBuffer_plenty {need fuel cap block cap' block' : Nat} {h h' : Heap} {room : Bool}
    (heq : growBuffer plenty need fuel h block cap = some (h', block', cap', room)) :
    room := by
  fun_induction growBuffer with
  | case1 => cases heq
  | case2 =>
    cases heq
    rfl
  | case3 fuel h block cap _ ih =>
    obtain ⟨r, hrealloc, heq⟩ := Option.bind_eq_some_iff.mp heq
    rw [Heap.realloc] at hrealloc
    split_ifs at hrealloc with _ hgranted
    · cases hrealloc
      exact ih _ _ heq
    · exact absurd rfl hgranted

theorem feedHeld_plenty {data : Bytes} {h h' : Heap} {r' : Held ρ}
    (heq : feedHeld regex plenty data h r = some (h', r')) :
    r'.req = feedRequest regex data r.req := by
  unfold feedHeld at heq
  split_ifs at heq with hmatched
  · cases heq
    rw [feedRequest, if_pos hmatched]
  · obtain ⟨⟨h₁, block, cap, room⟩, hgrow, heq⟩ := Option.map_eq_some_iff.mp heq
    rw [growBuffer_plenty hgrow] at heq
    cases heq
    rfl

theorem feedRequests_plenty {data : Bytes} {h h' : Heap} {rs' : List (Held ρ)}
    (heq : feedRequests regex plenty data h rs = some (h', rs')) :
    rs'.map Held.req = (rs.map Held.req).map (feedRequest regex data) := by
  induction rs generalizing h rs' with
  | nil =>
    cases heq
    rfl
  | cons r rs ih =>
    obtain ⟨⟨h₁, r'⟩, hfirst, heq⟩ := Option.bind_eq_some_iff.mp heq
    obtain ⟨⟨h₂, rest⟩, hrest, heq⟩ := Option.map_eq_some_iff.mp heq
    cases heq
    simp only [map_cons, feedHeld_plenty hfirst, ih hrest]

theorem removeFrom_collects {now : Rat} {left room i : Nat} {h h' : Heap}
    (heq : removeFrom (fun r => requestDone now r.req) release left room i rs h =
      some (taken, stay, h')) :
    collectFrom now left room i (rs.map Held.req) =
      (taken.map fun r => resultOf r.req, stay.map Held.req) := by
  fun_induction removeFrom generalizing taken with
  | case1 | case2 =>
    cases heq
    simp [collectFrom]
  | case3 _ _ _ _ _ hreq =>
    cases heq
    rw [collectFrom, getElem?_map, hreq]
    rfl
  | case4 left room i rs h r hreq hdone ih =>
    obtain ⟨h₁, -, heq⟩ := Option.bind_eq_some_iff.mp heq
    obtain ⟨⟨taken, stay, h₂⟩, hrest, heq⟩ := Option.map_eq_some_iff.mp heq
    cases heq
    simp only [collectFrom, getElem?_map, hreq, Option.map_some, if_pos hdone, ← map_swapRemove,
      ih h₁ hrest, map_cons]
  | case5 left room i rs h r hreq hdone ih =>
    simp only [collectFrom, getElem?_map, hreq, Option.map_some, if_neg hdone, ih heq]

theorem removeFrom_sweeps {gone : ExpectRequest ρ → Bool} {left room i : Nat} {h h' : Heap}
    (hroom : left ≤ room)
    (heq : removeFrom (fun r => gone r.req) release left room i rs h = some (taken, stay, h')) :
    sweepFrom gone left i (rs.map Held.req) = stay.map Held.req := by
  fun_induction removeFrom generalizing taken with
  | case1 =>
    cases heq
    rfl
  | case2 _ _ _ _ hpos => exact absurd (Nat.le_zero.mp hroom) hpos
  | case3 _ _ _ _ _ hreq =>
    cases heq
    rw [sweepFrom, getElem?_map, hreq]
    rfl
  | case4 left room i rs h r hreq hgone ih =>
    obtain ⟨h₁, -, heq⟩ := Option.bind_eq_some_iff.mp heq
    obtain ⟨⟨taken, stay, h₂⟩, hrest, heq⟩ := Option.map_eq_some_iff.mp heq
    cases heq
    simp only [sweepFrom, getElem?_map, hreq, Option.map_some, if_pos hgone, ← map_swapRemove,
      ih h₁ (Nat.le_of_succ_le_succ hroom) hrest]
  | case5 left room i rs h r hreq hgone ih =>
    simp only [sweepFrom, getElem?_map, hreq, Option.map_some, if_neg hgone,
      ih (Nat.le_of_succ_le hroom) heq]

theorem engine_storeCancel (gone : ExpectRequest ρ → Bool)
    (heq : storeCancel (fun r => gone r.req) s = some s') :
    s'.engine = { s.engine with requests := sweep gone s.engine.requests } := by
  obtain ⟨⟨taken, stay, h⟩, hremove, heq⟩ := Option.map_eq_some_iff.mp heq
  cases heq
  have hsweep := removeFrom_sweeps (Nat.le_refl _) hremove
  simp only [ExpectStore.engine, sweep, length_map, hsweep]

theorem engine_storeRequest {id pattern clientId : Bytes} {deadline : Rat} {owner : Option Nat}
    {r : ExpectStore ρ × Option ExpectError}
    (heq : storeRequest regex plenty s id pattern deadline clientId owner = some r) :
    r.1.engine = (regex.compile pattern).elim s.engine fun compiled =>
      { s.engine with
        requests := s.engine.requests ++
          [newRequest id pattern compiled deadline clientId s.next owner]
        next := s.next + 1 } := by
  unfold storeRequest at heq
  cases hcompile : regex.compile pattern with
  | none =>
    rw [hcompile] at heq
    cases heq
    rfl
  | some compiled =>
    rw [hcompile] at heq
    simp only [alloc_plenty] at heq
    cases heq
    simp [ExpectStore.engine]

theorem engine_storeAdd {id pattern clientId : Bytes} {timeoutS now : Rat} {owner : Option Nat}
    {r : ExpectStore ρ × Option ExpectError}
    (heq : storeAdd regex plenty s id pattern timeoutS clientId now owner = some r) :
    r.1.engine =
      (expectAdd regex true true s.engine id pattern timeoutS clientId now owner).1 := by
  have hfilter : (s.engine.requests.filter (·.clientId == clientId)).length =
      (s.requests.filter (·.req.clientId == clientId)).length := by
    rw [ExpectStore.engine, filter_map, length_map]
    rfl
  have hlength : s.engine.requests.length = s.requests.length := length_map _
  have hcapacity : s.engine.capacity = s.capacity := rfl
  unfold storeAdd at heq
  unfold expectAdd
  rw [hfilter, hlength, hcapacity]
  dsimp only at heq ⊢
  generalize (if s.capacity = 0 then 16 else s.capacity * 2) = newCap at heq ⊢
  by_cases hfull : maxExpectPending ≤ s.requests.length
  · rw [if_pos hfull] at heq ⊢
    cases heq
    rfl
  rw [if_neg hfull] at heq ⊢
  by_cases hper : maxExpectPerClient ≤ (s.requests.filter (·.req.clientId == clientId)).length
  · rw [if_pos hper] at heq ⊢
    cases heq
    rfl
  rw [if_neg hper] at heq ⊢
  by_cases hgrow : s.capacity ≤ s.requests.length
  · simp only [hgrow, true_and, if_true, Bool.true_eq_false, if_false] at heq ⊢
    by_cases hmax : maxExpectPending < newCap
    · rw [if_pos hmax] at heq ⊢
      cases heq
      rfl
    · rw [if_neg hmax] at heq ⊢
      rw [engine_storeRequest heq]
      cases regex.compile pattern <;> rfl
  · simp only [hgrow, false_and, if_false, Bool.true_eq_false] at heq ⊢
    rw [engine_storeRequest heq]
    cases regex.compile pattern <;> rfl

theorem engine_apply {op : StoreOp} (heq : op.apply regex plenty s = some s') :
    s'.engine = op.onEngine regex s.engine := by
  cases op with
  | add id pattern timeoutS clientId now owner =>
    obtain ⟨r, hadd, heq⟩ := Option.map_eq_some_iff.mp heq
    rw [← heq]
    exact engine_storeAdd hadd
  | feed data =>
    obtain ⟨⟨h, rs⟩, hfed, heq⟩ := Option.map_eq_some_iff.mp heq
    cases heq
    simp only [ExpectStore.engine, StoreOp.onEngine, expectFeed, feedRequests_plenty hfed]
  | abortAll reason patternName =>
    cases heq
    simp only [ExpectStore.engine, StoreOp.onEngine, expectAbortAll, storeAbortAll, map_map]
    rfl
  | collect now maxOut =>
    obtain ⟨r, hcollect, heq⟩ := Option.map_eq_some_iff.mp heq
    obtain ⟨⟨taken, stay, h⟩, hremove, hcollect⟩ := Option.map_eq_some_iff.mp hcollect
    cases hcollect
    cases heq
    have hsame := removeFrom_collects hremove
    simp only [ExpectStore.engine, StoreOp.onEngine, expectCollect, length_map, hsame]
  | cancelId id => exact engine_storeCancel (fun req => req.id == id) heq
  | cancelClient clientId =>
    exact engine_storeCancel (fun req => req.clientId == clientId) heq
  | cancelAll =>
    obtain ⟨h, -, heq⟩ := Option.map_eq_some_iff.mp heq
    cases heq
    rfl
  | release =>
    rw [StoreOp.apply, storeRelease] at heq
    split at heq
    · cases heq
      rfl
    · obtain ⟨h, -, heq⟩ := Option.map_eq_some_iff.mp heq
      cases heq
      rfl

theorem engine_runStore {ops : List StoreOp} (heq : runStore regex plenty s ops = some s') :
    s'.engine = ops.foldl (StoreOp.onEngine regex) s.engine := by
  induction ops generalizing s with
  | nil =>
    cases heq
    rfl
  | cons op ops ih =>
    rw [runStore, foldlM_cons] at heq
    obtain ⟨s₁, hop, hops⟩ := Option.bind_eq_some_iff.mp heq
    rw [foldl_cons, ← engine_apply hop]
    exact ih hops

/-- While memory lasts, every sequence of operations goes through, and the engine with its
memory holds what the engine without it holds. -/
theorem store_runs_as_engine (regex : Regex ρ) (ops : List StoreOp) :
    ∃ s, runStore regex plenty storeInit ops = some s ∧
      s.engine = ops.foldl (StoreOp.onEngine regex) expectInit := by
  obtain ⟨s, hrun, -⟩ := runStore_spec regex plenty sane_storeInit ops
  exact ⟨s, hrun, engine_runStore hrun⟩

end Erasure

end Smolmux.Expect
