import Mathlib.Data.Rat.Defs
import Smolmux.SwapRemove
import Smolmux.Window

/-! The expect engine (`expect.c`): pending waits for a pattern in the device
output, each with its own buffer and deadline. Requests leave the table by swap
removal. A buffer that has to grow does so. -/

namespace Smolmux.Expect
open List

def maxExpectPending : Nat := 256

def maxExpectPerClient : Nat := 16

def maxExpectBufSize : Nat := 256 * 1024

def expectScanLookback : Nat := 256

structure ExpectRequest (ρ : Type) where
  id : Bytes
  compiled : ρ
  patternStr : Bytes
  deadline : Rat
  buffer : Bytes
  searchOffset : Nat
  matched : Bool
  aborted : Bool
  clientId : Bytes
  abortReason : Bytes
  abortPattern : Bytes
  /-- Number of the request and the connection it is for, if any; for the trace. -/
  ticket : Nat
  owner : Option Nat

structure ExpectEngine (ρ : Type) where
  requests : List (ExpectRequest ρ)
  capacity : Nat
  next : Nat

structure ExpectResult where
  id : Bytes
  isMatched : Bool
  aborted : Bool
  data : Bytes
  pattern : Bytes
  clientId : Bytes
  abortReason : Bytes
  abortPattern : Bytes
  ticket : Nat
  owner : Option Nat

inductive ExpectError where
  | full | perClient | badPattern | nomem
  deriving DecidableEq

def expectAddErrstr : ExpectError → String
  | .full => "too many pending expects"
  | .perClient => "too many expects for this client"
  | .nomem => "out of memory"
  | .badPattern => "invalid regex pattern"

variable {ρ : Type}

def expectInit : ExpectEngine ρ := ⟨[], 0, 0⟩

def newRequest (id pattern : Bytes) (compiled : ρ) (deadline : Rat) (clientId : Bytes)
    (ticket : Nat) (owner : Option Nat) : ExpectRequest ρ where
  id := stored 64 id
  compiled := compiled
  patternStr := stored 256 pattern
  deadline := deadline
  buffer := []
  searchOffset := 0
  matched := false
  aborted := false
  clientId := stored 32 clientId
  abortReason := []
  abortPattern := []
  ticket := ticket
  owner := owner

/-- `now` is the clock reading the deadline is counted from; the two flags are
whether the table can grow and the buffer can be allocated. -/
def expectAdd (regex : Regex ρ) (growMem bufMem : Bool) (eng : ExpectEngine ρ) (id pattern : Bytes)
    (timeoutS : Rat) (clientId : Bytes) (now : Rat) (owner : Option Nat) :
    ExpectEngine ρ × Option ExpectError :=
  if maxExpectPending ≤ eng.requests.length then (eng, some .full)
  else if maxExpectPerClient ≤ (eng.requests.filter (·.clientId == clientId)).length then
    (eng, some .perClient)
  else
    let grows := eng.capacity ≤ eng.requests.length
    let newCap := if eng.capacity = 0 then 16 else eng.capacity * 2
    if grows ∧ maxExpectPending < newCap then (eng, some .full)
    else if grows ∧ growMem = false then (eng, some .nomem)
    else
      let eng := if grows then { eng with capacity := newCap } else eng
      match regex.compile pattern with
      | none => (eng, some .badPattern)
      | some compiled =>
        if bufMem = false then (eng, some .nomem)
        else
          ({ eng with
              requests := eng.requests ++
                [newRequest id pattern compiled (now + timeoutS) clientId eng.next owner]
              next := eng.next + 1 }, none)

/-- One request reads new output: the newest bytes are kept, and the search
starts a little before what has been searched already. -/
def feedRequest (regex : Regex ρ) (data : Bytes) (req : ExpectRequest ρ) : ExpectRequest ρ :=
  if req.matched then req
  else
    let (kept, offset) :=
      if maxExpectBufSize < data.length then ([], 0)
      else
        let drop := req.buffer.length + data.length - maxExpectBufSize
        (req.buffer.drop drop, req.searchOffset - drop)
    let buffer := kept ++ data.drop (data.length - maxExpectBufSize)
    let start := offset - expectScanLookback
    let found := regex.exec req.compiled (buffer.drop start)
    { req with
      compiled := found.2
      buffer := buffer
      searchOffset := buffer.length
      matched := found.1.isSome }

def expectFeed (regex : Regex ρ) (eng : ExpectEngine ρ) (data : Bytes) : ExpectEngine ρ :=
  { eng with requests := eng.requests.map (feedRequest regex data) }

def requestDone (now : Rat) (req : ExpectRequest ρ) : Bool :=
  req.matched || req.aborted || decide (req.deadline ≤ now)

def resultOf (req : ExpectRequest ρ) : ExpectResult where
  id := stored 64 req.id
  isMatched := req.matched
  aborted := req.aborted
  data := req.buffer
  pattern := stored 256 req.patternStr
  clientId := stored 32 req.clientId
  abortReason := stored 32 req.abortReason
  abortPattern := stored 64 req.abortPattern
  ticket := req.ticket
  owner := req.owner

/-- The collecting loop from index `i` on, `left` requests to look at and room
for `room` results. -/
def collectFrom (now : Rat) : (left room i : Nat) → List (ExpectRequest ρ) →
    List ExpectResult × List (ExpectRequest ρ)
  | 0, _, _, reqs => ([], reqs)
  | _, 0, _, reqs => ([], reqs)
  | left + 1, room + 1, i, reqs =>
    match reqs[i]? with
    | none => ([], reqs)
    | some req =>
      if requestDone now req then
        let rest := collectFrom now left room i (swapRemove reqs i)
        (resultOf req :: rest.1, rest.2)
      else collectFrom now left (room + 1) (i + 1) reqs

def expectCollect (eng : ExpectEngine ρ) (now : Rat) (maxOut : Nat) :
    List ExpectResult × ExpectEngine ρ :=
  let r := collectFrom now eng.requests.length maxOut 0 eng.requests
  (r.1, { eng with requests := r.2 })

def abortRequest (reason patternName : Bytes) (req : ExpectRequest ρ) : ExpectRequest ρ :=
  if req.matched || req.aborted then req
  else
    { req with
      aborted := true
      abortReason := stored 32 reason
      abortPattern := stored 64 patternName }

def expectAbortAll (eng : ExpectEngine ρ) (reason patternName : Bytes) : ExpectEngine ρ :=
  { eng with requests := eng.requests.map (abortRequest reason patternName) }

def expectCancelId (eng : ExpectEngine ρ) (id : Bytes) : ExpectEngine ρ :=
  { eng with requests := sweep (·.id == id) eng.requests }

def expectCancelClient (eng : ExpectEngine ρ) (clientId : Bytes) : ExpectEngine ρ :=
  { eng with requests := sweep (·.clientId == clientId) eng.requests }

def expectCancelAll (eng : ExpectEngine ρ) : ExpectEngine ρ := { eng with requests := [] }

inductive Adds (eng : ExpectEngine ρ) (pattern : Option ρ) (req : ρ → ExpectRequest ρ) :
    ExpectEngine ρ × Option ExpectError → Prop
  | refused {eng' : ExpectEngine ρ} (hrequests : eng'.requests = eng.requests)
      (hnext : eng'.next = eng.next) (err : ExpectError) : Adds eng pattern req (eng', some err)
  | added {eng' : ExpectEngine ρ} (compiled : ρ) (hcompiled : pattern = some compiled)
      (hrequests : eng'.requests = eng.requests ++ [req compiled])
      (hnext : eng'.next = eng.next + 1) : Adds eng pattern req (eng', none)

theorem adds_expectAdd (regex : Regex ρ) (growMem bufMem : Bool) (eng : ExpectEngine ρ)
    (id pattern : Bytes) (timeoutS : Rat) (clientId : Bytes) (now : Rat) (owner : Option Nat) :
    Adds eng (regex.compile pattern) (fun compiled =>
        newRequest id pattern compiled (now + timeoutS) clientId eng.next owner)
      (expectAdd regex growMem bufMem eng id pattern timeoutS clientId now owner) := by
  unfold expectAdd
  dsimp only
  generalize (if eng.capacity = 0 then 16 else eng.capacity * 2) = newCap
  split
  case isTrue => exact .refused rfl rfl _
  split
  case isTrue => exact .refused rfl rfl _
  split
  case isTrue => exact .refused rfl rfl _
  split
  case isTrue => exact .refused rfl rfl _
  -- the table has grown, or has not
  generalize hgrown : (if eng.capacity ≤ eng.requests.length then { eng with capacity := newCap }
    else eng) = eng₁
  have hrequests : eng₁.requests = eng.requests := by
    rw [← hgrown]
    split <;> rfl
  have hnext : eng₁.next = eng.next := by
    rw [← hgrown]
    split <;> rfl
  split
  · exact .refused hrequests hnext _
  next compiled hcompiled =>
    split
    case isTrue => exact .refused hrequests hnext _
    case isFalse =>
      exact .added compiled hcompiled (by rw [hrequests, hnext]) (by rw [hnext])

theorem collectFrom_perm (now : Rat) (left room i : Nat) (reqs : List (ExpectRequest ρ)) :
    ∃ done, (collectFrom now left room i reqs).1 = done.map resultOf ∧
      (done ++ (collectFrom now left room i reqs).2).Perm reqs ∧
      ∀ req ∈ done, requestDone now req := by
  induction left generalizing room i reqs with
  | zero => exact ⟨[], by simp [collectFrom]⟩
  | succ left ih =>
    cases room with
    | zero => exact ⟨[], by simp [collectFrom]⟩
    | succ room =>
      rw [collectFrom]
      split
      · exact ⟨[], by simp⟩
      next req hreq =>
        obtain ⟨hi, rfl⟩ := List.getElem?_eq_some_iff.mp hreq
        split_ifs with hdone
        · obtain ⟨done, hresults, hperm, hall⟩ := ih room i (swapRemove reqs i)
          refine ⟨reqs[i] :: done, congrArg _ hresults, ?_, ?_⟩
          · have herase := (hperm.trans (swapRemove_perm hi)).cons reqs[i]
            exact herase.trans (getElem_cons_eraseIdx_perm hi)
          · simpa [hdone] using hall
        · exact ih (room + 1) (i + 1) reqs

theorem take_collectFrom (now : Rat) (left room i : Nat) (reqs : List (ExpectRequest ρ)) :
    (collectFrom now left room i reqs).2.take i = reqs.take i := by
  induction left generalizing room i reqs with
  | zero => simp [collectFrom]
  | succ left ih =>
    cases room with
    | zero => simp [collectFrom]
    | succ room =>
      rw [collectFrom]
      split
      · rfl
      next req hreq =>
        have hi := (List.getElem?_eq_some_iff.mp hreq).1
        split_ifs with hdone
        · exact (ih room i _).trans (take_swapRemove hi)
        · have hmore := congrArg (List.take i) (ih (room + 1) (i + 1) reqs)
          rwa [take_take, take_take, Nat.min_eq_left (Nat.le_succ i)] at hmore

theorem collectFrom_complete {now : Rat} {left room i : Nat} {reqs : List (ExpectRequest ρ)}
    (hleft : reqs.length ≤ i + left)
    (hroom : (collectFrom now left room i reqs).1.length < room) :
    ∀ req ∈ (collectFrom now left room i reqs).2.drop i, requestDone now req = false := by
  induction left generalizing room i reqs with
  | zero => simp [collectFrom, drop_eq_nil_of_le (Nat.add_zero i ▸ hleft)]
  | succ left ih =>
    cases room with
    | zero => exact absurd hroom (Nat.not_lt_zero _)
    | succ room =>
      rw [collectFrom] at hroom ⊢
      split at hroom
      next hnone => simp [drop_eq_nil_of_le (List.getElem?_eq_none_iff.mp hnone)]
      next req hreq =>
        obtain ⟨hi, rfl⟩ := List.getElem?_eq_some_iff.mp hreq
        dsimp only at hroom ⊢
        split_ifs at hroom ⊢ with hdone
        · have hlength := length_swapRemove reqs i
          exact ih (by omega) (Nat.lt_of_succ_lt_succ hroom)
        · -- the request at the index stays where it is
          have hrest := ih (by omega) hroom
          have htake := take_collectFrom now left (room + 1) (i + 1) reqs
          have hlength := congrArg List.length htake
          rw [length_take, length_take] at hlength
          have hi' : i < (collectFrom now left (room + 1) (i + 1) reqs).2.length := by omega
          have hsame : (collectFrom now left (room + 1) (i + 1) reqs).2[i] = reqs[i] := by
            have hget := congrArg (·[i]?) htake
            simpa [hi, hi'] using hget
          rw [drop_eq_getElem_cons hi', hsame]
          intro req hreq
          cases mem_cons.mp hreq with
          | inl h => simpa [h] using hdone
          | inr h => exact hrest req h

theorem collectFrom_of_done {now : Rat} {room : Nat} {reqs : List (ExpectRequest ρ)}
    (hdone : ∀ req ∈ reqs, requestDone now req) (hroom : reqs.length ≤ room) :
    (collectFrom now reqs.length room 0 reqs).2 = [] := by
  obtain ⟨done, hresults, hperm, -⟩ := collectFrom_perm now reqs.length room 0 reqs
  have hcomplete : (collectFrom now reqs.length room 0 reqs).1.length < room →
      ∀ req ∈ (collectFrom now reqs.length room 0 reqs).2, requestDone now req = false :=
    collectFrom_complete (Nat.le_of_eq (Nat.zero_add reqs.length).symm)
  generalize collectFrom now reqs.length room 0 reqs = r at hresults hperm hcomplete ⊢
  have hlength := hperm.length_eq
  rw [length_append] at hlength
  rw [hresults, length_map] at hcomplete
  rw [eq_nil_iff_forall_not_mem]
  intro req hreq
  have hpos := length_pos_of_mem hreq
  have hnot := hcomplete (by omega) req hreq
  rw [hdone req (hperm.mem_iff.mp (mem_append_right _ hreq))] at hnot
  cases hnot

end Smolmux.Expect
