import Smolmux.Mcp.GdbSession

/-! Several processes of `gdb_mcp.c` on the broker of one gdb. Every process numbers its own
commands and reads the results of all of them; it tells its own result by the number. -/

namespace Smolmux.Mcp
open List Function

structure MiAnswer where
  command : Nat
  cls : Bytes
  results : Option Json

/-- A process: how many answers it has read, the command of the call it is in, and the
command whose answer it holds. -/
structure Seat where
  state : GdbState
  seen : Nat
  waiting : Option Nat
  taken : Option Nat

/-- The processes, the numbers of all commands in the order of sending, and the answers so
far. `returned` pairs the command of a call with the one whose answer the call returned. -/
structure Attached (n : Nat) where
  seats : Fin n → Seat
  commands : List Nat
  answers : List MiAnswer
  returned : List (Nat × Nat)

inductive Act (n : Nat) where
  | call (p : Fin n)
  | answer (a : MiAnswer)
  | read (p : Fin n)
  | finish (p : Fin n)

variable {n : Nat}

def readAnswer (commands : List Nat) (a : MiAnswer) (seat : Seat) : Seat :=
  let next := handleMiRecord seat.state
    ⟨.result, commands.getD a.command 0, a.cls, a.results, none⟩
  { seat with
    state := next
    seen := seat.seen + 1
    taken := if next.haveResult ∧ seat.state.haveResult = false then some a.command else seat.taken }

/-- gdb answers a command once, and the answers reach each process in order. A call finishes
with the result it holds, or without one when its time is over. -/
def Attached.step (s : Attached n) : Act n → Attached n
  | .call p =>
    let seat := s.seats p
    if seat.waiting.isSome then s
    else
      { s with
        seats := update s.seats p
          { seat with state := nextCommand seat.state, waiting := some s.commands.length }
        commands := s.commands ++ [seat.state.nextToken] }
  | .answer a =>
    if a.command < s.commands.length ∧ a.command ∉ s.answers.map (·.command) then
      { s with answers := s.answers ++ [a] }
    else s
  | .read p =>
    match s.answers[(s.seats p).seen]? with
    | none => s
    | some a => { s with seats := update s.seats p (readAnswer s.commands a (s.seats p)) }
  | .finish p =>
    let seat := s.seats p
    match seat.waiting with
    | none => s
    | some c =>
      { s with
        seats := update s.seats p { seat with
          state := { seat.state with pendingToken := 0, result := none, haveResult := false }
          waiting := none }
        returned := s.returned ++
          if seat.state.haveResult then (seat.taken.map (c, ·)).toList else [] }

def Seat.Open (seat : Seat) (commands : List Nat) (answers : List MiAnswer) (k : Nat) : Prop :=
  k < commands.length ∧ k ∉ (answers.take seat.seen).map (·.command)

instance (seat : Seat) (commands : List Nat) (answers : List MiAnswer) (k : Nat) :
    Decidable (seat.Open commands answers k) := inferInstanceAs (Decidable (_ ∧ _))

/-- Of the commands whose answers a process has still to read no two have one number. -/
def Attached.Distinct (s : Attached n) : Prop :=
  ∀ p, ∀ i < s.commands.length, ∀ j < s.commands.length,
    (s.seats p).Open s.commands s.answers i → (s.seats p).Open s.commands s.answers j →
      s.commands[i]? = s.commands[j]? → i = j

instance (s : Attached n) : Decidable s.Distinct := by
  unfold Attached.Distinct
  infer_instance

def Attached.DistinctRun : Attached n → List (Act n) → Prop
  | _, [] => True
  | s, act :: acts => s.Distinct ∧ DistinctRun (s.step act) acts

structure Seat.Ok (commands : List Nat) (answers : List MiAnswer) (seat : Seat) : Prop where
  seen : seat.seen ≤ answers.length
  pending : seat.state.pendingToken ≠ 0 → ∃ c, seat.waiting = some c ∧
    commands[c]? = some seat.state.pendingToken ∧ seat.Open commands answers c
  held : seat.state.haveResult = true → ∃ c, seat.waiting = some c ∧ seat.taken = some c

structure Attached.Sound (s : Attached n) : Prop where
  known : ∀ a ∈ s.answers, a.command < s.commands.length
  once : (s.answers.map (·.command)).Nodup
  seats : ∀ p, (s.seats p).Ok s.commands s.answers
  own : ∀ r ∈ s.returned, r.1 = r.2

section Steps
variable {commands : List Nat} {answers : List MiAnswer} {seat : Seat} {s : Attached n}

theorem Seat.Ok.sent (h : seat.Ok commands answers) (token : Nat) :
    seat.Ok (commands ++ [token]) answers := by
  refine ⟨h.seen, fun hpending => ?_, h.held⟩
  obtain ⟨c, hwaiting, htoken, hlt, hopen⟩ := h.pending hpending
  exact ⟨c, hwaiting, by rw [getElem?_append_left hlt, htoken], by simp; omega, hopen⟩

theorem Seat.Ok.answered (h : seat.Ok commands answers) (a : MiAnswer) :
    seat.Ok commands (answers ++ [a]) := by
  refine ⟨h.seen.trans (by simp), fun hpending => ?_, h.held⟩
  obtain ⟨c, hwaiting, htoken, hlt, hopen⟩ := h.pending hpending
  exact ⟨c, hwaiting, htoken, hlt, by rwa [take_append_of_le_length h.seen]⟩

/-- The answer that a process takes for its own is its own, when no other answer that it has
still to read carries the number. -/
theorem Seat.Ok.read (h : seat.Ok commands answers) {a : MiAnswer}
    (ha : answers[seat.seen]? = some a) (hopen : seat.Open commands answers a.command)
    (hdistinct : ∀ i j, seat.Open commands answers i → seat.Open commands answers j →
      commands[i]? = commands[j]? → i = j) : (readAnswer commands a seat).Ok commands answers := by
  obtain ⟨hlt, hunread⟩ := hopen
  have hseen : seat.seen + 1 ≤ answers.length := (List.getElem?_eq_some_iff.mp ha).1
  have htoken : commands[a.command]? = some (commands.getD a.command 0) := by
    rw [getD_eq_getElem _ _ hlt, getElem?_eq_getElem hlt]
  by_cases hmine : seat.state.pendingToken ≠ 0 ∧
      (commands.getD a.command 0 : Int) = seat.state.pendingToken
  · obtain ⟨c, hwaiting, hc, hcopen⟩ := h.pending hmine.1
    obtain rfl : c = a.command := hdistinct c a.command hcopen ⟨hlt, hunread⟩ (by
      rw [hc, htoken, Int.natCast_inj.mp hmine.2])
    simp only [readAnswer, handleMiRecord, if_pos hmine]
    refine ⟨hseen, nofun, fun _ => ⟨a.command, hwaiting, ?_⟩⟩
    split_ifs with hfirst
    · rfl
    · obtain ⟨c, hc, htaken⟩ := h.held (by simpa using hfirst)
      rw [htaken, ← hc, hwaiting]
  · simp only [readAnswer, handleMiRecord, if_neg hmine]
    refine ⟨hseen, fun hpending => ?_, fun hheld => ?_⟩
    · obtain ⟨c, hwaiting, hc, hclt, hcunread⟩ := h.pending hpending
      refine ⟨c, hwaiting, hc, hclt, ?_⟩
      simp only [take_add_one, ha, Option.toList_some, map_append, mem_append, not_or]
      refine ⟨hcunread, fun heq => hmine ⟨hpending, ?_⟩⟩
      obtain rfl : c = a.command := by simpa using heq
      rw [htoken] at hc
      exact congrArg Nat.cast (Option.some.inj hc)
    · obtain ⟨c, hc, htaken⟩ := h.held hheld
      exact ⟨c, hc, by simp [htaken]⟩

theorem Attached.Sound.step (h : s.Sound) (hdistinct : s.Distinct) (act : Act n) :
    (s.step act).Sound := by
  cases act with
  | call p =>
    rw [Attached.step]
    split_ifs with hbusy
    · exact h
    refine ⟨fun a ha => by simpa using (h.known a ha).trans (Nat.lt_succ_self _), h.once, ?_, h.own⟩
    refine (forall_update_iff _ _).mpr ⟨⟨(h.seats p).seen, fun _ => ?_, nofun⟩,
      fun q _ => (h.seats q).sent _⟩
    refine ⟨s.commands.length, rfl, by simp [nextCommand], by simp, fun hmem => ?_⟩
    obtain ⟨a, ha, heq⟩ := mem_map.mp hmem
    exact absurd (h.known a (mem_of_mem_take ha)) (by omega)
  | answer a =>
    rw [Attached.step]
    split_ifs with hnew
    · refine ⟨?_, ?_, fun p => (h.seats p).answered a, h.own⟩
      · exact fun b hb => (mem_append.mp hb).elim (h.known b) fun heq => by simp_all
      · simpa [nodup_append, h.once] using hnew.2
    · exact h
  | read p =>
    rw [Attached.step]
    cases ha : s.answers[(s.seats p).seen]? with
    | none => exact h
    | some a =>
      have hopen : (s.seats p).Open s.commands s.answers a.command := by
        refine ⟨h.known a (mem_of_getElem? ha), ?_⟩
        have honce := h.once.sublist ((take_sublist ((s.seats p).seen + 1) _).map _)
        rw [take_add_one, ha, map_append, nodup_append] at honce
        exact fun hmem => honce.2.2 _ hmem _ mem_cons_self rfl
      refine ⟨h.known, h.once, (forall_update_iff _ _).mpr ⟨?_, fun q _ => h.seats q⟩, h.own⟩
      exact (h.seats p).read ha hopen fun i j hi hj => hdistinct p i hi.1 j hj.1 hi hj
  | finish p =>
    rw [Attached.step]
    cases hwaiting : (s.seats p).waiting with
    | none =>
      exact h
    | some c =>
      refine ⟨h.known, h.once, (forall_update_iff _ _).mpr ⟨⟨(h.seats p).seen, nofun, nofun⟩,
        fun q _ => h.seats q⟩, fun r hr => ?_⟩
      rcases mem_append.mp hr with hr | hr
      · exact h.own r hr
      · split_ifs at hr with hheld
        · obtain ⟨c', hc', htaken⟩ := (h.seats p).held hheld
          simp_all
        · cases hr

end Steps

/-- In every run in which no two answers that a process has still to read carry one number,
a call returns the answer to its own command. -/
theorem results_are_own {s : Attached n} (acts : List (Act n)) (h : s.Sound) (hrun : s.DistinctRun acts) :
    ∀ r ∈ (acts.foldl Attached.step s).returned, r.1 = r.2 := by
  induction acts generalizing s with
  | nil => exact h.own
  | cons act acts ih => exact ih (h.step hrun.1 act) hrun.2

def started (n : Nat) : Attached n := ⟨fun _ => ⟨gdbStart [], 0, none, none⟩, [], [], []⟩

theorem started_sound : (started n).Sound :=
  ⟨nofun, nodup_nil, fun _ => ⟨Nat.le_refl 0, fun h => absurd rfl h, nofun⟩, nofun⟩

def done (k : Nat) : MiAnswer := ⟨k, ascii "done", none⟩

/-- Two processes with the same numbers: the second one sends its command when both have read the
answer to the first one's. -/
theorem results_are_own_two :
    let acts : List (Act 2) := [.call 0, .answer (done 0), .read 0, .read 1, .finish 0, .call 1,
      .answer (done 1), .read 0, .read 1, .finish 1]
    let s := acts.foldl Attached.step (started 2)
    s.commands = [1, 1] ∧ s.returned = [(0, 0), (1, 1)] ∧ ∀ r ∈ s.returned, r.1 = r.2 := by
  refine ⟨by decide, by decide, results_are_own _ started_sound ?_⟩
  simp only [Attached.DistinctRun]
  decide +kernel

/-- Two processes send their first commands, both with the number 1, and the second one
returns the answer to the first one's. -/
theorem result_of_other_process :
    ([Act.call 0, .call 1, .answer (done 0), .read 1, .finish 1].foldl Attached.step
      (started 2)).returned = [(1, 0)] := by
  decide

end Smolmux.Mcp
