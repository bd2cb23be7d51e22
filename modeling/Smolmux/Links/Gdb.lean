import Smolmux.Framing
import Smolmux.Links.LinkQueue

/-! The GDB link (`links/gdb.c`): a write is looked through, line by line, for
commands that run code on the host before it goes to the queue of gdb's input. -/

namespace Smolmux.Links
open Client Framing Protocol List

def gdbCodeExecCmds : List Bytes :=
  [ascii "shell", ascii "pipe", ascii "python", ascii "guile", ascii "make", ascii "eval"]

/-- A word of two bytes or more that agrees with one of the names as far as both go. -/
def wordIsCodeExec (word : Bytes) : Bool :=
  decide (2 ≤ word.length) && gdbCodeExecCmds.any fun name =>
    let m := min word.length name.length
    word.take m == name.take m

def isEscape (c : UInt8) : Bool := c == 33 || c == 124

def endsWord (c : UInt8) : Bool := isBlank c || c == 13 || c == 10

def endsExecWord (c : UInt8) : Bool := endsWord c || c == 34

/-- The scan of the arguments of `-interpreter-exec`; a round takes a byte at least. -/
def scanExecWords : (rounds : Nat) → Bytes → Bool
  | 0, _ => false
  | _ + 1, [] => false
  | rounds + 1, c :: cs =>
    if isEscape c then true
    else if endsExecWord c then scanExecWords rounds cs
    else
      let word := (c :: cs).takeWhile fun x => !endsExecWord x
      if wordIsCodeExec word then true
      else scanExecWords rounds ((c :: cs).drop word.length)

def interpreterExec : Bytes := ascii "-interpreter-exec"

/-- `sm_gdb_line_invokes_shell`: a token of digits and blanks are skipped first. -/
def gdbLineInvokesShell (line : Bytes) : Bool :=
  match (line.dropWhile isDigit).dropWhile isBlank with
  | [] => false
  | c :: cs =>
    if isEscape c then true
    else if wordIsCodeExec ((c :: cs).takeWhile fun x => !endsWord x) then true
    else if interpreterExec.isPrefixOf (c :: cs) then
      let args := (c :: cs).drop interpreterExec.length
      scanExecWords args.length args
    else false

def containsShellFrom : (acc : Bytes) → Bytes → Bool
  | acc, [] => decide (acc ≠ []) && gdbLineInvokesShell acc
  | acc, c :: cs =>
    if c = newline then gdbLineInvokesShell acc || containsShellFrom [] cs
    else containsShellFrom (acc ++ [c]) cs

def containsShellCommand (data : Bytes) : Bool := containsShellFrom [] data

structure GdbLink where
  stdinOpen : Bool
  allowShell : Bool
  wq : LinkWq

def gdbWriteData (mem : WqMem) (results : List WriteResult) (gd : GdbLink) (data : Bytes) :
    GdbLink × Int × Bytes :=
  if gd.stdinOpen = false then (gd, -1, [])
  else if gd.allowShell = false ∧ containsShellCommand data = true then (gd, -1, [])
  else
    let r := linkWqWrite mem results gd.wq data
    ({ gd with wq := r.1 }, r.2)

def gdbFlushWriteQueue (results : List WriteResult) (gd : GdbLink) :
    Option (GdbLink × FlushResult × Bytes) :=
  if gd.stdinOpen = false then some (gd, .error, [])
  else (linkWqFlush results gd.wq).map fun r => ({ gd with wq := r.1 }, r.2)

/-- A link with what gdb has read of it. `torn` says that a write failed after a part
of it had been delivered. -/
structure GdbSession where
  link : GdbLink
  delivered : Bytes
  torn : Bool

def GdbSession.step (s : GdbSession) : WqOp → Option GdbSession
  | .write data results mem =>
    let r := gdbWriteData mem results s.link data
    some ⟨r.1, s.delivered ++ r.2.2, s.torn || (decide (r.2.1 ≠ 0) && decide (r.2.2 ≠ []))⟩
  | .flush results =>
    (gdbFlushWriteQueue results s.link).map fun r => ⟨r.1, s.delivered ++ r.2.2, s.torn⟩

def GdbSession.run (s : GdbSession) (ops : List WqOp) : Option GdbSession := ops.foldlM step s

def gdbStart : GdbSession := ⟨⟨true, false, linkWqInit⟩, [], false⟩

def completeLines (stream : Bytes) : List Bytes := items newline some stream

def WqOp.Lined : WqOp → Prop
  | .write data _ _ => Whole newline data
  | .flush _ => True

theorem containsShellFrom_lines {acc data : Bytes} (h : containsShellFrom acc data = false) :
    ∀ line ∈ itemsFrom newline some acc data, gdbLineInvokesShell line = false := by
  induction data generalizing acc with
  | nil => simp [itemsFrom]
  | cons c cs ih =>
    unfold containsShellFrom at h
    unfold itemsFrom
    split_ifs at h ⊢ with hc
    · rw [Bool.or_eq_false_iff] at h
      intro line hline
      rcases mem_append.mp hline with hline | hline
      · rw [mem_singleton.mp hline]
        exact h.1
      · exact ih h.2 line hline
    · exact ih h

theorem checked_lines {data : Bytes} (h : containsShellCommand data = false) :
    ∀ line ∈ completeLines data, gdbLineInvokesShell line = false := containsShellFrom_lines h

/-- What gdb has read and will read of the queue is made of whole lines that have been
looked at. -/
structure GdbSession.Guarded (s : GdbSession) : Prop where
  good : s.link.wq.Good
  guard : s.link.allowShell = false
  whole : s.torn = false → Whole newline (s.delivered ++ s.link.wq.queued)
  checked : s.torn = false → ∀ line ∈ completeLines (s.delivered ++ s.link.wq.queued),
    gdbLineInvokesShell line = false

section Session

variable {s : GdbSession}

theorem checked_append {xs ys : Bytes} (hwhole : Whole newline xs)
    (hxs : ∀ line ∈ completeLines xs, gdbLineInvokesShell line = false)
    (hys : containsShellCommand ys = false) :
    ∀ line ∈ completeLines (xs ++ ys), gdbLineInvokesShell line = false := by
  intro line hline
  rw [completeLines, items_append hwhole] at hline
  rcases mem_append.mp hline with hline | hline
  · exact hxs line hline
  · exact checked_lines hys line hline

theorem GdbSession.Guarded.write (h : s.Guarded) {data : Bytes} (hdata : Whole newline data)
    (results : List WriteResult) (mem : WqMem) :
    ∃ s', s.step (.write data results mem) = some s' ∧ s'.Guarded := by
  refine ⟨_, rfl, ?_⟩
  have hsame : ∀ rc : Int, GdbSession.Guarded ⟨s.link, s.delivered ++ [],
      s.torn || (decide (rc ≠ 0) && decide (([] : Bytes) ≠ []))⟩ := by
    intro rc
    have htorn : (s.torn || (decide (rc ≠ 0) && decide (([] : Bytes) ≠ []))) = s.torn := by simp
    rw [htorn, append_nil]
    exact h
  unfold gdbWriteData
  split_ifs with hclosed hblocked
  · exact hsame (-1)
  · exact hsame (-1)
  · have hpassed : containsShellCommand data = false :=
      Bool.eq_false_of_not_eq_true fun hfound => hblocked ⟨h.guard, hfound⟩
    obtain ⟨hgood, part, ⟨-, hall⟩, hstream, hfailed⟩ :=
      write_contributes (s := ⟨s.link.wq, [], []⟩) h.good data results mem
    dsimp only at hgood hstream hfailed hall ⊢
    generalize linkWqWrite mem results s.link.wq data = r at hgood hstream hfailed hall
    have hdone : s.delivered ++ r.2.2 ++ r.1.queued = s.delivered ++ s.link.wq.queued ++ part := by
      rw [append_assoc, hstream, append_assoc]
    -- a write that fails without delivering anything adds nothing
    have hpart : (s.torn || (decide (r.2.1 ≠ 0) && decide (r.2.2 ≠ []))) = false →
        part = data ∨ part = [] := by
      intro htorn
      by_cases hok : r.2.1 = 0
      · exact .inl (hall hok)
      · have hnone : r.2.2 = [] := by simpa [hok] using (Bool.or_eq_false_iff.mp htorn).2
        rw [hnone, hfailed hok, nil_append] at hstream
        exact .inr (append_cancel_left (hstream.symm.trans (append_nil _).symm))
    refine ⟨hgood, h.guard, fun htorn => ?_, fun htorn => ?_⟩
    · rw [hdone]
      have hwhole := h.whole (Bool.or_eq_false_iff.mp htorn).1
      rcases hpart htorn with rfl | rfl
      · exact hwhole.append hdata
      · rwa [append_nil]
    · rw [hdone]
      have hwhole := h.whole (Bool.or_eq_false_iff.mp htorn).1
      have hchecked := h.checked (Bool.or_eq_false_iff.mp htorn).1
      rcases hpart htorn with rfl | rfl
      · exact checked_append hwhole hchecked hpassed
      · rwa [append_nil]

theorem GdbSession.Guarded.flush (h : s.Guarded) (results : List WriteResult) :
    ∃ s', s.step (.flush results) = some s' ∧ s'.Guarded := by
  simp only [GdbSession.step, gdbFlushWriteQueue]
  split_ifs with hclosed
  · refine ⟨_, rfl, ?_⟩
    dsimp only
    rw [append_nil]
    exact h
  · obtain ⟨r, hr, hgood, hdone⟩ := h.good.flush results
    rw [hr]
    refine ⟨_, rfl, hgood, h.guard, ?_, ?_⟩
    · dsimp only
      rw [append_assoc, hdone]
      exact h.whole
    · dsimp only
      rw [append_assoc, hdone]
      exact h.checked

theorem GdbSession.Guarded.run (h : s.Guarded) {ops : List WqOp} (hops : ∀ op ∈ ops, op.Lined) :
    ∃ s', s.run ops = some s' ∧ s'.Guarded := by
  induction ops generalizing s with
  | nil => exact ⟨s, rfl, h⟩
  | cons op ops ih =>
    have hstep : ∃ t, s.step op = some t ∧ t.Guarded := by
      cases op with
      | write data results mem => exact h.write (hops _ mem_cons_self) results mem
      | flush results => exact h.flush results
    obtain ⟨t, ht, hguarded⟩ := hstep
    obtain ⟨s', hs', hguarded'⟩ := ih hguarded fun op hop => hops op (mem_cons_of_mem _ hop)
    refine ⟨s', ?_, hguarded'⟩
    rw [GdbSession.run, foldlM_cons, ht]
    exact hs'

theorem guarded_start : gdbStart.Guarded where
  good := sound_start.good
  guard := rfl
  whole _ := .inl rfl
  checked _ := by simp [gdbStart, LinkWq.queued, LinkWq.entries, linkWqInit, completeLines, items,
    itemsFrom]

end Session

/-- The guard over the delivered stream: when writes end their lines and none is torn,
every line that gdb reads passes the check. -/
theorem gdb_lines_checked (ops : List WqOp) (hlined : ∀ op ∈ ops, op.Lined) :
    ∃ s, gdbStart.run ops = some s ∧ (s.torn = false →
      ∀ line ∈ completeLines s.delivered, gdbLineInvokesShell line = false) := by
  obtain ⟨s, hs, hguarded⟩ := guarded_start.run hlined
  refine ⟨s, hs, fun htorn line hline => hguarded.checked htorn line ?_⟩
  exact (items_mono (prefix_append _ _)).subset hline

def wholeWrite (data : String) : WqOp := .write (ascii data) [.wrote 4096] ⟨true, true⟩

/-- The second command is taken in part and queued, and the third waits behind it. -/
def infoWrites : List WqOp :=
  [wholeWrite "info files\n", .write (ascii "break main\n") [.wrote 4, .again] ⟨true, true⟩,
    .write (ascii "info reg\n") [.again] ⟨true, true⟩, .flush [.wrote 4096, .wrote 4096]]

theorem gdb_lines_checked_info : ∃ s, gdbStart.run infoWrites = some s ∧ s.torn = false ∧
    completeLines s.delivered = [ascii "info files", ascii "break main", ascii "info reg"] ∧
      ∀ line ∈ completeLines s.delivered, gdbLineInvokesShell line = false := by
  have hlined : ∀ op ∈ infoWrites, op.Lined := by
    simp only [infoWrites, wholeWrite, forall_mem_cons, WqOp.Lined]
    exact ⟨.inr (by decide), .inr (by decide), .inr (by decide), trivial, nofun⟩
  obtain ⟨s, hs, hchecked⟩ := gdb_lines_checked infoWrites hlined
  have hrun : (gdbStart.run infoWrites).map (fun s => (s.torn, completeLines s.delivered)) =
      some (false, [ascii "info files", ascii "break main", ascii "info reg"]) := by
    decide +kernel
  rw [hs, Option.map_some, Option.some.injEq, Prod.mk.injEq] at hrun
  exact ⟨s, hs, hrun.1, hrun.2, hchecked hrun.1⟩

/-- One line in two writes: neither of them holds a command that the check knows, and
gdb reads `shell id`. -/
theorem gdb_split_line_unchecked : ∃ s,
    gdbStart.run [wholeWrite "s", wholeWrite "hell id\n"] = some s ∧ s.torn = false ∧
      completeLines s.delivered = [ascii "shell id"] ∧
        gdbLineInvokesShell (ascii "shell id") = true :=
  ⟨⟨gdbStart.link, ascii "shell id\n", false⟩, rfl, rfl, by decide, by decide⟩

end Smolmux.Links
