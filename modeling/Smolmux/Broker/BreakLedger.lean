import Smolmux.Broker.Letters
import Smolmux.Broker.Takeover
import Smolmux.Requests

/-! The BREAK machine: its steps, with the events that each tells, and that whatever the
broker does is a step of it. It keeps a balanced book, as a server does that takes one
request at a time. -/

namespace Smolmux.Broker
open Protocol Smolmux.Frame List

variable {ρ α : Type}

def Event.entry : Event → Option (Entry Bytes)
  | .requested t => some (.requested t)
  | .asserted t pin => some (.asserted t pin)
  | .deasserted t pin _ => some (.released t pin)
  | .accepted t calls => some (.accepted t calls)
  | .rejected t => some (.rejected t)
  | .callback t _ => some (.callback t)
  | _ => none

def BreakMachine.phase (m : BreakMachine) : Phase Bytes :=
  match m.state with
  | .idle => .idle
  | .asserted => .holding m.current m.pin m.done.isSome
  | .delay => .pausing m.current m.done.isSome

def entries (b : Broker ρ) : List (Entry Bytes) := b.trace.filterMap Event.entry

def book (b : Broker ρ) : Book Bytes := ⟨b.brk.phase, b.brk.next, b.entries⟩

namespace BreakMachine

def ended (m : BreakMachine) : BreakMachine :=
  { m with state := .idle, followup := [], done := none }

def holding (ticket : Nat) (pin : Bytes) (m : BreakMachine) : BreakMachine :=
  { m with state := .asserted, pin := pin, current := ticket }

inductive Ends (ticket : Nat) : Option BreakDone → List Event → Prop
  | silent : Ends ticket none []
  | told (done : BreakDone) (rc : Int) : Ends ticket (some done) [.callback ticket rc]
  | answered (ctx : PinBreakCtx) (rc : Int) : Ends ticket (some (.pin ctx))
      [.callback ticket rc, .reply (.pin ticket) (pinReply ctx.msgId rc)]

/-- How a request fares: it is refused, maybe after the line was held, it is served at once,
or it holds the line. -/
inductive Served (ticket : Nat) (done : Option BreakDone) (m : BreakMachine) :
    Int → List Event → BreakMachine → Prop
  | refused (timer : Bool) : Served ticket done m (-1) [] { m with timer := timer }
  | refusedHeld {m' : BreakMachine} (pin : Bytes) (rc : Int) (hidle : m.state = .idle)
      (hidle' : m'.state = .idle) (hnext : m'.next = m.next)
      (hdone : m'.done = none ∨ m'.current = m.current ∧ m'.done = m.done) :
      Served ticket done m (-1) [.asserted ticket pin, .deasserted ticket pin rc] m'
  | atOnce {evs : List Event} (hidle : m.state = .idle) (hends : Ends ticket done evs) :
      Served ticket done m 0 evs { m with pin := ascii "break" }
  | held {m' : BreakMachine} (pin : Bytes) (hidle : m.state = .idle) (hnext : m'.next = m.next)
      (hdone : m'.done = done) :
      Served ticket done m 0 [.asserted ticket pin] (m'.holding ticket pin)

def asks (ticket : Nat) : Option BreakDone → List Event
  | some (.pin ctx) => [.asked (.pin ticket) ctx.asked]
  | _ => []

inductive Step : BreakMachine → List Event → BreakMachine → Prop
  | stay (m : BreakMachine) : Step m [] m
  | dropTimer (m : BreakMachine) : Step m [] { m with timer := false }
  | request {m m' : BreakMachine} (done : Option BreakDone) {rc : Int} {evs : List Event}
      (h : Served m.next done { m with next := m.next + 1 } rc evs m') :
      Step m (.requested m.next :: (asks m.next done ++
        (evs ++ [if rc = 0 then .accepted m.next done.isSome else .rejected m.next]))) m'
  | release {m : BreakMachine} (h : m.state = .asserted) (rc : Int) (rcs : List Int) :
      Step m ((rc :: rcs).map (.deasserted m.current m.pin)) { m with state := .delay }
  | finish {m : BreakMachine} {evs : List Event} (h : m.state = .asserted) (rc : Int)
      (rcs : List Int) (hends : Ends m.current m.done evs) :
      Step m ((rc :: rcs).map (.deasserted m.current m.pin) ++ evs) m.ended
  | follow {m : BreakMachine} {evs : List Event} (h : m.state = .delay)
      (hends : Ends m.current m.done evs) : Step m evs m.ended

end BreakMachine

abbrev BreakTells (e : Env ρ) (p : M ρ α) (R : α → List Event → BreakMachine → Prop)
    (m : BreakMachine) : Prop :=
  Reports (only .brk) Broker.brk e p R m

variable {ev : Event} {ticket : Nat} {e : Env ρ} {m m' : BreakMachine} {pin : Bytes}
  {R : Unit → List Event → BreakMachine → Prop} {T : Int → List Event → BreakMachine → Prop}
  {done : Option BreakDone} {evs : List Event}

theorem breakTells_moves {S : Sector → Bool} {p : M ρ α} {U : α → List Event → BreakMachine → Prop}
    (hS : S .brk = false) (hp : (moves S).Keeps p) (h : ∀ a, U a [] m) : BreakTells e p U m :=
  reports_moves (fun _ _ hstill => hstill.part .brk rfl) (apart_only hS) hp h

theorem breakTells_emit (hev : ev.sector = some .brk) (h : R () [ev] m) :
    BreakTells e (emit ev) R m := reports_emit (fun _ => rfl) (hev ▸ rfl) h

theorem breakTells_update {f : BreakMachine → BreakMachine} (h : R () [] (f m)) :
    BreakTells e (updateBreak f) R m := reports_modify (fun _ => rfl) fun _ hb => hb ▸ h

theorem breakTells_runDone {rc : Int} (h : ∀ evs, BreakMachine.Ends ticket done evs → R () evs m) :
    BreakTells e (runDone? ticket done rc) R m := by
  cases done with
  | none => exact tells_pure (h _ .silent)
  | some done =>
    refine tells_bind (breakTells_emit rfl ?_)
    cases done with
    | pin ctx =>
      refine tells_get fun b _ => ?_
      split
      · exact tells_pure (h _ (.told ..))
      · exact tells_bind (breakTells_emit rfl
          (breakTells_moves rfl (plain_sendToClient ..) fun _ => h _ (.answered ctx rc)))
    | mcpBreak | mcpReset =>
      exact breakTells_moves (S := only .calls) rfl (keeps_answerDone (fun _ h => h) nofun)
        fun _ => h _ (.told ..)

theorem breakTells_asked (h : R () (BreakMachine.asks ticket done) m) :
    BreakTells e (noteAsked ticket done) R m := by
  match done with
  | some (.pin ctx) => exact breakTells_emit rfl h
  | none | some (.mcpBreak ..) | some (.mcpReset ..) => exact tells_pure h

theorem breakTells_complete {rc : Int}
    (h : ∀ evs, BreakMachine.Ends m.current m.done evs → R () evs m.ended) :
    BreakTells e (breakComplete rc) R m := by
  refine tells_get ?_
  rintro b rfl
  exact tells_bind (breakTells_update (breakTells_runDone h))

theorem breakTells_deassert (h : ∀ rc, T rc [.deasserted ticket pin rc] m) :
    BreakTells e (deassert ticket pin) T m :=
  reports_callLinkAs (fun _ _ hstill => hstill.part .brk rfl) _ rfl (fun _ => rfl) (fun _ _ => rfl) h

theorem breakTells_release
    (h : ∀ rc again rcs, T rc ((again :: rcs).map (.deasserted ticket pin)) m) :
    BreakTells e (breakRelease ticket pin) T m :=
  tells_bind (breakTells_deassert fun rc => tells_ite
    (fun _ => breakTells_deassert fun rc' => h rc' rc [rc']) fun _ => tells_pure (h rc rc []))

theorem breakTells_timerEnsure {U : Bool → List Event → BreakMachine → Prop}
    (h : ∀ made timer, U made [] { m with timer := timer }) :
    BreakTells e breakTimerEnsure U m := by
  refine tells_get ?_
  rintro b rfl
  exact tells_ite (fun _ => tells_pure (h true b.brk.timer)) fun _ =>
    tells_bind (breakTells_moves rfl plain_timerEnsure fun made =>
      tells_bind (breakTells_update (tells_pure (h made made))))

theorem breakTells_holdLine {ms : Int} {start : BreakMachine → BreakMachine}
    (hheld : T 0 [] ((start m).holding ticket pin))
    (hfailed : ∀ rc, T (-1) [.deasserted ticket pin rc] ((start m).holding ticket pin).ended) :
    BreakTells e (holdLine ticket pin ms start) T m :=
  tells_bind (breakTells_update (tells_bind (breakTells_moves rfl (plain_ask _) fun _ => tells_ite
    (fun _ => tells_bind (breakTells_deassert fun rc =>
      tells_bind (breakTells_update (tells_pure (hfailed rc))))) fun _ => tells_pure hheld)))

theorem breakTells_followup {followup : Bytes}
    (h : ∀ evs, BreakMachine.Ends m.current m.done evs → R () evs m.ended) :
    BreakTells e (breakFollowup followup) R m :=
  tells_bind (breakTells_moves (S := only .wire) rfl (.yields (moves_brokerDoWrite rfl followup))
    fun _ => breakTells_complete h)

theorem breakTells_released {old : BreakMachine} {rc : Int}
    (hpause : R () [] { m with state := .delay })
    (hend : ∀ evs, BreakMachine.Ends m.current m.done evs → R () evs m.ended) :
    BreakTells e (breakReleased old rc) R m :=
  tells_ite (fun _ => tells_bind (breakTells_moves rfl (plain_breakPause _) fun _ =>
    tells_ite (fun _ => breakTells_update hpause) fun _ => breakTells_followup hend))
    fun _ => breakTells_complete hend

theorem breakTells_request (durationMs : Int) (followup : Bytes) (delayMs : Int) :
    BreakTells e (breakRequest durationMs followup delayMs done ticket)
      (BreakMachine.Served ticket done m) m := by
  refine tells_get ?_
  rintro b rfl
  refine tells_ite (fun _ => tells_pure (.refused _)) fun _ => tells_ite
    (fun _ => tells_pure (.refused _)) fun hbusy => tells_ite (fun _ => tells_pure (.refused _))
      fun _ => ?_
  have hidle : b.brk.state = .idle := not_not.mp hbusy
  have hcall : ∀ op : LinkOp, (moves (only .wire)).Keeps (callLink op : M ρ Int) :=
    fun op => moves_callLink op rfl
  refine tells_bind (breakTells_update (tells_bind (breakTells_moves rfl (hcall _) fun _ =>
    tells_ite (fun _ => ?_) fun _ => ?_)))
  · have hsend : (moves (only .wire)).Keeps (sendBreak (clampBreak durationMs) followup : M ρ Int) :=
      keeps_bind (hcall _) fun _ => keeps_if fun _ => .yields (moves_brokerDoWrite rfl followup)
    refine tells_bind (breakTells_moves rfl hsend fun _ =>
      tells_bind (breakTells_runDone fun evs hends => tells_pure ?_))
    rw [append_nil]
    exact .atOnce hidle hends
  · refine tells_bind (breakTells_emit rfl (tells_bind (breakTells_timerEnsure fun _ _ =>
      tells_ite (fun _ => breakTells_holdLine ?_ fun rc => ?_) fun _ =>
        tells_bind (breakTells_deassert fun rc => tells_pure ?_))))
    · exact .held _ hidle rfl rfl
    · exact .refusedHeld _ rc hidle rfl rfl (.inl rfl)
    · exact .refusedHeld _ rc hidle hidle rfl (.inr ⟨rfl, rfl⟩)

theorem breakTells_lineReset (pin : Bytes) (holdMs : Int) :
    BreakTells e (lineResetRequest pin holdMs done ticket)
      (BreakMachine.Served ticket done m) m := by
  refine tells_get ?_
  rintro b rfl
  refine tells_ite (fun _ => tells_pure (.refused _)) fun _ => tells_ite
    (fun _ => tells_pure (.refused _)) fun hbusy => tells_ite (fun _ => tells_pure (.refused _))
      fun _ => ?_
  have hidle : b.brk.state = .idle := not_not.mp hbusy
  have hcall : ∀ op : LinkOp, (moves (only .wire)).Keeps (callLink op : M ρ Int) :=
    fun op => moves_callLink op rfl
  refine tells_bind (breakTells_moves rfl (hcall _) fun _ =>
    tells_ite (fun _ => tells_pure (.refused _)) fun _ =>
      tells_bind (breakTells_timerEnsure fun _ timer => tells_ite (fun _ => ?_)
        fun _ => tells_pure (.refused timer)))
  refine tells_bind (breakTells_moves rfl (hcall _) fun _ =>
    tells_ite (fun _ => tells_pure (.refused timer)) fun _ =>
      tells_bind (breakTells_emit rfl (breakTells_holdLine ?_ fun rc => ?_)))
  · exact .held _ hidle rfl rfl
  · exact .refusedHeld _ rc hidle rfl rfl (.inl rfl)

theorem breakTells_ticketed {request : Nat → M ρ Int}
    (h : ∀ ticket m, BreakTells e (request ticket) (BreakMachine.Served ticket done m) m) :
    BreakTells e (ticketed done request) (fun _ => BreakMachine.Step m) m := by
  refine tells_get ?_
  rintro b rfl
  refine tells_bind (breakTells_update (tells_bind (breakTells_emit rfl (tells_bind
    (breakTells_asked (tells_bind ((h _ _).mono fun rc evs m' hserved => tells_bind
      (breakTells_emit ?_ (tells_pure (.request done hserved))))))))))
  split_ifs <;> rfl

theorem breakTells_cancel : BreakTells e breakCancel (fun _ => BreakMachine.Step m) m := by
  refine tells_get ?_
  rintro b rfl
  dsimp only
  split
  · exact tells_pure (.stay _)
  case h_2 hstate =>
    exact tells_bind (breakTells_deassert fun rc =>
      breakTells_complete fun _ => .finish hstate rc [])
  case h_3 hstate => exact breakTells_complete fun _ => .follow hstate

theorem breakTells_timer : BreakTells e handleBreakTimer (fun _ => BreakMachine.Step m) m := by
  refine tells_get ?_
  rintro b rfl
  dsimp only
  split
  case h_1 hstate =>
    refine tells_bind (breakTells_release fun _ again rcs =>
      breakTells_released ?_ fun _ => .finish hstate again rcs)
    rw [append_nil]
    exact .release hstate again rcs
  case h_2 hstate => exact breakTells_followup fun _ => .follow hstate
  · exact tells_pure (.stay _)

theorem breakStep_of_still {b b' : Broker ρ} (h : Still (only .brk) b b') :
    b'.about (only .brk) = b.about (only .brk) ++ [] ∧ BreakMachine.Step b.brk [] b'.brk := by
  have hsame : b'.brk = b.brk := h.part .brk rfl
  exact ⟨by rw [h.told, append_nil], hsame ▸ .stay b.brk⟩

theorem loopFrame_of_breakSteps {F : Frame (Broker ρ)}
    (hstep : ∀ (b b' : Broker ρ) evs, b'.about (only .brk) = b.about (only .brk) ++ evs →
      BreakMachine.Step b.brk evs b'.brk → F.rel b b') : LoopFrame e F := by
  have hstill : ∀ b b' : Broker ρ, Still (only .brk) b b' → F.rel b b' := fun b b' h =>
    hstep b b' [] (breakStep_of_still h).1 (breakStep_of_still h).2
  have htold : ∀ {α : Type} {p : M ρ α} (b : Broker ρ),
      BreakTells e p (fun _ => BreakMachine.Step b.brk) b.brk → F.rel b (p e b).2 := by
    intro α p b h
    obtain ⟨evs, htold, hmoved⟩ := h b rfl
    exact hstep _ _ evs htold hmoved
  refine loopFrame_of_still (T := only .brk) rfl rfl
    (fun b => hstill _ _ ((moves_replugged b).still (apart_only rfl))) hstill
    fun op b _ hapart _ => ?_
  cases op with
  | brk op =>
    cases op with
    | schedule durationMs followup delayMs done =>
      exact htold b (breakTells_ticketed fun _ _ => breakTells_request durationMs followup delayMs)
    | lineReset pin holdMs done =>
      exact htold b (breakTells_ticketed fun _ _ => breakTells_lineReset pin holdMs)
    | cancel => exact htold b breakTells_cancel
    | timer => exact htold b breakTells_timer
    | dropTimer => exact hstep _ _ [] (append_nil _).symm (.dropTimer b.brk)
  | _ => exact absurd (apart_of_all rfl) hapart

theorem break_runs_as_machine (e : Env ρ) (b : Broker ρ) (steps : List Step) :
    (running (only .brk) Broker.brk BreakMachine.Step).rel b (runSteps e b steps) := by
  refine (loopFrame_of_breakSteps fun b b' evs htold hstep => ?_).runSteps b steps
  exact .single ⟨evs, htold, hstep⟩

section Book

theorem entries_ends (h : BreakMachine.Ends ticket done evs) :
    evs.filterMap Event.entry = callbackOf ticket done.isSome := by
  cases h <;> rfl

theorem entries_asks (ticket : Nat) (done : Option BreakDone) :
    (BreakMachine.asks ticket done).filterMap Event.entry = [] := by
  unfold BreakMachine.asks
  split <;> rfl

theorem entries_released (ticket : Nat) (pin : Bytes) (rcs : List Int) :
    (rcs.map (Event.deasserted ticket pin)).filterMap Event.entry =
      List.replicate rcs.length (.released ticket pin) := by
  induction rcs with
  | nil => rfl
  | cons rc rcs ih => exact congrArg (Entry.released ticket pin :: ·) ih

theorem phase_idle_of (h : m.state = .idle) : m.phase = .idle := by rw [BreakMachine.phase, h]

theorem phase_asserted (h : m.state = .asserted) :
    m.phase = .holding m.current m.pin m.done.isSome := by
  rw [BreakMachine.phase, h]

theorem phase_delay (h : m.state = .delay) : m.phase = .pausing m.current m.done.isSome := by
  rw [BreakMachine.phase, h]

variable (pre : List (Entry Bytes))

theorem outcome_served {rc : Int} (h : BreakMachine.Served ticket done m rc evs m') :
    Book.Outcome ticket done.isSome ⟨m.phase, m.next, pre⟩ rc
      ⟨m'.phase, m'.next, pre ++ evs.filterMap Event.entry⟩ := by
  cases h with
  | refused timer =>
    rw [filterMap_nil, append_nil]
    exact .refused _
  | refusedHeld pin rc hidle hidle' hnext hdone =>
    rw [phase_idle_of hidle, phase_idle_of hidle', hnext]
    exact .refusedHeld ..
  | atOnce hidle hends =>
    rw [phase_idle_of hidle, phase_idle_of (m := { m with pin := ascii "break" }) hidle,
      entries_ends hends]
    exact .atOnce ..
  | held pin hidle hnext hdone =>
    rw [phase_idle_of hidle, ← hnext, ← hdone]
    exact .held ..

theorem steps_of_step (h : BreakMachine.Step m evs m') :
    Relation.ReflTransGen Book.Step ⟨m.phase, m.next, pre⟩
      ⟨m'.phase, m'.next, pre ++ evs.filterMap Event.entry⟩ := by
  cases h with
  | stay | dropTimer => exact (append_nil pre).symm ▸ .refl
  | request done h =>
    have hstep : Book.Step ⟨m.phase, m.next, pre⟩ _ :=
      Book.Outcome.step (outcome_served (pre ++ [.requested m.next]) h)
    refine .single ?_
    split_ifs at hstep ⊢
    · simpa [Event.entry, entries_asks] using hstep
    · simpa [Event.entry, entries_asks] using hstep
  | release h rc rcs =>
    rw [phase_asserted h, entries_released]
    exact .single (.release ..)
  | finish h rc rcs hends =>
    rw [phase_asserted h, filterMap_append, entries_released, entries_ends hends]
    exact Book.steps_end ..
  | follow h hends =>
    rw [phase_delay h, entries_ends hends]
    exact .single (.finish ..)

end Book

def booked : Frame (Broker ρ) where
  rel b b' := Relation.ReflTransGen Book.Step b.book b'.book
  refl _ := .refl
  trans := .trans

theorem booked_of_step {b b' : Broker ρ} (htold : b'.about (only .brk) = b.about (only .brk) ++ evs)
    (h : BreakMachine.Step b.brk evs b'.brk) : booked.rel b b' := by
  have hentries : b'.entries = b.entries ++ evs.filterMap Event.entry := by
    refine read_append (fun ev hev => ?_) htold
    cases ev with
    | requested | asserted | deasserted | accepted | rejected | callback => cases hev
    | _ => rfl
  change Relation.ReflTransGen Book.Step b.book b'.book
  rw [Broker.book, Broker.book, hentries]
  exact steps_of_step _ h

theorem loopFrame_booked (e : Env ρ) : LoopFrame e booked :=
  loopFrame_of_breakSteps fun _ _ _ => booked_of_step

variable (e : Env ρ)

def runLife (e : Env ρ) (b : Broker ρ) (steps : List Step) (destroyed : Bool) : Broker ρ :=
  if destroyed then (brokerDestroy e (runSteps e b steps)).2 else runSteps e b steps

theorem LoopFrame.runLife {F : Frame (Broker ρ)} {e : Env ρ} (hF : LoopFrame e F)
    (hmoves : ∀ b b' : Broker ρ, (moves fun s => s == .wire || s == .boot).rel b b' → F.rel b b')
    (hclear : ∀ b : Broker ρ, F.rel b
      { b with clients := [], historyPending := History.historyPendingClear })
    (b : Broker ρ) (steps : List Step) (destroyed : Bool) :
    F.rel b (runLife e b steps destroyed) := by
  have hrun := hF.runSteps b steps
  cases destroyed with
  | false => exact hrun
  | true => exact F.trans hrun ((hF.brokerDestroy hmoves hclear).rel _)

theorem balanced_runLife (regex : Regex ρ) (cfg : Config) (steps : List Step) (destroyed : Bool) :
    (runLife e (brokerInit regex cfg) steps destroyed).book.Balanced := by
  refine Book.balanced_empty.run ((loopFrame_booked e).runLife (fun b b' h => ?_) (fun _ => .refl)
    (brokerInit regex cfg) steps destroyed)
  obtain ⟨htold, hstep⟩ := breakStep_of_still (h.still (apart_only rfl))
  exact booked_of_step htold hstep

def Event.acceptsCallback : Event → Bool
  | .accepted _ calls => calls
  | _ => false

def Event.isCallback : Event → Bool
  | .callback .. => true
  | _ => false

section Transfer

variable {b : Broker ρ}

theorem countP_entries (p : Entry Bytes → Bool) (q : Event → Bool)
    (h : ∀ ev, q ev = ev.entry.any p) : b.entries.countP p = b.trace.countP q := by
  rw [Broker.entries, countP_filterMap]
  refine countP_congr fun ev _ => ?_
  rw [h ev]
  cases ev.entry with
  | none => simp
  | some en => simp

theorem mem_entries {en : Entry Bytes} (hev : ev ∈ b.trace) (h : ev.entry = some en) :
    en ∈ b.entries := mem_filterMap.mpr ⟨ev, hev, h⟩

theorem eq_deasserted {ticket : Nat} (h : ev.entry = some (.released ticket pin)) : ∃ rc, ev = .deasserted ticket pin rc := by
  cases ev with
  | deasserted t p rc =>
    cases h
    exact ⟨rc, rfl⟩
  | requested | asserted | accepted | rejected | callback => cases h
  | _ => cases h

theorem owed_phase (m : BreakMachine) :
    m.phase.owed (fun _ => true) = if m.state ≠ .idle ∧ m.done.isSome then 1 else 0 := by
  cases hstate : m.state with
  | idle => simp [BreakMachine.phase, hstate, Phase.owed]
  | asserted => simp [BreakMachine.phase, hstate, Phase.owed]
  | delay => simp [BreakMachine.phase, hstate, Phase.owed]

end Transfer

/-- Between the events of any run, and after the end of it: accepted requests with
a callback are those that have called back and the one in progress; a rejected
request does not call back; and a line that a request asserted is released before
it calls back and before another request is accepted. -/
theorem break_requests_balanced (e : Env ρ) (regex : Regex ρ) (cfg : Config) (steps : List Step)
    (destroyed : Bool) :
    let b := runLife e (brokerInit regex cfg) steps destroyed
    b.trace.countP Event.acceptsCallback = b.trace.countP Event.isCallback +
        (if b.brk.state ≠ .idle ∧ b.brk.done.isSome = true then 1 else 0) ∧
      (∀ t rc, .rejected t ∈ b.trace → .callback t rc ∉ b.trace) ∧
      ∀ pre mid post t pin ev, b.trace = pre ++ .asserted t pin :: (mid ++ ev :: post) →
        ((∃ rc, ev = .callback t rc) ∨ ∃ u calls, ev = .accepted u calls ∧ u ≠ t) →
          ∃ rc, .deasserted t pin rc ∈ mid := by
  intro b
  have hbalanced : b.book.Balanced := balanced_runLife e regex cfg steps destroyed
  refine ⟨?_, fun t rc hrej hcall => ?_, fun pre mid post t pin ev hsplit hev => ?_⟩
  · have hcount : b.entries.countP Entry.isAccepted = b.entries.countP Entry.isCallback +
        b.brk.phase.owed fun _ => true := by
      have hall := hbalanced.count fun _ => true
      simp only [Bool.and_true] at hall
      exact hall
    rw [owed_phase, countP_entries _ Event.acceptsCallback fun ev => by cases ev <;> rfl,
      countP_entries _ Event.isCallback fun ev => by cases ev <;> rfl] at hcount
    exact hcount
  · exact hbalanced.apart t (mem_entries hrej rfl) (mem_entries hcall rfl)
  · obtain ⟨en, hen, hentry⟩ : ∃ en, ev.entry = some en ∧
        (en = .callback t ∨ ∃ u calls, en = .accepted u calls ∧ u ≠ t) := by
      cases hev with
      | inl hcall =>
        obtain ⟨rc, rfl⟩ := hcall
        exact ⟨.callback t, rfl, .inl rfl⟩
      | inr haccepted =>
        obtain ⟨u, calls, rfl, hne⟩ := haccepted
        exact ⟨.accepted u calls, rfl, .inr ⟨u, calls, rfl, hne⟩⟩
    have hentries : b.book.entries = pre.filterMap Event.entry ++
        .asserted t pin :: (mid.filterMap Event.entry ++ en :: post.filterMap Event.entry) := by
      have hasserted : (Event.asserted t pin).entry = some (.asserted t pin) := rfl
      change b.trace.filterMap Event.entry = _
      simp only [hsplit, filterMap_append, filterMap_cons_some hasserted,
        filterMap_cons_some hen]
    have hreleased := hbalanced.released_before hentries hentry
    obtain ⟨ev', hmem, hev'⟩ := mem_filterMap.mp hreleased
    obtain ⟨rc, rfl⟩ := eq_deasserted hev'
    exact ⟨rc, hmem⟩

def breakMsg : Msg :=
  ⟨.pinControl, some (.obj [("pin", .str (ascii "break")), ("action", .str (ascii "set"))])⟩

def breakSteps : List Step :=
  [.event (.listen (plainReg 1)), .message 1 (helloMsg "a" []), .message 1 breakMsg,
    .message 1 breakMsg, .event .breakTimer]

theorem break_requests_balanced_twice :
    let b := runLife plainEnv (plainInit []) breakSteps false
    b.trace.countP Event.acceptsCallback = 1 ∧ b.brk.state = .idle ∧
      b.trace.countP Event.isCallback = 1 := by
  intro b
  have haccepted : b.trace.countP Event.acceptsCallback = 1 := by decide +kernel
  have hidle : b.brk.state = .idle := by decide +kernel
  have hcount := (break_requests_balanced plainEnv plainEnv.regex (plainConfig []) breakSteps
    false).1
  refine ⟨haccepted, hidle, ?_⟩
  change b.trace.countP Event.acceptsCallback = b.trace.countP Event.isCallback + _ at hcount
  rw [haccepted, if_neg fun h => h.1 hidle] at hcount
  exact hcount.symm

end Smolmux.Broker
