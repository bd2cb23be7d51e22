import Smolmux.Broker.BreakLedger
import Smolmux.Broker.FloodMachine

/-! The autoboot flood keeps a balanced book like the BREAK machine: a flood that
holds a reset line lets go of it, and every flood that was accepted is reported
once. The one way out is a shutdown that cuts a flood off. -/

namespace Smolmux.Broker
open Protocol Smolmux.Frame List

variable {ρ : Type}

/-- What an event tells about floods. The line is the pin together with the value
that releases it. -/
def Event.floodEntry : Event → Option (Entry (Bytes × Bytes))
  | .flood (.requested t _) => some (.requested t)
  | .flood (.asserted t pin release) => some (.asserted t (pin, release))
  | .flood (.released t pin value _) => some (.released t (pin, value))
  | .flood (.accepted t) => some (.accepted t true)
  | .flood (.rejected t) => some (.rejected t)
  | .flood (.result t _) => some (.callback t)
  | _ => none

def Flood.phase (fl : Flood ρ) : Phase (Bytes × Bytes) :=
  if fl.active then
    if fl.resetPending then .holding fl.current (fl.resetPin, fl.resetDeassert) true
    else .pausing fl.current true
  else .idle

def floodEntries (b : Broker ρ) : List (Entry (Bytes × Bytes)) :=
  b.trace.filterMap Event.floodEntry

def floodBook (b : Broker ρ) : Book (Bytes × Bytes) :=
  ⟨b.flood.phase, b.flood.next, b.floodEntries⟩

variable {ev : Event} (e : Env ρ)

section Steps

variable {regex : Regex ρ} {fl fl' : Flood ρ} {evs : List Event}
  (pre : List (Entry (Bytes × Bytes)))

theorem phase_idle (h : fl.active = false) : fl.phase = .idle := by simp [Flood.phase, h]

theorem phase_holding (hactive : fl.active) (hpending : fl.resetPending) :
    fl.phase = .holding fl.current (fl.resetPin, fl.resetDeassert) true := by
  simp [Flood.phase, hactive, hpending]

theorem phase_pausing (hactive : fl.active) (hpending : fl.resetPending = false) :
    fl.phase = .pausing fl.current true := by simp [Flood.phase, hactive, hpending]

theorem steps_ended (hactive : fl.active) (rc : Int) (hcurrent : fl'.current = fl.current)
    (isMatched : Bool) (reason : String) (now : Rat) :
    Relation.ReflTransGen Book.Step ⟨fl.phase, fl.next, pre⟩ ⟨.idle, fl.next, pre ++
      (fl.releases rc ++ fl'.reports isMatched reason now).filterMap Event.floodEntry⟩ := by
  rw [Flood.reports, hcurrent]
  cases hpending : fl.resetPending with
  | false =>
    rw [phase_pausing hactive hpending, Flood.releases, hpending]
    exact .single (.finish ..)
  | true =>
    rw [phase_holding hactive hpending, Flood.releases, if_pos hpending]
    exact Book.steps_end _ _ true _ _ 0

theorem outcome_requested {r : FloodRequest} {ticket : Nat} {rc : Int}
    (h : Flood.Requested regex r ticket fl rc evs fl') :
    Book.Outcome ticket true ⟨fl.phase, fl.next, pre⟩ rc
      ⟨fl'.phase, fl'.next, pre ++ evs.filterMap Event.floodEntry⟩ := by
  cases h with
  | refused timer =>
    rw [filterMap_nil, append_nil]
    exact .refused _
  | failed hidle hactive hkept =>
    rw [phase_idle hidle, phase_idle hactive, hkept.2.1, filterMap_nil, append_nil]
    exact .refused _
  | failedHeld pin value rc hidle hactive hkept =>
    rw [phase_idle hidle, phase_idle hactive, hkept.2.1]
    exact .refusedHeld ..
  | begun hidle hcompile hactive hseek hkey hid hevs =>
    obtain ⟨-, rfl, hnext⟩ := hkey
    cases hpending : fl'.resetPending with
    | false =>
      rw [hevs, hpending, phase_idle hidle, phase_pausing hactive hpending, hnext]
      simpa using Book.Outcome.begun ..
    | true =>
      rw [hevs, if_pos hpending, phase_idle hidle, phase_holding hactive hpending, hnext]
      exact .held ..

theorem steps_flood (h : Flood.Step regex fl evs fl') :
    Relation.ReflTransGen Book.Step ⟨fl.phase, fl.next, pre⟩
      ⟨fl'.phase, fl'.next, pre ++ evs.filterMap Event.floodEntry⟩ := by
  cases h with
  | count | skip | feed => exact (append_nil pre).symm ▸ .refl
  | release rc hactive =>
    cases hpending : fl.resetPending with
    | false =>
      rw [Flood.letGo_eq_self hpending, Flood.releases, hpending]
      exact (append_nil pre).symm ▸ .refl
    | true =>
      have hphase : fl.letGo.phase = .pausing fl.current true := phase_pausing hactive rfl
      rw [phase_holding hactive hpending, hphase, Flood.releases, if_pos hpending]
      exact .single (.release _ _ _ _ _ 0)
  | finish rc hactive => exact steps_ended pre hactive rc rfl ..
  | hit rc hactive hbuf hfinds => exact steps_ended pre hactive rc rfl ..
  | request r h =>
    have hstep : Book.Step ⟨fl.phase, fl.next, pre⟩ _ :=
      Book.Outcome.step (outcome_requested (pre ++ [.requested fl.next]) h)
    refine .single ?_
    change Book.Step _ ⟨_, _, pre ++ .requested fl.next :: (_ ++ _ : List Event).filterMap _⟩
    split_ifs at hstep ⊢
    · simpa [Event.floodEntry] using hstep
    · simpa [Event.floodEntry] using hstep

end Steps

def flooded : Frame (Broker ρ) where
  rel b b' := Relation.ReflTransGen Book.Step b.floodBook b'.floodBook
  refl _ := .refl
  trans := .trans

theorem flooded_of_told {b b' : Broker ρ} {evs : List Event}
    (htold : b'.about (only .flood) = b.about (only .flood) ++ evs)
    (h : Relation.ReflTransGen Book.Step b.floodBook
      ⟨b'.flood.phase, b'.flood.next, b.floodEntries ++ evs.filterMap Event.floodEntry⟩) :
    flooded.rel b b' := by
  have hentries : b'.floodEntries = b.floodEntries ++ evs.filterMap Event.floodEntry := by
    refine read_append (fun ev hev => ?_) htold
    cases ev with
    | flood note => cases hev
    | _ => rfl
  change Relation.ReflTransGen Book.Step b.floodBook b'.floodBook
  rw [Broker.floodBook, Broker.floodBook, hentries]
  exact h

theorem flooded_of_same {b b' : Broker ρ} (htold : b'.about (only .flood) = b.about (only .flood))
    (hphase : b'.flood.phase = b.flood.phase) (hnext : b'.flood.next = b.flood.next) :
    flooded.rel b b' := by
  refine flooded_of_told (htold.trans (append_nil _).symm) ?_
  rw [hphase, hnext, filterMap_nil, append_nil]
  exact .refl

theorem flooded_of_still {b b' : Broker ρ} (h : Still (only .flood) b b') : flooded.rel b b' := by
  have hflood : b'.flood = b.flood := h.part .flood rfl
  exact flooded_of_same h.told (hflood ▸ rfl) (hflood ▸ rfl)

theorem turnFrame_flooded : TurnFrame e flooded :=
  turnFrame_of_steps (fun _ _ _ htold h => flooded_of_told htold (steps_flood _ h))
    fun _ _ htold hflood => flooded_of_same htold (hflood ▸ rfl) (hflood ▸ rfl)

def Step.endsIdle (b : Broker ρ) : Step → Bool
  | .shutdown => !b.flood.active
  | _ => true

def endsIdle (e : Env ρ) : Broker ρ → List Step → Bool
  | _, [] => true
  | b, s :: steps => s.endsIdle b && endsIdle e (step s e b).2 steps

theorem flooded_step {e : Env ρ} {b : Broker ρ} {s : Step} (h : s.endsIdle b) :
    flooded.rel b (step s e b).2 := by
  by_cases hs : s = .shutdown
  · subst hs
    refine (turnFrame_flooded e).shutdown b fun b' hflood => ?_
    have hidle : b'.flood.active = false := by
      rw [hflood]
      simpa [Step.endsIdle] using h
    exact flooded_of_same rfl ((phase_idle rfl).trans (phase_idle hidle).symm) rfl
  · by_cases hs' : s = .replug
    · subst hs'
      exact flooded_of_still ((moves_replugged b).still (apart_of_all rfl))
    · exact ((turnFrame_flooded e).step hs hs').rel b

theorem flooded_runSteps {e : Env ρ} (steps : List Step) {b : Broker ρ}
    (h : endsIdle e b steps) : flooded.rel b (runSteps e b steps) := by
  induction steps generalizing b with
  | nil => exact flooded.refl b
  | cons s steps ih =>
    simp only [endsIdle, Bool.and_eq_true] at h
    exact flooded.trans (flooded_step h.1) (ih h.2)

theorem balanced_floodBook {e : Env ρ} {regex : Regex ρ} {cfg : Config} {steps : List Step}
    (h : endsIdle e (brokerInit regex cfg) steps) (destroyed : Bool) :
    (runLife e (brokerInit regex cfg) steps destroyed).floodBook.Balanced := by
  have hrun := flooded_runSteps steps h
  have hinit : (brokerInit regex cfg).floodBook.Balanced := Book.balanced_empty
  cases destroyed with
  | false => exact hinit.run hrun
  | true =>
    have hdown : flooded.KeepsAt e (brokerDestroy : M ρ Unit) := (turnFrame_flooded e).brokerDestroy
      (fun b b' h => flooded_of_still (h.still (apart_of_all rfl))) fun _ => .refl
    exact hinit.run (flooded.trans hrun (hdown.rel _))

section Deadline

variable {b : Broker ρ}

theorem floodFinish_inactive (reason : String) (e : Env ρ) (b : Broker ρ) :
    (floodFinish isMatched reason e b).2.flood.active = false := by
  have hends : FloodTells e (floodFinish isMatched reason) (fun _ _ fl => fl.active = false)
      b.flood := floodTells_finish id fun _ _ _ => rfl
  obtain ⟨notes, -, h⟩ := hends b rfl
  exact h

theorem floodReleaseReset_queries (b : Broker ρ) :
    b.queries ≤ (floodReleaseReset e b).2.queries := by
  cases hpending : b.flood.resetPending with
  | false => simp [floodReleaseReset, hpending]
  | true =>
    simp [floodReleaseReset, hpending, floodDeassert, callLinkAs, ask, updateFlood, emit,
      Broker.noted, Broker.afterLink]

theorem handleFloodTimer_late {e : Env ρ}
    (hlate : ∀ n, b.queries ≤ n → b.flood.deadline ≤ e.mono n) :
    (handleFloodTimer e b).2.flood.active = false := by
  rw [handleFloodTimer, Proc.bind_apply, Proc.get_apply]
  refine ite_cases (Q := fun r : Unit × Broker ρ => r.2.flood.active = false) (fun _ => ?_)
    fun h => ?_
  · have hclock : ∀ b' : Broker ρ, b.queries ≤ b'.queries →
        b.flood.deadline ≤ (nowMonotonic e b').1 := fun b' hle => hlate b'.queries hle
    have hnow : b.queries ≤
        ((if b.flood.resetPending then nowMonotonic else pure 0 : M ρ Rat) e b).2.queries :=
      ite_cases (Q := fun r : Rat × Broker ρ => b.queries ≤ r.2.queries)
        (fun _ => Nat.le_succ _) fun _ => Nat.le_refl _
    refine ite_cases (Q := fun r : Unit × Broker ρ => r.2.flood.active = false)
      (fun _ => floodFinish_inactive ..) fun hearly => absurd (hclock _ ?_) hearly
    exact ite_cases (Q := fun r : Unit × Broker ρ => b.queries ≤ r.2.queries)
      (fun _ => hnow.trans (floodReleaseReset_queries e _)) fun _ => hnow
  · simpa using h

end Deadline

def Event.isFloodResult (t : Nat) : Event → Bool
  | .flood (.result u _) => u == t
  | _ => false

section Transfer

variable {b : Broker ρ}

theorem mem_floodEntries {en : Entry (Bytes × Bytes)} (hev : ev ∈ b.trace)
    (h : ev.floodEntry = some en) : en ∈ b.floodEntries := mem_filterMap.mpr ⟨ev, hev, h⟩

theorem owed_floodPhase (fl : Flood ρ) (t : Nat) :
    fl.phase.owed (· == t) = if fl.active ∧ fl.current = t then 1 else 0 := by
  cases hactive : fl.active with
  | false => simp [Flood.phase, hactive, Phase.owed]
  | true =>
    cases hpending : fl.resetPending with
    | false => simp [Flood.phase, hactive, hpending, Phase.owed]
    | true => simp [Flood.phase, hactive, hpending, Phase.owed]

theorem countP_floodResult (b : Broker ρ) (t : Nat) :
    b.floodEntries.countP (fun en => en.isCallback && en.ticket == t) =
      b.trace.countP (Event.isFloodResult t) := by
  rw [Broker.floodEntries, countP_filterMap]
  refine countP_congr fun ev _ => ?_
  cases ev with
  | flood note =>
    cases note with
    | _ => simp [Event.floodEntry, Event.isFloodResult, Entry.isCallback, Entry.ticket]
  | _ => simp [Event.floodEntry, Event.isFloodResult]

end Transfer

theorem eq_floodReleased {t : Nat} {pin value : Bytes}
    (h : ev.floodEntry = some (.released t (pin, value))) :
    ∃ rc, ev = .flood (.released t pin value rc) := by
  cases ev with
  | flood note =>
    cases note with
    | released u p v rc =>
      cases h
      exact ⟨rc, rfl⟩
    | _ => cases h
  | _ => cases h

/-- In every run in which no shutdown cuts a flood off: when no flood is active,
every reset line that one has asserted has been let go of since; every accepted
flood has been reported once, unless it is still running; and the timer ends one
that is late. -/
theorem flood_reset_released (e : Env ρ) (regex : Regex ρ) (cfg : Config) (steps : List Step)
    (destroyed : Bool) (hidle : endsIdle e (brokerInit regex cfg) steps = true) :
    let b := runLife e (brokerInit regex cfg) steps destroyed
    (b.flood.active = false → ∀ pre post t pin value,
        b.trace = pre ++ .flood (.asserted t pin value) :: post →
          ∃ rc, .flood (.released t pin value rc) ∈ post) ∧
      (∀ t, .flood (.accepted t) ∈ b.trace → b.trace.countP (Event.isFloodResult t) =
        if b.flood.active = true ∧ b.flood.current = t then 0 else 1) ∧
      ((∀ n, b.queries ≤ n → b.flood.deadline ≤ e.mono n) →
        (handleEvent .floodTimer e b).2.flood.active = false) := by
  intro b
  have hbalanced : b.floodBook.Balanced := balanced_floodBook hidle destroyed
  refine ⟨fun hactive pre post t pin value hsplit => ?_, fun t ht => ?_, fun hlate => ?_⟩
  · have hasserted : (Event.flood (.asserted t pin value)).floodEntry =
        some (.asserted t (pin, value)) := rfl
    have hentries : b.floodBook.entries = pre.filterMap Event.floodEntry ++
        .asserted t (pin, value) :: post.filterMap Event.floodEntry := by
      change b.trace.filterMap Event.floodEntry = _
      rw [hsplit, filterMap_append, filterMap_cons_some hasserted]
    have hheld : b.floodBook.phase.held = none := by
      change b.flood.phase.held = none
      rw [phase_idle hactive]
      rfl
    obtain ⟨ev, hmem, hev⟩ := mem_filterMap.mp (hbalanced.released_after hheld hentries)
    obtain ⟨rc, rfl⟩ := eq_floodReleased hev
    exact ⟨rc, hmem⟩
  · have honce := hbalanced.callback_once (mem_floodEntries ht rfl)
    have howed : b.floodBook.phase.owed (· == t) =
        if b.flood.active = true ∧ b.flood.current = t then 1 else 0 := owed_floodPhase b.flood t
    have hcount : b.floodBook.entries.countP (fun en => en.isCallback && en.ticket == t) =
        b.trace.countP (Event.isFloodResult t) := countP_floodResult b t
    rw [howed, hcount] at honce
    split_ifs at honce ⊢
    · omega
    · omega
  · exact handleFloodTimer_late hlate

def resetFloodMsg : Msg := ⟨.interruptAutoboot, some (.obj [("reset_pin", .str (ascii "dtr"))])⟩

def floodSteps (more : List Step) : List Step :=
  [.event (.listen (plainReg 1)), .message 1 (helloMsg "a" []), .message 1 resetFloodMsg] ++ more

theorem accepted_of_mem {b : Broker ρ} {t : Nat} {calls : Bool}
    (h : .accepted t calls ∈ b.floodEntries) : .flood (.accepted t) ∈ b.trace := by
  obtain ⟨ev, hmem, hev⟩ := mem_filterMap.mp h
  cases ev with
  | flood note =>
    cases note with
    | accepted u =>
      cases hev
      exact hmem
    | _ => cases hev
  | _ => cases hev

theorem flood_reset_released_suspended :
    let steps := floodSteps [.message 1 ⟨.suspend, none⟩, .shutdown]
    let b := runLife plainEnv (plainInit []) steps true
    endsIdle plainEnv (plainInit []) steps = true ∧ .flood (.accepted 0) ∈ b.trace ∧
      b.trace.countP (Event.isFloodResult 0) = 1 := by
  intro steps b
  have hidle : endsIdle plainEnv (plainInit []) steps = true := by decide +kernel
  have haccepted : .accepted 0 true ∈ b.floodEntries := by decide +kernel
  have hactive : b.flood.active = false := by decide +kernel
  have honce := (flood_reset_released plainEnv plainEnv.regex (plainConfig []) steps true hidle).2.1 0
    (accepted_of_mem haccepted)
  refine ⟨hidle, accepted_of_mem haccepted, honce.trans (if_neg fun h => ?_)⟩
  exact Bool.false_ne_true (hactive.symm.trans h.1)

/-- A shutdown while the flood holds the line: the broker ends, and the line is not
let go of and no result is told. -/
theorem flood_cut_off :
    let b := runLife plainEnv (plainInit []) (floodSteps [.shutdown]) true
    b.flood.active = false ∧ b.floodEntries =
      [.requested 0, .asserted 0 (ascii "dtr", ascii "set"), .accepted 0 true] := by
  decide +kernel

end Smolmux.Broker
