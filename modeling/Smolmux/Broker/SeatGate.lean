import Smolmux.Broker.Suspension

/-! A device that goes by a weak name is known by the seat it was first opened in.
The link comes up again only while the name resolves to that seat, and the seat on
record stays what it was. -/

namespace Smolmux.Broker
open Smolmux.Frame List

variable {ρ : Type}

def Event.seated (seat : Nat → Option Bytes) (home : Bytes) : Event → Prop
  | .linkUp now => home ≠ [] ∧ (∃ n, now = seat n) ∧ stored 256 (now.getD []) = home
  | _ => True

def Stage.identity (st : Stage) : Bool × Bytes × Bytes × Nat :=
  (st.identityWeakById, st.port, st.identityByPath, st.epoch)

theorem blocks_of_identity {st st' : Stage} (h : st'.identity = st.identity)
    (seat : Nat → Option Bytes) : st'.blocks seat = st.blocks seat := by
  simp only [Stage.identity, Prod.mk.injEq] at h
  obtain ⟨hweak, hport, hpath, hepoch⟩ := h
  rw [Stage.blocks, hweak, hport, hpath, hepoch, Stage.blocks]

namespace Line

variable {kind : LinkKind} {seat : Nat → Option Bytes} {l m : Line} {evs : List Event} {home : Bytes}

/-- The device has a weak name and its seat is on record; a connect that is under way
has passed the gate. -/
structure Gated (seat : Nat → Option Bytes) (home : Bytes) (l : Line) : Prop where
  weak : l.stage.identityWeakById = true
  port : l.stage.port ≠ []
  record : l.stage.identityByPath = home
  passed : l.stage.linkConnecting = true → l.stage.blocks seat = false

theorem Gated.seated (hl : l.Gated seat home) (hgate : l.stage.blocks seat = false) :
    home ≠ [] ∧ stored 256 ((seat l.stage.epoch).getD []) = home := by
  have hheld : ¬(l.stage.identityWeakById = false ∨ l.stage.port = []) := by
    simp [hl.weak, hl.port]
  rw [Stage.blocks, decide_eq_true hheld, Bool.true_and, hl.record] at hgate
  simp only [identityRefuseWeakSeatChange, Bool.true_and, Bool.or_eq_false_iff,
    decide_eq_false_iff_not, not_not] at hgate
  exact ⟨hgate.1.1, hgate.2.symm⟩

theorem Gated.identity_up (hl : l.Gated seat home) (hgate : l.stage.blocks seat = false) :
    (l.stage.up seat).identity = l.stage.identity := by
  have hseat := (hl.seated hgate).2
  unfold Stage.up Stage.recorded
  rw [if_neg hl.port]
  cases hnow : seat l.stage.epoch with
  | none => simp [Stage.identity]
  | some now =>
    rw [hnow] at hseat
    have hpath : stored 256 now = l.stage.identityByPath := hseat.trans hl.record.symm
    simp [Stage.identity, hpath]

theorem Gated.keep (hl : l.Gated seat home) (hidentity : m.stage.identity = l.stage.identity)
    (hconnect : m.stage.linkConnecting →
      l.stage.linkConnecting ∨ l.stage.blocks seat = false) : m.Gated seat home := by
  have hblocks := blocks_of_identity hidentity seat
  simp only [Stage.identity, Prod.mk.injEq] at hidentity
  obtain ⟨hweak, hport, hpath, -⟩ := hidentity
  refine ⟨hweak.trans hl.weak, hport ▸ hl.port, hpath.trans hl.record, fun hm => ?_⟩
  rw [hblocks]
  exact (hconnect hm).elim hl.passed id

theorem seated_answer (seat : Nat → Option Bytes) (st : Stage) :
    ∀ ev ∈ st.answer, ev.seated seat home := by
  unfold Stage.answer
  split
  · simp [Event.seated]
  · simp

theorem seated_failure (seat : Nat → Option Bytes) (st : Stage) :
    ∀ ev ∈ st.failure, ev.seated seat home := by
  unfold Stage.failure
  split
  · simp [Event.seated]
  · simp

theorem identity_gaveUp (st : Stage) : st.gaveUp.identity = st.identity := by
  unfold Stage.gaveUp
  split <;> rfl

theorem linkConnecting_up (seat : Nat → Option Bytes) (st : Stage) :
    (st.up seat).linkConnecting = false := by
  unfold Stage.up Stage.recorded
  split <;> rfl

theorem Step.gated (h : Step kind seat l evs m) (hl : l.Gated seat home) :
    m.Gated seat home ∧ ∀ ev ∈ evs, ev.seated seat home := by
  have hdown : ∀ st : Stage, ¬(st.up seat).linkConnecting := fun st => by
    simp [linkConnecting_up]
  have hup : l.stage.blocks seat = false →
      Event.seated seat home (.linkUp (seat l.stage.epoch)) := fun hgate =>
        ⟨(hl.seated hgate).1, ⟨_, rfl⟩, (hl.seated hgate).2⟩
  cases h with
  | minor op rc fds queued _ hop hevs =>
    refine ⟨hl.keep rfl .inl, ?_⟩
    obtain rfl | rfl := hevs
    · simp
    · simp [Event.seated]
  | write | flush | lost | name | refuse | resumeFail | reconnectFail | poll =>
    exact ⟨hl.keep rfl .inl, by simp [Event.seated]⟩
  | suspend => exact ⟨hl.keep rfl nofun, by simp [Event.seated]⟩
  | resumeLater fds queued deadline hsuspended hgate =>
    exact ⟨hl.keep rfl fun _ => .inr hgate, by simp [Event.seated]⟩
  | reconnectLater fds queued deadline hsuspended hidle hlost hgate =>
    exact ⟨hl.keep rfl fun _ => .inr hgate, by simp [Event.seated]⟩
  | resumeNow rc fds queued hsuspended hgate =>
    have hlive : Gated seat home ⟨{ l.stage with suspended := false }, l.link⟩ := hl.keep rfl .inl
    refine ⟨hl.keep (hlive.identity_up hgate) fun h => absurd h (hdown _), ?_⟩
    simpa [Event.seated] using hup hgate
  | reconnectUp fds queued hsuspended hidle hlost hgate =>
    refine ⟨hl.keep (hl.identity_up hgate) fun h => absurd h (hdown _), ?_⟩
    exact forall_mem_cons.mpr ⟨trivial,
      forall_mem_cons.mpr ⟨hup hgate, seated_answer seat l.stage⟩⟩
  | up hconnecting hsuspended =>
    have hgate := hl.passed hconnecting
    refine ⟨hl.keep (hl.identity_up hgate) fun h => absurd h (hdown _), ?_⟩
    exact forall_mem_cons.mpr ⟨hup hgate, seated_answer seat l.stage⟩
  | giveUp rc hconnecting =>
    refine ⟨hl.keep (identity_gaveUp _) fun _ => .inl hconnecting, ?_⟩
    simpa [Event.seated] using seated_failure seat l.stage

theorem Run.gated (hl : l.Gated seat home) (h : Run kind seat l evs m) :
    m.Gated seat home ∧ ∀ ev ∈ evs, ev.seated seat home := by
  induction h with
  | nil => exact ⟨hl, by simp⟩
  | snoc hrun hstep ih =>
    obtain ⟨hmid, hevs⟩ := ih
    obtain ⟨hend, hmore⟩ := hstep.gated hmid
    refine ⟨hend, fun ev hev => ?_⟩
    cases mem_append.mp hev with
    | inl h => exact hevs ev h
    | inr h => exact hmore ev h

end Line

def Step.betweenAttempts (b : Broker ρ) : Step → Bool
  | .replug => !b.linkConnecting
  | _ => true

structure Gated (seat : Nat → Option Bytes) (home : Bytes) (b : Broker ρ) : Prop where
  line : b.line.Gated seat home
  told : ∀ ev ∈ b.trace, ev.seated seat home

theorem gated_step {e : Env ρ} {home : Bytes} {b : Broker ρ} {s : Step}
    (h : s.betweenAttempts b) :
    (ofInvariant (Broker.Gated e.seat home)).rel b (step s e b).2 := by
  by_cases hs : s = .replug
  · subst hs
    intro hb
    have hidle : b.linkConnecting = false := by simpa [Step.betweenAttempts] using h
    refine ⟨⟨hb.line.weak, hb.line.port, hb.line.record, fun hconnecting => ?_⟩, hb.told⟩
    rw [show b.linkConnecting = true from hconnecting] at hidle
    cases hidle
  · refine (rel_step_of_run (F := ofInvariant (Broker.Gated e.seat home))
      (fun b b' added htrace hrun hb => ?_) hs).rel b
    obtain ⟨hline, hevs⟩ := hrun.gated hb.line
    refine ⟨hline, fun ev hev => ?_⟩
    rw [htrace] at hev
    cases mem_append.mp hev with
    | inl hev => exact hb.told ev hev
    | inr hev =>
      cases ev with
      | linkUp now => exact hevs _ (mem_filter.mpr ⟨hev, rfl⟩)
      | _ => trivial

theorem seat_of_stored {opened now : Option Bytes} (hopened : ∀ s, opened = some s → s.length < 256)
    (hnow : ∀ s, now = some s → s.length < 256) (hhome : opened.elim [] (stored 256) ≠ [])
    (hsame : stored 256 (now.getD []) = opened.elim [] (stored 256)) :
    now = opened ∧ ∃ s, now = some s ∧ s ≠ [] := by
  cases opened with
  | none => exact absurd rfl hhome
  | some home =>
    have hfits : stored 256 home = home := stored_fits (hopened home rfl)
    cases now with
    | none =>
      rw [← hsame] at hhome
      exact absurd rfl hhome
    | some s =>
      have hs : stored 256 s = s := stored_fits (hnow s rfl)
      change stored 256 s = stored 256 home at hsame
      change stored 256 home ≠ [] at hhome
      rw [hs, hfits] at hsame
      rw [hfits] at hhome
      exact ⟨congrArg some hsame, s, rfl, hsame ▸ hhome⟩

/-- A device with a weak name comes up again only in the seat it was first opened in,
and that seat stays on record. -/
theorem weak_device_keeps_seat (e : Env ρ) (regex : Regex ρ) (cfg : Config) (steps : List Step)
    (hweak : cfg.weakById = true) (hport : cfg.port ≠ [])
    (hbetween : alongSteps e Step.betweenAttempts (brokerInit regex cfg) steps = true)
    (hopened : ∀ s, cfg.byPath = some s → s.length < 256)
    (hshort : ∀ n s, e.seat n = some s → s.length < 256) :
    let b := runSteps e (brokerInit regex cfg) steps
    b.identityByPath = (brokerInit regex cfg).identityByPath ∧
      ∀ now, .linkUp now ∈ b.trace → now = cfg.byPath ∧ ∃ s, now = some s ∧ s ≠ [] := by
  intro b
  have hinit : (brokerInit regex cfg).Gated e.seat (brokerInit regex cfg).identityByPath :=
    ⟨⟨hweak, hport, rfl, fun h => by cases h⟩, by simp [brokerInit]⟩
  have hgated := rel_alongSteps (F := ofInvariant (Broker.Gated e.seat _))
    (fun _ _ => gated_step) hbetween hinit
  refine ⟨hgated.line.record, fun now hnow => ?_⟩
  obtain ⟨hhome, ⟨n, hseat⟩, hsame⟩ := hgated.told _ hnow
  exact seat_of_stored hopened (fun s hs => hshort n s (hseat ▸ hs)) hhome hsame

def weakConfig (seat : Bytes) : Config :=
  { plainConfig [] with port := ascii "usb", weakById := true, byPath := some seat }

def seatEnv (first second : Bytes) : Env Unit :=
  { plainEnv with seat := fun n => some (if n = 0 then first else second) }

def Event.isUp : Event → Bool
  | .linkUp _ => true
  | _ => false

theorem weak_device_keeps_seat_reopened :
    let b := runSteps (seatEnv (ascii "p1") (ascii "p2"))
      (brokerInit plainEnv.regex (weakConfig (ascii "p1")))
      [.event (.link ⟨false, false, true⟩ []), .startTurn, .replug]
    b.trace.any Event.isUp = true ∧ b.identityByPath = ascii "p1" ∧
      ∀ now, .linkUp now ∈ b.trace → now = some (ascii "p1") := by
  intro b
  have hkept := weak_device_keeps_seat (seatEnv (ascii "p1") (ascii "p2")) plainEnv.regex
    (weakConfig (ascii "p1")) [.event (.link ⟨false, false, true⟩ []), .startTurn, .replug]
    rfl (by decide) (by decide +kernel) (fun s hs => ?_) fun n s hs => ?_
  · exact ⟨by decide +kernel, hkept.1, fun now hnow => (hkept.2 now hnow).1⟩
  · obtain rfl : ascii "p1" = s := Option.some.inj hs
    decide
  · have hs := Option.some.inj hs
    split at hs
    · subst hs
      decide
    · subst hs
      decide

def Event.isUpElsewhere (home : Bytes) : Event → Bool
  | .linkUp now => now != some home
  | _ => false

theorem weak_device_changes_seat :
    let first := List.replicate 255 97 ++ [98]
    let second := List.replicate 255 97 ++ [99]
    let b := runSteps (seatEnv first second) (brokerInit plainEnv.regex (weakConfig first))
      [.event (.link ⟨false, false, true⟩ []), .replug, .startTurn]
    b.trace.any (Event.isUpElsewhere first) = true ∧ b.suspended = false ∧
      b.linkDisconnected = false := by
  decide +kernel

end Smolmux.Broker
