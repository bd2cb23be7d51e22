import Smolmux.Broker.LinkRefinement
import Smolmux.Broker.Takeover

/-! A suspended broker has given up its link: until a resume is entered it stays
closed, and nothing is written to it and no open of it is tried. -/

namespace Smolmux.Broker
open Protocol Smolmux.Frame List

variable {ρ : Type}

def Event.usesLink : Event → Bool
  | .link (.writeData _) _ | .link .openLink _ | .link .connectBegin _ => true
  | _ => false

namespace Line

variable {kind : LinkKind} {seat : Nat → Option Bytes} {l m n : Line} {evs more : List Event}

structure Closed (l : Line) : Prop where
  suspended : l.stage.suspended = true
  closed : l.link.fd < 0

def Released (l : Line) : Prop := l.stage.suspended = true → l.link.fd < 0

/-- From a closed line on, the port is used only after a resume has been entered,
and without one the line stays closed. -/
def HeldOff (l : Line) (evs : List Event) (m : Line) : Prop :=
  l.Closed → EachAfter (fun pre ev => ev.usesLink = true → .resume .entered ∈ pre) evs ∧
    (.resume .entered ∉ evs → m.Closed)

theorem HeldOff.trans (h : HeldOff l evs m) (h' : HeldOff m more n) : HeldOff l (evs ++ more) n := by
  intro hl
  obtain ⟨huses, hstays⟩ := h hl
  by_cases hentered : .resume .entered ∈ evs
  · refine ⟨huses.append fun pre ev post _ _ => mem_append_left pre hentered, fun hnot => ?_⟩
    exact absurd (mem_append_left more hentered) hnot
  · obtain ⟨huses', hstays'⟩ := h' (hstays hentered)
    refine ⟨huses.append (huses'.mono fun pre ev hpre hev => ?_), fun hnot => ?_⟩
    · exact mem_append_right evs (hpre hev)
    · exact hstays' fun hmore => hnot (mem_append_right evs hmore)

theorem heldOff_of_idle (h : l.Closed → (∀ ev ∈ evs, ev.usesLink = false) ∧ m.Closed) :
    HeldOff l evs m := by
  refine fun hl => ⟨fun pre ev post heq huses => ?_, fun _ => (h hl).2⟩
  have hidle := (h hl).1 ev (by rw [heq]; simp)
  rw [hidle] at huses
  cases huses

theorem heldOff_of_entered : HeldOff l (.resume .entered :: evs) m := by
  refine fun _ => ⟨fun pre ev post heq huses => ?_, fun hnot => absurd mem_cons_self hnot⟩
  cases pre with
  | nil =>
    obtain ⟨rfl, -⟩ := List.cons.inj heq
    cases huses
  | cons x pre =>
    obtain ⟨rfl, -⟩ := List.cons.inj heq
    exact mem_cons_self

theorem heldOff_of_live (h : l.stage.suspended = false) : HeldOff l evs m := fun hl => by
  rw [hl.suspended] at h
  cases h

theorem fd_closed : LinkState.closed.fd < 0 := by decide

theorem fd_after (op : LinkOp) (h : op.needsOpen) (kind : LinkKind) (fds : Nat × Nat)
    (queued : Bool) (rc : Int) (s : LinkState) : (s.after kind fds queued op rc).fd = s.fd := by
  cases op with
  | writeData | setParam | sendBreak | flushWriteQueue =>
    simp only [LinkState.after]
    split <;> rfl
  | _ => cases h

theorem needsOpen_of_isMinor {op : LinkOp} (h : op.isMinor) : op.needsOpen := by
  cases op with
  | setParam | sendBreak => rfl
  | _ => cases h

theorem suspended_gaveUp {st : Stage} (h : st.suspended) : st.gaveUp.suspended := by
  unfold Stage.gaveUp
  split
  · rfl
  · exact h

theorem Step.released (h : Step kind seat l evs m) (hl : l.Released) : m.Released := by
  intro hm
  cases h with
  | minor op rc fds queued _ hop hevs =>
    exact (fd_after op (needsOpen_of_isMinor hop) kind fds queued rc l.link).symm ▸ hl hm
  | write data rc fds queued hsuspended hup =>
    exact (fd_after (.writeData data) rfl kind fds queued rc l.link).symm ▸ hl hm
  | flush rc fds queued =>
    exact (fd_after .flushWriteQueue rfl kind fds queued rc l.link).symm ▸ hl hm
  | name rid hpending => exact hl hm
  | refuse => exact hl hm
  | poll rc hconnecting hsuspended => exact hl hm
  | lost | suspend | resumeFail | giveUp => exact fd_closed
  | resumeNow rc fds queued hsuspended hgate =>
    rw [Stage.suspended_up] at hm
    cases hm
  | resumeLater => cases hm
  | reconnectFail rc fds queued hsuspended hidle hdown => exact absurd hm (by simp [hsuspended])
  | reconnectLater fds queued deadline hsuspended hidle hdown hgate =>
    exact absurd hm (by simp [Stage.connecting, hsuspended])
  | reconnectUp fds queued hsuspended hidle hdown hgate =>
    exact absurd hm (by simp [Stage.announced, Stage.suspended_up, hsuspended])
  | up hconnecting hsuspended =>
    exact absurd hm (by simp [Stage.announced, Stage.suspended_up, hsuspended])

theorem Step.heldOff (h : Step kind seat l evs m) : HeldOff l evs m := by
  cases h with
  | minor op rc fds queued _ hop hevs =>
    refine heldOff_of_idle fun hl => ⟨?_, hl.suspended, ?_⟩
    · obtain rfl | rfl := hevs
      · simp
      · cases op with
        | setParam | sendBreak => simp [Event.usesLink]
        | _ => cases hop
    · exact (fd_after op (needsOpen_of_isMinor hop) kind fds queued rc l.link).symm ▸ hl.closed
  | flush rc fds queued =>
    refine heldOff_of_idle fun hl => ⟨by simp [Event.usesLink], hl.suspended, ?_⟩
    exact (fd_after .flushWriteQueue rfl kind fds queued rc l.link).symm ▸ hl.closed
  | lost rc => exact heldOff_of_idle fun hl => ⟨by simp [Event.usesLink], hl.suspended, fd_closed⟩
  | suspend rc => exact heldOff_of_idle fun _ => ⟨by simp [Event.usesLink], rfl, fd_closed⟩
  | name rid hpending =>
    exact heldOff_of_idle fun hl => ⟨by simp [Event.usesLink], hl.suspended, hl.closed⟩
  | giveUp rc hconnecting =>
    refine heldOff_of_idle fun hl => ⟨?_, suspended_gaveUp hl.suspended, fd_closed⟩
    unfold Stage.failure
    split <;> simp [Event.usesLink]
  | refuse | resumeFail | resumeNow | resumeLater => exact heldOff_of_entered
  | write _ _ _ _ hsuspended | reconnectFail _ _ _ hsuspended | reconnectUp _ _ hsuspended
  | reconnectLater _ _ _ hsuspended | poll _ _ hsuspended | up _ hsuspended =>
    exact heldOff_of_live hsuspended

theorem Run.released (h : Run kind seat l evs m) (hl : l.Released) : m.Released := by
  induction h with
  | nil => exact hl
  | snoc hrun hstep ih => exact hstep.released ih

theorem Run.heldOff (h : Run kind seat l evs m) : HeldOff l evs m := by
  induction h with
  | nil => exact heldOff_of_idle fun hl => ⟨by simp, hl⟩
  | snoc hrun hstep ih => exact ih.trans hstep.heldOff

end Line

def heldOff : Frame (Broker ρ) where
  rel b b' := ∃ added, b'.trace = b.trace ++ added ∧ Line.HeldOff b.line added b'.line
  refl b := ⟨[], (append_nil _).symm, Line.heldOff_of_idle fun hl => ⟨by simp, hl⟩⟩
  trans h h' := by
    obtain ⟨added, htrace, hheld⟩ := h
    obtain ⟨more, htrace', hheld'⟩ := h'
    exact ⟨added ++ more, by rw [htrace', htrace, append_assoc], hheld.trans hheld'⟩

theorem usesLink_linkSide {ev : Event} (h : ev.usesLink) : ev.sector.any linkSide := by
  cases ev with
  | link op rc => rfl
  | _ => cases h

theorem heldOff_runSteps (e : Env ρ) (b : Broker ρ) (steps : List Step) :
    heldOff.rel b (runSteps e b steps) := by
  refine rel_steps_of_run (F := heldOff)
    (fun b b' added htrace hrun => ⟨added, htrace, fun hclosed => ?_⟩)
    (fun b => ⟨[], (append_nil _).symm, Line.heldOff_of_idle fun hl => ?_⟩) b steps
  · obtain ⟨huses, hstays⟩ := hrun.heldOff hclosed
    refine ⟨huses.of_filter fun ev hev => usesLink_linkSide hev, fun hnot => hstays fun hmem => ?_⟩
    exact hnot (mem_of_mem_filter hmem)
  · exact ⟨by simp, hl.suspended, hl.closed⟩

theorem released_runSteps (e : Env ρ) (b : Broker ρ) (steps : List Step) :
    (ofInvariant fun b : Broker ρ => b.line.Released).rel b (runSteps e b steps) :=
  rel_steps_of_run (fun _ _ _ _ hrun => hrun.released) (fun _ h => h) b steps

/-- While the broker is suspended its link is closed, whatever happens; the port is
used again only after a resume has been entered. -/
theorem suspended_link_released (e : Env ρ) (regex : Regex ρ) (cfg : Config) (steps later : List Step)
    (hsuspended : (runSteps e (brokerInit regex cfg) steps).suspended = true) :
    let b := runSteps e (brokerInit regex cfg) steps
    let b' := runSteps e b later
    b.link.fd < 0 ∧ ∃ added, b'.trace = b.trace ++ added ∧
      (∀ pre ev post, added = pre ++ ev :: post → ev.usesLink = true → .resume .entered ∈ pre) ∧
      (.resume .entered ∉ added → b'.suspended = true ∧ b'.link.fd < 0) := by
  intro b b'
  have hinit : (brokerInit regex cfg).line.Released := fun h => by cases h
  have hreleased : b.line.Released := released_runSteps e _ steps hinit
  have hclosed : b.line.Closed := ⟨hsuspended, hreleased hsuspended⟩
  obtain ⟨added, htrace, hheld⟩ := heldOff_runSteps e b later
  obtain ⟨huses, hstays⟩ := hheld hclosed
  exact ⟨hclosed.closed, added, htrace, huses, fun hnot =>
    ⟨(hstays hnot).suspended, (hstays hnot).closed⟩⟩

def sendMsg : Msg := ⟨.send, some (.obj [("data", .str (ascii "QQ=="))])⟩

def suspendSteps (more : List Step) : List Step :=
  [.event (.listen (plainReg 1)), .message 1 (helloMsg "a" []), .message 1 ⟨.suspend, none⟩] ++ more

def Event.isEntered : Event → Bool
  | .resume .entered => true
  | _ => false

theorem suspended_link_released_send :
    let b := runSteps plainEnv (plainInit []) (suspendSteps [])
    let b' := runSteps plainEnv b [.message 1 sendMsg, .event .floodTimer, .startTurn]
    b.suspended = true ∧ b'.suspended = true ∧ b'.link.fd < 0 ∧
      ∃ added, b'.trace = b.trace ++ added ∧ ∀ ev ∈ added, ev.usesLink = false := by
  intro b b'
  have hsuspended : b.suspended = true := by decide +kernel
  have hnone : b'.trace.all (fun ev => !ev.isEntered) = true := by decide +kernel
  obtain ⟨-, added, htrace, huses, hstays⟩ := suspended_link_released plainEnv plainEnv.regex
    (plainConfig []) (suspendSteps []) [.message 1 sendMsg, .event .floodTimer, .startTurn] hsuspended
  have hnot : .resume .entered ∉ added := fun hmem => by
    have hmem' : .resume .entered ∈ b'.trace := htrace ▸ mem_append_right _ hmem
    cases all_eq_true.mp hnone _ hmem'
  refine ⟨hsuspended, (hstays hnot).1, (hstays hnot).2, added, htrace, fun ev hev => ?_⟩
  obtain ⟨pre, post, heq⟩ := append_of_mem hev
  refine Bool.eq_false_of_not_eq_true fun hev => hnot ?_
  rw [heq]
  exact mem_append_left _ (huses pre ev post heq hev)

end Smolmux.Broker
