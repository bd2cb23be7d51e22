import Smolmux.Broker.Suspension
import Smolmux.Requests

/-! Resumes whose connect takes time are requests that are answered once: with the
link up, or with an error. The book is in balance as long as no suspend comes while
one of them waits. -/

namespace Smolmux.Broker
open Protocol Smolmux.Frame List

variable {ρ : Type}

def Event.resumeEntries : Event → List (Entry Unit)
  | .resume (.began t) => [.requested t, .accepted t true]
  | .resume (.resumed t _) | .resume (.failed t _ _) => [.callback t]
  | _ => []

def Event.ofResume : Event → Bool
  | .resume (.began _) | .resume (.named ..) | .resume (.resumed ..) | .resume (.failed ..) => true
  | _ => false

def Event.begins : Event → Bool
  | .resume (.began _) | .resume (.interrupted _) => true
  | _ => false

def resumeEntries (evs : List Event) : List (Entry Unit) := evs.flatMap Event.resumeEntries

theorem resumeEntries_append (evs more : List Event) :
    resumeEntries (evs ++ more) = resumeEntries evs ++ resumeEntries more := flatMap_append

theorem resumeEntries_silent {evs : List Event} (h : ∀ ev ∈ evs, ev.ofResume = false) :
    resumeEntries evs = [] := by
  refine flatMap_eq_nil_iff.mpr fun ev hev => ?_
  have hsilent := h ev hev
  cases ev with
  | resume note =>
    cases note with
    | entered | interrupted => rfl
    | _ => cases hsilent
  | _ => rfl

def Stage.resumePhase (st : Stage) : Phase Unit :=
  if st.pendingResumeAck then .pausing st.resumeTicket true else .idle

def Stage.waits (st : Stage) : Bool × Bytes × Nat × Nat :=
  (st.pendingResumeAck, st.pendingResumeId, st.resumeTicket, st.resumeNext)

theorem waits_up (seat : Nat → Option Bytes) (st : Stage) : (st.up seat).waits = st.waits := by
  unfold Stage.up Stage.recorded
  split <;> rfl

theorem waits_announced {seat : Nat → Option Bytes} {st : Stage} (h : st.pendingResumeAck = false) :
    (st.up seat).announced.waits = st.waits := by
  have hup := waits_up seat st
  simp only [Stage.waits, Prod.mk.injEq] at hup ⊢
  exact ⟨h.symm, hup.2⟩

def Stage.resumeBook (st : Stage) (evs : List Event) : Book Unit :=
  ⟨st.resumePhase, st.resumeNext, resumeEntries evs⟩

/-- An answer comes from the connect that was begun for its resume; an error has the
name the resume was given, which it is given before it is answered. -/
def Answers (pre : List Event) : Event → Prop
  | .resume (.named t _) => .accepted t true ∈ resumeEntries pre ∧ .callback t ∉ resumeEntries pre
  | .resume (.resumed t connect) => connect = some t
  | .resume (.failed t id connect) => connect = some t ∧
    ((∃ rid, .resume (.named t rid) ∈ pre) → ∃ rid, .resume (.named t rid) ∈ pre ∧ id = stored 64 rid)
  | _ => True

theorem answers_silent {ev : Event} (h : ev.ofResume = false) (pre : List Event) : Answers pre ev := by
  cases ev with
  | resume note =>
    cases note with
    | entered | interrupted => trivial
    | _ => cases h
  | _ => trivial

namespace Line

variable {kind : LinkKind} {seat : Nat → Option Bytes} {l m : Line} {evs more : List Event}

/-- The book of resumes is in balance, and one that waits does so for its own
connect. -/
structure Acked (l : Line) (evs : List Event) : Prop where
  book : (l.stage.resumeBook evs).Balanced
  connecting : l.stage.pendingResumeAck = true → l.stage.linkConnecting = true
  live : l.stage.pendingResumeAck = true → l.stage.suspended = false
  owner : l.stage.pendingResumeAck = true → l.stage.connectOwner = some l.stage.resumeTicket
  id : l.stage.pendingResumeAck = true →
    (∃ rid, .resume (.named l.stage.resumeTicket rid) ∈ evs) →
      ∃ rid, .resume (.named l.stage.resumeTicket rid) ∈ evs ∧
        l.stage.pendingResumeId = stored 64 rid
  told : EachAfter Answers evs

theorem mem_of_silent {ev : Event} (hsilent : ∀ ev ∈ more, ev.ofResume = false)
    (hev : ev.ofResume) (h : ev ∈ evs ++ more) : ev ∈ evs := by
  cases mem_append.mp h with
  | inl h => exact h
  | inr h =>
    rw [hsilent ev h] at hev
    cases hev

theorem Acked.keep (h : l.Acked evs) (hwaits : m.stage.waits = l.stage.waits)
    (hconnect : l.stage.pendingResumeAck → m.stage.linkConnecting ∧
      m.stage.suspended = false ∧ m.stage.connectOwner = l.stage.connectOwner)
    (hsilent : ∀ ev ∈ more, ev.ofResume = false) : m.Acked (evs ++ more) := by
  simp only [Stage.waits, Prod.mk.injEq] at hwaits
  obtain ⟨hpending, hid, hticket, hnext⟩ := hwaits
  have hbook : m.stage.resumeBook (evs ++ more) = l.stage.resumeBook evs := by
    rw [Stage.resumeBook, resumeEntries_append, resumeEntries_silent hsilent, append_nil,
      Stage.resumePhase, hpending, hticket, hnext, Stage.resumeBook, Stage.resumePhase]
  refine ⟨hbook ▸ h.book, fun hm => ?_, fun hm => ?_, fun hm => ?_, fun hm hnamed => ?_, ?_⟩
  · exact (hconnect (hpending ▸ hm)).1
  · exact (hconnect (hpending ▸ hm)).2.1
  · rw [(hconnect (hpending ▸ hm)).2.2, hticket]
    exact h.owner (hpending ▸ hm)
  · obtain ⟨rid, hmem⟩ := hnamed
    obtain ⟨rid, hmem, heq⟩ := h.id (hpending ▸ hm)
      ⟨rid, hticket ▸ mem_of_silent hsilent rfl hmem⟩
    exact ⟨rid, mem_append_left more (hticket ▸ hmem), hid ▸ heq⟩
  · refine h.told.append fun pre ev post heq => answers_silent (hsilent ev ?_) _
    rw [heq]
    simp

theorem Acked.named_lt (h : l.Acked evs) {t : Nat} {rid : Bytes}
    (hmem : .resume (.named t rid) ∈ evs) : t < l.stage.resumeNext := by
  obtain ⟨pre, post, heq⟩ := append_of_mem hmem
  have haccepted := (h.told pre _ post heq).1
  refine h.book.tickets (.accepted t true) ?_
  change _ ∈ resumeEntries evs
  rw [heq, resumeEntries_append]
  exact mem_append_left _ haccepted

theorem Acked.begin (h : l.Acked evs) (hidle : l.stage.pendingResumeAck = false)
    (hpending : m.stage.pendingResumeAck) (hticket : m.stage.resumeTicket = l.stage.resumeNext)
    (hnext : m.stage.resumeNext = l.stage.resumeNext + 1) (hconnecting : m.stage.linkConnecting)
    (hlive : m.stage.suspended = false) (howner : m.stage.connectOwner = some l.stage.resumeNext)
    (before : List Event) (hsilent : ∀ ev ∈ before, ev.ofResume = false) :
    m.Acked (evs ++ (before ++ [.resume (.began l.stage.resumeNext)])) := by
  have hentries : resumeEntries (before ++ [.resume (.began l.stage.resumeNext)]) =
      [.requested l.stage.resumeNext, .accepted l.stage.resumeNext true] := by
    rw [resumeEntries_append, resumeEntries_silent hsilent]
    rfl
  refine ⟨?_, fun _ => hconnecting, fun _ => hlive, fun _ => howner.trans (congrArg some hticket.symm),
    fun _ hnamed => ?_, h.told.append fun pre ev post heq => ?_⟩
  · have hbook := h.book
    rw [Stage.resumeBook, Stage.resumePhase, hidle] at hbook
    rw [Stage.resumeBook, Stage.resumePhase, hpending, hticket, hnext, resumeEntries_append, hentries]
    exact hbook.begin true
  · obtain ⟨rid, hmem⟩ := hnamed
    rw [hticket] at hmem
    cases mem_append.mp hmem with
    | inl hmem => exact absurd (h.named_lt hmem) (Nat.lt_irrefl _)
    | inr hmem =>
      cases mem_append.mp hmem with
      | inl hmem => cases hsilent _ hmem
      | inr hmem => simp at hmem
  · cases mem_append.mp (heq ▸ mem_append_right pre mem_cons_self) with
    | inl hmem => exact answers_silent (hsilent ev hmem) _
    | inr hmem =>
      rw [mem_singleton.mp hmem]
      trivial

theorem Acked.answer (h : l.Acked evs) (hpending : l.stage.pendingResumeAck)
    (hidle : m.stage.pendingResumeAck = false) (hnext : m.stage.resumeNext = l.stage.resumeNext)
    {first ev : Event} (hfirst : first.ofResume = false)
    (hev : ev = .resume (.resumed l.stage.resumeTicket l.stage.connectOwner) ∨
      ev = .resume (.failed l.stage.resumeTicket l.stage.pendingResumeId l.stage.connectOwner)) :
    m.Acked (evs ++ [first, ev]) := by
  have hnot : m.stage.pendingResumeAck ≠ true := by simp [hidle]
  have hentries : resumeEntries [first, ev] = [.callback l.stage.resumeTicket] := by
    have hnone : resumeEntries [first] = [] := resumeEntries_silent (by simpa using hfirst)
    rw [← singleton_append, resumeEntries_append, hnone]
    obtain rfl | rfl := hev
    · rfl
    · rfl
  refine ⟨?_, fun hm => absurd hm hnot, fun hm => absurd hm hnot, fun hm => absurd hm hnot,
    fun hm => absurd hm hnot, h.told.append ((EachAfter.single ?_).append (.single ?_))⟩
  · have hbook := h.book
    rw [Stage.resumeBook, Stage.resumePhase, hpending] at hbook
    rw [Stage.resumeBook, Stage.resumePhase, hidle, hnext, resumeEntries_append, hentries]
    exact hbook.finish
  · exact answers_silent hfirst _
  · have howner := h.owner hpending
    obtain rfl | rfl := hev
    · exact howner
    · refine ⟨howner, fun ⟨rid, hmem⟩ => ?_⟩
      have hsilent : ∀ ev ∈ [first], ev.ofResume = false := by simpa using hfirst
      rw [append_nil] at hmem ⊢
      obtain ⟨rid, hmem, heq⟩ := h.id hpending ⟨rid, mem_of_silent hsilent rfl hmem⟩
      exact ⟨rid, mem_append_left _ hmem, heq⟩

theorem Acked.name (h : l.Acked evs) (hpending : l.stage.pendingResumeAck) (rid : Bytes) :
    Acked ⟨{ l.stage with pendingResumeId := stored 64 rid }, l.link⟩
      (evs ++ [.resume (.named l.stage.resumeTicket rid)]) := by
  have hphase : l.stage.resumePhase = .pausing l.stage.resumeTicket true := if_pos hpending
  refine ⟨?_, h.connecting, h.live, h.owner, fun _ _ => ⟨rid, by simp, rfl⟩,
    h.told.append (.single ?_)⟩
  · have hentries : resumeEntries (evs ++ [.resume (.named l.stage.resumeTicket rid)]) =
        resumeEntries evs := by
      rw [resumeEntries_append]
      exact append_nil _
    rw [Stage.resumeBook, hentries]
    exact h.book
  · change .accepted _ _ ∈ resumeEntries (evs ++ []) ∧ .callback _ ∉ resumeEntries (evs ++ [])
    rw [append_nil]
    exact h.book.pausing hphase

theorem Step.acked (h : Step kind seat l more m) (hl : l.Acked evs)
    (hnot : .resume (.interrupted true) ∉ more) : m.Acked (evs ++ more) := by
  -- steps that leave the stage, or change what no resume depends on
  have hsame : l.stage.pendingResumeAck → l.stage.linkConnecting ∧
      l.stage.suspended = false ∧ l.stage.connectOwner = l.stage.connectOwner :=
    fun hpending => ⟨hl.connecting hpending, hl.live hpending, rfl⟩
  have hidle : l.stage.linkConnecting = false → ¬l.stage.pendingResumeAck :=
    fun hidle hpending => by
      rw [hl.connecting hpending] at hidle
      cases hidle
  have hgone : l.stage.suspended → ¬l.stage.pendingResumeAck :=
    fun hsuspended hpending => by
      rw [hl.live hpending] at hsuspended
      cases hsuspended
  cases h with
  | minor op rc fds queued _ hop hevs =>
    refine hl.keep rfl hsame ?_
    obtain rfl | rfl := hevs
    · simp
    · simp [Event.ofResume]
  | write | flush | poll | refuse | resumeFail | reconnectFail | lost =>
    exact hl.keep rfl hsame (by simp [Event.ofResume])
  | suspend rc =>
    refine hl.keep rfl (fun hpending => ?_) (by simp [Event.ofResume])
    rw [hpending] at hnot
    simp at hnot
  | name rid hpending => exact hl.name hpending rid
  | resumeNow rc fds queued hsuspended hgate =>
    refine hl.keep (waits_up ..) (fun hpending => absurd hpending (hgone hsuspended)) ?_
    simp [Event.ofResume]
  | resumeLater fds queued deadline hsuspended hgate =>
    have hnone : l.stage.pendingResumeAck = false := Bool.eq_false_of_not_eq_true (hgone hsuspended)
    exact hl.begin hnone rfl rfl rfl rfl rfl rfl [.resume .entered, .link .connectBegin 1]
      (by simp [Event.ofResume])
  | reconnectLater fds queued deadline hsuspended hconnecting hdown hgate =>
    exact hl.keep rfl (fun hpending => absurd hpending (hidle hconnecting)) (by simp [Event.ofResume])
  | reconnectUp fds queued hsuspended hconnecting hdown hgate =>
    have hnone := Bool.eq_false_of_not_eq_true (hidle hconnecting)
    refine hl.keep (waits_announced hnone) (fun hpending => absurd hpending (hidle hconnecting)) ?_
    simp [Event.ofResume, Stage.answer, hnone]
  | up hconnecting hsuspended =>
    cases hpending : l.stage.pendingResumeAck with
    | true =>
      have hanswer : l.stage.answer =
          [.resume (.resumed l.stage.resumeTicket l.stage.connectOwner)] := if_pos hpending
      rw [hanswer]
      exact hl.answer hpending rfl (congrArg (·.2.2.2) (waits_up seat l.stage)) rfl (.inl rfl)
    | false =>
      refine hl.keep (waits_announced hpending) (fun hwaits => ?_) ?_
      · rw [hpending] at hwaits
        cases hwaits
      · simp [Event.ofResume, Stage.answer, hpending]
  | giveUp rc hconnecting =>
    cases hpending : l.stage.pendingResumeAck with
    | true =>
      have hfailure : l.stage.failure = [.resume (.failed l.stage.resumeTicket
          l.stage.pendingResumeId l.stage.connectOwner)] := if_pos hpending
      rw [hfailure]
      refine hl.answer (m := ⟨l.stage.gaveUp, .closed⟩) hpending ?_ ?_ rfl (.inr rfl)
      · rw [Stage.gaveUp, if_pos hpending]
      · rw [Stage.gaveUp, if_pos hpending]
    | false =>
      rw [Stage.failure, Stage.gaveUp, hpending]
      refine hl.keep (by rw [Stage.waits, Stage.waits, hpending]; rfl) (fun hwaits => ?_) ?_
      · rw [hpending] at hwaits
        cases hwaits
      · simp [Event.ofResume]

theorem Run.acked (hl : l.Acked evs) (h : Run kind seat l more m)
    (hnot : .resume (.interrupted true) ∉ more) : m.Acked (evs ++ more) := by
  induction h with
  | nil => rwa [append_nil]
  | snoc hrun hstep ih =>
    rw [mem_append, not_or] at hnot
    rw [← append_assoc]
    exact hstep.acked (ih hnot.1) hnot.2

structure Live (l : Line) : Prop where
  running : l.stage.suspended = false
  idle : l.stage.pendingResumeAck = false

theorem Step.live (h : Step kind seat l evs m) (hl : l.Live)
    (hevs : ∀ ev ∈ evs, ev.begins = false) : m.Live := by
  have hsuspended : l.stage.suspended → m.Live := fun h => by
    rw [hl.running] at h
    cases h
  cases h with
  | minor | write | flush | lost | name | refuse | reconnectFail | poll | reconnectLater =>
    exact ⟨hl.running, hl.idle⟩
  | suspend rc => cases hevs _ mem_cons_self
  | resumeFail _ h | resumeNow _ _ _ h | resumeLater _ _ _ h => exact hsuspended h
  | reconnectUp | up =>
    exact ⟨(Stage.suspended_up seat l.stage).trans hl.running, rfl⟩
  | giveUp rc hconnecting =>
    have hstage : l.stage.gaveUp = { l.stage with linkConnecting := false, linkDisconnected := true } :=
      if_neg (by simp [hl.idle])
    rw [hstage]
    exact ⟨hl.running, hl.idle⟩

theorem Run.live (hl : l.Live) (h : Run kind seat l evs m)
    (hevs : ∀ ev ∈ evs, ev.begins = false) : m.Live := by
  induction h with
  | nil => exact hl
  | snoc hrun hstep ih =>
    refine hstep.live (ih fun ev hev => hevs ev ?_) fun ev hev => hevs ev ?_
    · exact mem_append_left _ hev
    · exact mem_append_right _ hev

end Line

def livening : Frame (Broker ρ) where
  rel b b' := ∃ added, b'.trace = b.trace ++ added ∧
    ((∀ ev ∈ added, ev.begins = false) → b.line.Live → b'.line.Live)
  refl b := ⟨[], (append_nil _).symm, fun _ h => h⟩
  trans h h' := by
    obtain ⟨added, htrace, hlive⟩ := h
    obtain ⟨more, htrace', hlive'⟩ := h'
    refine ⟨added ++ more, by rw [htrace', htrace, append_assoc], fun hevs hl => ?_⟩
    exact hlive' (fun ev hev => hevs ev (mem_append_right added hev))
      (hlive (fun ev hev => hevs ev (mem_append_left more hev)) hl)

theorem livening_runSteps (e : Env ρ) (b : Broker ρ) (steps : List Step) :
    livening.rel b (runSteps e b steps) := by
  refine rel_steps_of_run (F := livening)
    (fun b b' added htrace hrun => ⟨added, htrace, fun hevs hl => ?_⟩)
    (fun b => ⟨[], (append_nil _).symm, fun _ hl => ⟨hl.running, hl.idle⟩⟩) b steps
  exact hrun.live hl fun ev hev => hevs ev (mem_of_mem_filter hev)

def Acked (b : Broker ρ) : Prop :=
  .resume (.interrupted true) ∉ b.linkEvents → b.line.Acked b.linkEvents

theorem acked_runSteps (e : Env ρ) (b : Broker ρ) (steps : List Step) :
    (ofInvariant Broker.Acked).rel b (runSteps e b steps) := by
  refine rel_steps_of_run (F := ofInvariant Broker.Acked) (fun b b' added htrace hrun hb hnot => ?_)
    (fun b hb hnot => ?_) b steps
  · have htold : b'.linkEvents = b.linkEvents ++ added.filter fun ev => ev.sector.any linkSide := by
      rw [Broker.linkEvents, Broker.about, htrace, filter_append]
      rfl
    rw [htold, mem_append, not_or] at hnot
    rw [htold]
    exact hrun.acked (hb hnot.1) hnot.2
  · obtain ⟨hbook, hconnecting, hlive, howner, hid, htold⟩ := hb hnot
    exact ⟨hbook, hconnecting, hlive, howner, hid, htold⟩

theorem acked_brokerInit (regex : Regex ρ) (cfg : Config) : (brokerInit regex cfg).Acked :=
  fun _ => ⟨Book.balanced_empty, fun h => h, fun _ => rfl, nofun, nofun, .nil _⟩

section Deadline

variable {e : Env ρ} {b : Broker ρ}

theorem startTurn_late (hconnecting : b.linkConnecting)
    (hlate : ∀ n, b.queries ≤ n → b.linkConnectDeadline < e.mono n) :
    (startTurn e b).2.pendingResumeAck = false := by
  -- what comes before the reconnect leaves the connect alone, and the clock goes on
  have hbefore : ∀ b₁ : Broker ρ, Moves (fun s => s == .expect || s == .calls || s == .pages) b b₁ →
      b₁.linkConnecting ∧ ∀ n, b₁.queries ≤ n → b₁.linkConnectDeadline < e.mono n := by
    intro b₁ h
    have hstage : b₁.stage = b.stage := h.part .stage rfl
    refine ⟨(congrArg Stage.linkConnecting hstage).trans hconnecting, fun n hn => ?_⟩
    rw [show b₁.linkConnectDeadline = b.linkConnectDeadline from
      congrArg Stage.connectDeadline hstage]
    exact hlate n (h.forward.trans hn)
  have hgiveUp : ∀ b₁ : Broker ρ, (linkConnectGiveUp e b₁).2.pendingResumeAck = false := by
    intro b₁
    obtain ⟨evs, -, hline⟩ := tells_linkConnectGiveUp (e := e)
      (R := fun _ _ c => c.stage.pendingResumeAck = false) (fun _ _ => by
        unfold Stage.gaveUp
        split
        case isTrue => rfl
        case isFalse h => exact Bool.eq_false_of_not_eq_true h) b₁ rfl
    exact hline
  have hrest : ∀ b₁ : Broker ρ, Moves (fun s => s == .expect || s == .calls || s == .pages) b b₁ →
      ((do attemptReconnect; checkConnectDeadline : M ρ Unit) e b₁).2.pendingResumeAck = false := by
    intro b₁ h
    obtain ⟨hstill, hlate'⟩ := hbefore b₁ h
    have hskip : attemptReconnect e b₁ = ((), b₁) := by simp [attemptReconnect, hstill]
    have hnow : b₁.linkConnectDeadline < (nowMonotonic e b₁).1 := hlate' _ (Nat.le_refl _)
    have hcheck : checkConnectDeadline e b₁ = linkConnectGiveUp e (nowMonotonic e b₁).2 := by
      rw [checkConnectDeadline, Proc.bind_apply, Proc.get_apply, if_pos hstill, Proc.bind_apply,
        if_pos hnow]
    rw [Proc.bind_apply, hskip, hcheck]
    exact hgiveUp _
  have hexpects : (moves fun s => s == .expect || s == .calls || s == .pages).Keeps
      (Proc.when (b.expect.requests ≠ []) processExpectResults : M ρ Unit) :=
    keeps_when fun _ => moves_processExpectResults rfl rfl
  have hhistory : ∀ b₁ : Broker ρ, (moves fun s => s == .expect || s == .calls || s == .pages).Keeps
      (Proc.when b₁.historyPending.active processHistory : M ρ Unit) :=
    fun _ => keeps_when fun _ => moves_processHistory rfl
  exact hrest _ ((moves _).trans (hexpects.rel e b) ((hhistory _).rel e _))

end Deadline

def Event.isResumeAnswer (t : Nat) : Event → Bool
  | .resume (.resumed u _) | .resume (.failed u _ _) => u == t
  | _ => false

section Transfer

variable {b : Broker ρ} {t : Nat}

theorem countP_resumeEntries (evs : List Event) (t : Nat) :
    (resumeEntries evs).countP (fun en => en.isCallback && en.ticket == t) =
      evs.countP (Event.isResumeAnswer t) := by
  induction evs with
  | nil => rfl
  | cons ev evs ih =>
    have hcons : resumeEntries (ev :: evs) = ev.resumeEntries ++ resumeEntries evs := rfl
    rw [hcons, countP_append, ih, countP_cons, Nat.add_comm]
    congr 1
    cases ev with
    | resume note =>
      cases note <;> simp [Event.resumeEntries, Event.isResumeAnswer, Entry.isCallback, Entry.ticket]
    | _ => rfl

theorem mem_linkEvents {note : ResumeNote} : .resume note ∈ b.linkEvents ↔ .resume note ∈ b.trace :=
  ⟨fun h => (mem_about.mp h).1, fun h => mem_about.mpr ⟨h, rfl⟩⟩

theorem countP_linkEvents (b : Broker ρ) (t : Nat) :
    b.linkEvents.countP (Event.isResumeAnswer t) = b.trace.countP (Event.isResumeAnswer t) := by
  rw [Broker.linkEvents, Broker.about, countP_filter]
  refine countP_congr fun ev _ => ?_
  cases ev with
  | resume note => simp [Event.sector, linkSide]
  | _ => simp [Event.isResumeAnswer]

theorem accepted_of_began (h : .resume (.began t) ∈ b.trace) :
    .accepted t true ∈ resumeEntries b.linkEvents :=
  mem_flatMap.mpr ⟨_, mem_linkEvents.mpr h, by simp [Event.resumeEntries]⟩

theorem began_of_accepted (h : .accepted t true ∈ resumeEntries b.linkEvents) :
    .resume (.began t) ∈ b.trace := by
  obtain ⟨ev, hmem, hev⟩ := mem_flatMap.mp h
  cases ev with
  | resume note =>
    cases note <;> simp [Event.resumeEntries] at hev
    subst hev
    exact mem_linkEvents.mp hmem
  | _ => simp [Event.resumeEntries] at hev

theorem Line.Acked.answered_once (h : b.line.Acked b.linkEvents) (ht : .resume (.began t) ∈ b.trace) :
    b.trace.countP (Event.isResumeAnswer t) =
      if b.pendingResumeAck ∧ b.resumeTicket = t then 0 else 1 := by
  have honce := h.book.callback_once (accepted_of_began ht)
  have howed : b.line.stage.resumePhase.owed (· == t) =
      if b.pendingResumeAck ∧ b.resumeTicket = t then 1 else 0 := by
    change Phase.owed (· == t) (if b.pendingResumeAck then _ else _) = _
    cases b.pendingResumeAck with
    | true => simp [Phase.owed, Broker.line, Broker.stage]
    | false => simp [Phase.owed]
  have hcount := (countP_resumeEntries b.linkEvents t).trans (countP_linkEvents b t)
  change (resumeEntries b.linkEvents).countP _ + b.line.stage.resumePhase.owed (· == t) = 1 at honce
  rw [hcount, howed] at honce
  split_ifs at honce ⊢
  · omega
  · omega

theorem Line.Acked.idle_of_answered (h : b.line.Acked b.linkEvents)
    (hanswered : ∀ t, .resume (.began t) ∈ b.trace → 0 < b.trace.countP (Event.isResumeAnswer t)) :
    b.pendingResumeAck = false := by
  refine Bool.eq_false_of_not_eq_true fun hpending => ?_
  have hphase : b.line.stage.resumePhase = .pausing b.resumeTicket true := if_pos hpending
  have hbegan := began_of_accepted (h.book.pausing hphase).1
  have hpos := hanswered _ hbegan
  rw [h.answered_once hbegan, if_pos ⟨hpending, rfl⟩] at hpos
  exact Nat.lt_irrefl 0 hpos

theorem Line.Acked.began_of_failed (h : b.line.Acked b.linkEvents) {id : Bytes} {connect : Option Nat}
    (ht : .resume (.failed t id connect) ∈ b.trace) : .resume (.began t) ∈ b.trace := by
  have hcallback : .callback t ∈ resumeEntries b.linkEvents :=
    mem_flatMap.mpr ⟨_, mem_linkEvents.mpr ht, by simp [Event.resumeEntries]⟩
  exact began_of_accepted (h.book.accepted_of_callback hcallback)

theorem Line.Acked.failed_named (h : b.line.Acked b.linkEvents) {id : Bytes} {connect : Option Nat}
    (ht : .resume (.failed t id connect) ∈ b.trace)
    (hnamed : ∃ rid, .resume (.named t rid) ∈ b.trace) :
    connect = some t ∧ ∃ rid, .resume (.named t rid) ∈ b.trace ∧ id = stored 64 rid := by
  obtain ⟨pre, post, heq⟩ := append_of_mem (mem_linkEvents.mpr ht)
  obtain ⟨howner, hid⟩ := h.told pre _ post heq
  obtain ⟨rid, hmem⟩ := hnamed
  -- a name comes before the answer
  have hbefore : .resume (.named t rid) ∈ pre := by
    have hmem := mem_linkEvents.mpr hmem
    rw [heq] at hmem
    cases mem_append.mp hmem with
    | inl hmem => exact hmem
    | inr hmem =>
      obtain ⟨mid, rest, hsplit⟩ := append_of_mem ((mem_cons.mp hmem).resolve_left (by simp))
      have hcallback := (h.told (pre ++ .resume (.failed t id connect) :: mid)
        (.resume (.named t rid)) rest (by rw [heq, hsplit, append_assoc, cons_append])).2
      refine absurd ?_ hcallback
      rw [resumeEntries_append]
      exact mem_append_right _ (mem_append_left _ (by simp [Event.resumeEntries]))
  obtain ⟨rid, hmem, hid⟩ := hid ⟨rid, hbefore⟩
  refine ⟨howner, rid, mem_linkEvents.mp ?_, hid⟩
  rw [heq]
  exact mem_append_left _ hmem

end Transfer

/-- A resume that waits does so for its connect; it is answered once, by that connect
and under the name it was given, and at the latest when the time of the connect is
over. A link that no resume waits for is not suspended when a reconnect fails. -/
theorem resume_acknowledged (e : Env ρ) (regex : Regex ρ) (cfg : Config) (steps : List Step)
    (hnot : .resume (.interrupted true) ∉ (runSteps e (brokerInit regex cfg) steps).trace)
    (hnamed : ∀ t, .resume (.began t) ∈ (runSteps e (brokerInit regex cfg) steps).trace →
      ∃ rid, .resume (.named t rid) ∈ (runSteps e (brokerInit regex cfg) steps).trace)
    (hshort : ∀ t rid, .resume (.named t rid) ∈ (runSteps e (brokerInit regex cfg) steps).trace →
      rid.length < 64) :
    let b := runSteps e (brokerInit regex cfg) steps
    (b.pendingResumeAck = true → b.linkConnecting = true) ∧
      (∀ t, .resume (.began t) ∈ b.trace → b.trace.countP (Event.isResumeAnswer t) =
        if b.pendingResumeAck = true ∧ b.resumeTicket = t then 0 else 1) ∧
      (∀ t connect, .resume (.resumed t connect) ∈ b.trace → connect = some t) ∧
      (∀ t id connect, .resume (.failed t id connect) ∈ b.trace →
        connect = some t ∧ .resume (.named t id) ∈ b.trace) ∧
      (b.pendingResumeAck = true → (∀ n, b.queries ≤ n → b.linkConnectDeadline < e.mono n) →
        (startTurn e b).2.pendingResumeAck = false) ∧
      (∀ later added, (runSteps e b later).trace = b.trace ++ added → b.suspended = false →
        (∀ t, .resume (.began t) ∈ b.trace → 0 < b.trace.countP (Event.isResumeAnswer t)) →
        (∀ ev ∈ added, ev.begins = false) → (runSteps e b later).suspended = false) := by
  intro b
  have hinv : b.Acked := acked_runSteps e _ steps (acked_brokerInit regex cfg)
  have hacked : b.line.Acked b.linkEvents := hinv fun h => hnot (mem_linkEvents.mp h)
  refine ⟨hacked.connecting, fun t ht => ?_, fun t connect ht => ?_, fun t id connect ht => ?_,
    fun hpending hlate => startTurn_late (hacked.connecting hpending) hlate,
    fun later added htrace hrunning hanswered hevs => ?_⟩
  · exact hacked.answered_once ht
  · obtain ⟨pre, post, heq⟩ := append_of_mem (mem_linkEvents.mpr ht)
    exact hacked.told pre _ post heq
  · obtain ⟨howner, rid, hmem, hid⟩ := hacked.failed_named ht (hnamed t (hacked.began_of_failed ht))
    rw [stored_fits (hshort t rid hmem)] at hid
    exact ⟨howner, hid ▸ hmem⟩
  · obtain ⟨added', htrace', hlive⟩ := livening_runSteps e b later
    have hadded : added' = added := append_cancel_left (htrace'.symm.trans htrace)
    subst hadded
    have hidle : b.pendingResumeAck = false := hacked.idle_of_answered hanswered
    exact (hlive hevs ⟨hrunning, hidle⟩).running

def asyncEnv (rc : Nat → Int) : Env Unit :=
  { plainEnv with linkKind := ⟨false, false, false, true, true, false, false, false⟩, rc := rc }

def resumeMsg (id : String) : Msg := ⟨.resume, some (.obj [("id", .str (ascii id))])⟩

def Event.isOrderly : Event → Bool
  | .resume (.began t) => t == 0
  | .resume (.named _ rid) => decide (rid.length < 64)
  | .resume (.interrupted pending) => !pending
  | _ => true

def Event.isFirstName : Event → Bool
  | .resume (.named t _) => t == 0
  | _ => false

theorem named_of_isFirstName {evs : List Event} (h : evs.any Event.isFirstName) :
    ∃ rid, .resume (.named 0 rid) ∈ evs := by
  obtain ⟨ev, hmem, hev⟩ := any_eq_true.mp h
  cases ev with
  | resume note =>
    cases note with
    | named t rid =>
      have ht : t = 0 := beq_iff_eq.mp hev
      exact ⟨rid, ht ▸ hmem⟩
    | _ => cases hev
  | _ => cases hev

theorem resume_acknowledged_up :
    let steps := suspendSteps [.message 1 (resumeMsg "r1"), .event (.link ⟨false, true, false⟩ [])]
    let b := runSteps (asyncEnv fun _ => 1) (plainInit []) steps
    .resume (.began 0) ∈ b.trace ∧ b.trace.countP (Event.isResumeAnswer 0) = 1 := by
  intro steps b
  have hidle : b.pendingResumeAck = false := by decide +kernel
  have horderly : b.trace.all Event.isOrderly = true := by decide +kernel
  have hfirst : b.trace.any Event.isFirstName = true := by decide +kernel
  have haccepted : .accepted 0 true ∈ resumeEntries b.linkEvents := by decide +kernel
  have hall := all_eq_true.mp horderly
  have hnamed : ∀ t, .resume (.began t) ∈ b.trace → ∃ rid, .resume (.named t rid) ∈ b.trace := by
    intro t ht
    have ht : t = 0 := beq_iff_eq.mp (hall _ ht)
    exact ht ▸ named_of_isFirstName hfirst
  have honce := (resume_acknowledged (asyncEnv fun _ => 1) plainEnv.regex (plainConfig []) steps
    (fun h => absurd (hall _ h) (by decide)) hnamed
    fun t rid h => of_decide_eq_true (hall _ h)).2.1 0 (began_of_accepted haccepted)
  refine ⟨began_of_accepted haccepted, honce.trans (if_neg fun h => ?_)⟩
  exact Bool.false_ne_true (hidle.symm.trans h.1)

/-- A suspend while a resume waits: the broker takes itself for waiting with no
connect under way, and a reconnect that fails later on suspends it, as the answer to
a resume that it was not begun for. -/
theorem resume_left_waiting :
    let e := asyncEnv fun n => if n = 13 then 0 else 1
    let b := runSteps e (plainInit [])
      (suspendSteps [.message 1 (resumeMsg "r1"), .message 1 ⟨.suspend, none⟩])
    let b' := runSteps e b [.message 1 (resumeMsg "r2"), .event (.link ⟨false, false, true⟩ []),
      .startTurn, .event (.link ⟨false, false, true⟩ [])]
    b.pendingResumeAck = true ∧ b.linkConnecting = false ∧
      b.trace.countP (Event.isResumeAnswer 0) = 0 ∧ b'.suspended = true ∧
      b'.connectOwner = none ∧ b'.trace.countP (Event.isResumeAnswer 0) = 1 := by
  decide +kernel

end Smolmux.Broker
