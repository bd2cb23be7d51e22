import Smolmux.Broker.Account
import Smolmux.Broker.LinkMachine

/-! Rules for the procedures that deal with the link: what each makes of the stage,
of the link and of what is watched of it, and the events it tells about them. -/

namespace Smolmux.Broker
open Smolmux.Frame

variable {ρ α : Type}

def linkEvents (b : Broker ρ) : List Event := b.about linkSide

structure Wiring where
  stage : Stage
  link : LinkState
  watched : Int → Option Interest

def Wiring.line (c : Wiring) : Line := ⟨c.stage, c.link⟩

def wiring (b : Broker ρ) : Wiring := ⟨b.stage, b.link, b.watched⟩

def resting : Frame (Broker ρ) := unchanged fun b => (b.wiring, b.linkEvents)

theorem resting_of_still {b b' : Broker ρ} (h : Still linkSide b b') : resting.rel b b' := by
  have hstage : b'.stage = b.stage := h.part .stage rfl
  have hwire := Prod.mk.inj (h.part .wire rfl : (b'.link, b'.watched) = (b.link, b.watched))
  refine Prod.ext ?_ h.told
  change b'.wiring = b.wiring
  rw [Broker.wiring, hstage, hwire.1, hwire.2, Broker.wiring]

variable {p : M ρ α}

theorem resting_plain (h : plain.Keeps p) : resting.Keeps p :=
  h.mono fun _ _ hrel => resting_of_still (still_of_plain hrel)

theorem resting_historyFence (line : Bytes) : resting.Keeps (historyFence line : M ρ Unit) :=
  (moves_historyFence (S := fun s => s == .history) rfl line).mono fun _ _ h =>
    resting_of_still (Moves.still (apart_of_all rfl) h)

abbrev LinkTells (e : Env ρ) (p : M ρ α) (R : α → List Event → Wiring → Prop) (c : Wiring) : Prop :=
  TellsAt Broker.wiring Broker.linkEvents e p R c

variable {e : Env ρ} {c : Wiring} {R : Unit → List Event → Wiring → Prop}
  {T : Int → List Event → Wiring → Prop} {U : α → List Event → Wiring → Prop} {op : LinkOp}

theorem tells_resting (hp : resting.Keeps p) (h : ∀ a, U a [] c) : LinkTells e p U c :=
  tells_unchanged (hp.at e) h

theorem tells_plain (hp : plain.Keeps p) (h : ∀ a, U a [] c) : LinkTells e p U c :=
  tells_resting (resting_plain hp) h

theorem tells_ask {f : Env ρ → Nat → α} (h : ∀ n, U (f e n) [] c) : LinkTells e (ask f) U c := by
  rintro b rfl
  exact ⟨[], (List.append_nil _).symm, h _⟩

theorem tells_emit {ev : Event} (h : R () (if ev.sector.any linkSide then [ev] else []) c) :
    LinkTells e (emit ev) R c := by
  rintro b rfl
  exact ⟨_, about_noted b ev, h⟩

theorem tells_modify {f : Broker ρ → Broker ρ} (htrace : ∀ b, (f b).trace = b.trace)
    (h : ∀ b, b.wiring = c → R () [] (f b).wiring) : LinkTells e (Proc.modify f) R c := by
  intro b hb
  refine ⟨[], ?_, h b hb⟩
  rw [Proc.modify_apply, Broker.linkEvents, Broker.about, htrace, List.append_nil]
  rfl

theorem tells_setStage {f : Broker ρ → Broker ρ} (st : Stage → Stage)
    (hf : ∀ b, ((f b).trace, (f b).wiring) = (b.trace, ⟨st b.stage, b.link, b.watched⟩))
    (h : R () [] ⟨st c.stage, c.link, c.watched⟩) : LinkTells e (Proc.modify f) R c := by
  refine tells_modify (fun b => (Prod.mk.inj (hf b)).1) ?_
  rintro b rfl
  rw [(Prod.mk.inj (hf b)).2]
  exact h

def Wiring.unwatched (c : Wiring) (op : LinkOp) : Int → Option Interest := fun fd =>
  if op = .closeLink ∧ (fd = c.link.fd ∨ fd = c.link.writeFd) then none else c.watched fd

theorem unwatched_of_ne (h : op ≠ .closeLink) (c : Wiring) :
    c.unwatched op = c.watched := funext fun _ => if_neg fun hop => h hop.1

theorem tells_callOpen {ev : Int → Event}
    (h : ∀ rc fds queued, (op.needsOpen → ¬rc < 0 → 0 ≤ c.link.fd) →
      T rc (if (ev rc).sector.any linkSide then [ev rc] else [])
        ⟨c.stage, c.link.after e.linkKind fds queued op rc, c.unwatched op⟩) :
    LinkTells e (callLinkAs op ev) T c := by
  refine tells_env (tells_get ?_)
  rintro b rfl
  refine tells_bind (tells_plain (plain_ask _) fun answer => ?_)
  generalize hrc : (if op.needsOpen ∧ b.link.fd < 0 then -1 else answer) = rc
  have hopen : op.needsOpen → ¬rc < 0 → 0 ≤ b.wiring.link.fd := by
    intro hneeds hok
    by_contra hclosed
    rw [if_pos ⟨hneeds, not_le.mp hclosed⟩] at hrc
    exact hok (hrc ▸ by decide)
  refine tells_bind (tells_modify (fun _ => rfl) fun b₁ h₁ => ?_)
  have hafter : (b₁.afterLink e op rc).wiring = ⟨b₁.wiring.stage,
      b₁.wiring.link.after e.linkKind (e.fds b₁.queries) (e.queued b₁.queries) op rc,
      b₁.wiring.unwatched op⟩ := rfl
  rw [hafter, h₁]
  refine tells_bind (tells_emit (tells_pure ?_))
  simpa using h rc _ _ hopen

theorem tells_callLinkAs {ev : Int → Event}
    (h : ∀ rc fds queued, T rc (if (ev rc).sector.any linkSide then [ev rc] else [])
      ⟨c.stage, c.link.after e.linkKind fds queued op rc, c.unwatched op⟩) :
    LinkTells e (callLinkAs op ev) T c := tells_callOpen fun rc fds queued _ => h rc fds queued

theorem tells_callLink (h : ∀ rc fds queued, T rc [.link op rc]
      ⟨c.stage, c.link.after e.linkKind fds queued op rc, c.unwatched op⟩) :
    LinkTells e (callLink op) T c := tells_callLinkAs h

variable {fd rc : Int} {w : Int → Option Interest} {interest : Interest}

def Stage.Away (st : Stage) : Prop := st.suspended = true ∨ st.linkDisconnected = true

def Env.Roomy (e : Env ρ) : Prop := ∀ n, e.epollMem n = true

def epollSet (rc : Int) (op : EpollOp) (fd : Int) (interest : Interest)
    (w : Int → Option Interest) : Int → Option Interest :=
  if rc = 0 then Function.update w fd (if op = .del then none else some interest) else w

theorem epollSet_other {g : Int} (h : g ≠ fd) (rc : Int) (op : EpollOp) (interest : Interest)
    (w : Int → Option Interest) : epollSet rc op fd interest w g = w g := by
  unfold epollSet
  split
  · exact Function.update_of_ne h _ _
  · rfl

theorem epollSet_failed (h : rc ≠ 0) (op : EpollOp) (fd : Int) (interest : Interest)
    (w : Int → Option Interest) : epollSet rc op fd interest w = w := if_neg h

theorem epollSet_mod {room : Bool} (h : (w fd).isSome)
    (hrc : rc = epollAnswer room (w fd) .mod) (interest : Interest) :
    epollSet rc .mod fd interest w fd = some interest := by
  have hzero : rc = 0 := by rw [hrc, epollAnswer, if_pos h]
  rw [epollSet, if_pos hzero]
  exact Function.update_self ..

theorem epollSet_add (h : ¬(w fd).isSome) (hrc : rc = epollAnswer true (w fd) .add)
    (interest : Interest) :
    epollSet rc .add fd interest w fd = some interest := by
  have hzero : rc = 0 := by rw [hrc, epollAnswer, if_neg h, if_pos rfl]
  rw [epollSet, if_pos hzero]
  exact Function.update_self ..

theorem epollAnswer_add {room : Bool} {old : Option Interest}
    (hrc : rc = epollAnswer room old .add) : rc = eexist ↔ old.isSome := by
  rw [hrc, epollAnswer]
  cases old with
  | none => cases room <;> simp [eexist, enospc]
  | some i => simp

theorem tells_linkEpollCtl {op : EpollOp}
    (h : ∀ n rc, rc = epollAnswer (e.epollMem n) (c.watched fd) op →
      T rc [] ⟨c.stage, c.link, epollSet rc op fd interest c.watched⟩) :
    LinkTells e (linkEpollCtl op fd interest) T c := by
  refine tells_bind (tells_ask fun n => tells_get ?_)
  rintro b rfl
  generalize hrc : epollAnswer (e.epollMem n) (b.watched fd) op = rc
  refine tells_bind (tells_modify (fun _ => by split <;> rfl) fun b₁ h₁ => ?_)
  have hset : ∀ i, (if rc = 0 then { b₁ with watched := Function.update b₁.watched fd i }
      else b₁).wiring = ⟨b₁.wiring.stage, b₁.wiring.link,
        if rc = 0 then Function.update b₁.wiring.watched fd i else b₁.wiring.watched⟩ :=
    fun i => by split <;> rfl
  rw [hset, h₁]
  exact tells_bind (tells_emit (tells_pure (h n rc hrc.symm)))

theorem tells_epollDo {op : EpollOp}
    (h : ∀ n rc, rc = epollAnswer (e.epollMem n) (c.watched fd) op →
      R () [] ⟨c.stage, c.link, epollSet rc op fd interest c.watched⟩) :
    LinkTells e (do let _ ← linkEpollCtl op fd interest) R c :=
  tells_bind (tells_linkEpollCtl fun n rc hrc => tells_pure (h n rc hrc))

def LinkState.writer (kind : LinkKind) (s : LinkState) : Int :=
  if kind.hasWriteFd then s.writeFd else s.fd

theorem tells_linkWriteFd (h : T (c.link.writer e.linkKind) [] c) :
    LinkTells e (linkWriteFd c.link.fd) T c := by
  refine tells_env (tells_get ?_)
  rintro b rfl
  exact tells_pure h

theorem tells_unwatchLink (h : ∀ w, R () [] ⟨c.stage, c.link, w⟩) : LinkTells e unwatchLink R c := by
  refine tells_get ?_
  rintro b rfl
  refine tells_bind (tells_linkWriteFd ?_)
  have hrest : ∀ w (q : Prop) [Decidable q] fd, LinkTells e (Proc.when q do
      let _ ← linkEpollCtl .del fd ⟨false, false, false⟩) R ⟨b.wiring.stage, b.wiring.link, w⟩ :=
    fun w _ _ _ => tells_when (fun _ => tells_epollDo fun _ _ _ => h _) fun _ => h w
  exact tells_bind (tells_when (fun _ => tells_epollDo fun _ _ _ => hrest _ _ _) fun _ => hrest _ _ _)

structure Watched (e : Env ρ) (fd : Int) (interest : Interest) (w w' : Int → Option Interest) :
    Prop where
  other : ∀ g, g ≠ fd → w' g = w g
  own : e.Roomy → w' fd = some interest

theorem tells_watchFd (h : ∀ w, Watched e fd interest c.watched w → R () [] ⟨c.stage, c.link, w⟩) :
    LinkTells e (watchFd fd interest) R c := by
  refine tells_bind (tells_linkEpollCtl fun n rc hrc => ?_)
  refine tells_when (fun hexists => ?_) fun hnew => ?_
  · have hsome : (c.watched fd).isSome := (epollAnswer_add hrc).mp hexists
    have hfailed : rc ≠ 0 := by rw [hexists]; decide
    rw [epollSet_failed hfailed]
    exact tells_epollDo fun n rc hrc =>
      h _ ⟨fun g hg => epollSet_other hg .., fun _ => epollSet_mod hsome hrc interest⟩
  · have hnone : ¬(c.watched fd).isSome := fun hsome => hnew ((epollAnswer_add hrc).mpr hsome)
    refine h _ ⟨fun g hg => epollSet_other hg .., fun hroomy => ?_⟩
    rw [hroomy n] at hrc
    exact epollSet_add hnone hrc interest

/-- What an update of the interest in an open link leaves: the link is still watched,
and its writer for output when there is something to write. -/
structure Refreshed (e : Env ρ) (c : Wiring) (w : Int → Option Interest) : Prop where
  read : (c.watched c.link.fd).isSome = true → (w c.link.fd).isSome = true
  write : e.Roomy → (c.watched c.link.fd).isSome = true → 0 ≤ c.link.fd →
    0 ≤ c.link.writer e.linkKind → (e.linkKind.hasWritePending && c.link.pending) = true →
      ∃ i, w (c.link.writer e.linkKind) = some i ∧ i.output = true

theorem tells_updateWriteEpoll {pending : Bool}
    (h : ∀ w, (∀ g, g ≠ fd → w g = c.watched g) →
      (e.Roomy → pending → w fd = some ⟨false, true, false⟩) → R () [] ⟨c.stage, c.link, w⟩) :
    LinkTells e (updateWriteEpoll fd pending) R c := by
  refine tells_ite (fun hpending => ?_) fun hnone => ?_
  · refine tells_bind (tells_linkEpollCtl fun n rc hrc => ?_)
    by_cases hsome : (c.watched fd).isSome
    · have hzero : rc = 0 := by rw [hrc, epollAnswer, if_pos hsome]
      refine tells_when (fun hmissing => ?_) fun _ => ?_
      · rw [hzero] at hmissing
        cases hmissing
      · exact h _ (fun g hg => epollSet_other hg ..) fun _ _ => epollSet_mod hsome hrc _
    · have hmissing : rc = enoent := by rw [hrc, epollAnswer, if_neg hsome]
      have hfailed : rc ≠ 0 := by rw [hmissing]; decide
      rw [epollSet_failed hfailed]
      refine tells_when (fun _ => tells_epollDo fun n rc hrc => ?_) fun h => absurd hmissing h
      refine h _ (fun g hg => epollSet_other hg ..) fun hroomy _ => ?_
      rw [hroomy n] at hrc
      exact epollSet_add hsome hrc _
  · refine tells_epollDo fun n rc hrc => h _ (fun g hg => epollSet_other hg ..) fun _ hpending => ?_
    exact absurd hpending hnone

theorem tells_brokerUpdateLinkEpoll (hdown : c.stage.Away → R () [] c)
    (hup : ¬c.stage.Away → ∀ w, Refreshed e c w → R () [] ⟨c.stage, c.link, w⟩) :
    LinkTells e brokerUpdateLinkEpoll R c := by
  refine tells_get ?_
  rintro b rfl
  refine tells_ite (fun h => tells_pure (hdown h)) fun h => ?_
  have hup := hup h
  refine tells_env (tells_bind (tells_linkWriteFd ?_))
  -- the descriptor that is read from, which may be the one that is written to
  have hread : LinkTells e (Proc.when (0 ≤ b.wiring.link.fd) do
      let _ ← linkEpollCtl .mod b.wiring.link.fd ⟨true, b.wiring.link.fd == b.wiring.link.writer e.linkKind &&
        (e.linkKind.hasWritePending && b.wiring.link.pending), true⟩)
      (fun _ evs d => evs = [] ∧ ∃ w, d = ⟨b.wiring.stage, b.wiring.link, w⟩ ∧
        (∀ g, g ≠ b.wiring.link.fd → w g = b.wiring.watched g) ∧
        ((b.wiring.watched b.wiring.link.fd).isSome → (w b.wiring.link.fd).isSome) ∧
        ((b.wiring.watched b.wiring.link.fd).isSome → 0 ≤ b.wiring.link.fd → w b.wiring.link.fd = some
          ⟨true, b.wiring.link.fd == b.wiring.link.writer e.linkKind &&
            (e.linkKind.hasWritePending && b.wiring.link.pending), true⟩)) b.wiring := by
    refine tells_when (fun _ => tells_epollDo fun n rc hrc => ?_) fun hclosed => ?_
    · refine ⟨rfl, _, rfl, fun g hg => epollSet_other hg .., fun hsome => ?_, fun hsome _ => ?_⟩
      · rw [epollSet_mod hsome hrc]
        rfl
      · exact epollSet_mod hsome hrc _
    · exact ⟨rfl, _, rfl, fun _ _ => rfl, id, fun _ hopen => absurd hopen hclosed⟩
  refine tells_bind (hread.mono fun _ evs d hd => ?_)
  obtain ⟨rfl, w, rfl, hother, hkept, hset⟩ := hd
  refine tells_when (fun hwriter => tells_updateWriteEpoll fun w' hw hown => ?_) fun hsame => ?_
  · refine hup w' ⟨fun hsome => ?_, fun hroomy hsome hopen hwrite hpending => ?_⟩
    · have hne : b.wiring.link.fd ≠ b.wiring.link.writer e.linkKind := Ne.symm hwriter.2
      rw [hw _ hne]
      exact hkept hsome
    · exact ⟨_, hown hroomy hpending, rfl⟩
  · refine hup _ ⟨hkept, fun hroomy hsome hopen hwrite hpending => ?_⟩
    have hfd : b.wiring.link.writer e.linkKind = b.wiring.link.fd := by
      by_contra hne
      exact hsame ⟨hwrite, hne⟩
    refine ⟨_, by rw [hfd]; exact hset hsome hopen, ?_⟩
    simp [hfd, hpending]

structure Brought (e : Env ρ) (c : Wiring) (w : Int → Option Interest) : Prop where
  read : e.Roomy → 0 ≤ c.link.fd → (w c.link.fd).isSome = true
  write : e.Roomy → 0 ≤ c.link.fd → 0 ≤ c.link.writer e.linkKind → ¬c.stage.Away →
      (e.linkKind.hasWritePending && c.link.pending) = true →
        ∃ i, w (c.link.writer e.linkKind) = some i ∧ i.output = true

theorem tells_watched (h : ∀ w, Brought e c w → R () [] ⟨c.stage, c.link, w⟩)
    (hsome : e.Roomy → (w c.link.fd).isSome) :
    LinkTells e brokerUpdateLinkEpoll R ⟨c.stage, c.link, w⟩ := by
  refine tells_brokerUpdateLinkEpoll (fun hdown => ?_) fun hup w' hw => ?_
  · exact h _ ⟨fun hroomy _ => hsome hroomy, fun _ _ _ hup => absurd hdown hup⟩
  · refine h _ ⟨fun hroomy _ => hw.read (hsome hroomy), fun hroomy hopen hwrite _ hpending => ?_⟩
    exact hw.write hroomy (hsome hroomy) hopen hwrite hpending

theorem tells_watchLink (h : ∀ w, Brought e c w → R () [] ⟨c.stage, c.link, w⟩) :
    LinkTells e watchLink R c := by
  refine tells_get ?_
  rintro b rfl
  refine tells_when (fun hopen => ?_) fun hclosed => ?_
  · refine tells_bind (tells_watchFd fun w hw => ?_)
    have hown : e.Roomy → (w b.wiring.link.fd).isSome := fun hroomy => by
      rw [show w b.wiring.link.fd = _ from hw.own hroomy]
      rfl
    refine tells_bind (tells_linkWriteFd ?_)
    -- the writer is in the set from now on, the reader stays in it
    refine tells_bind (tells_when (fun hwriter => tells_epollDo fun n rc _ => ?_) fun _ => ?_)
    · refine tells_watched (c := b.wiring) h fun hroomy => ?_
      have hne : b.wiring.link.fd ≠ b.wiring.link.writer e.linkKind := Ne.symm hwriter.2
      rw [epollSet_other hne]
      exact hown hroomy
    · exact tells_watched (c := b.wiring) h hown
  · exact h _ ⟨fun _ hopen => absurd hopen hclosed, fun _ hopen => absurd hopen hclosed⟩

theorem tells_brokerDoWrite {data : Bytes} (hdown : c.stage.Away → ∀ rc, T rc [] c)
    (hup : ¬c.stage.Away → (∀ rc, T (-3) [.link (.writeData data) rc] c) ∧
      ∀ rc fds queued w, 0 ≤ c.link.fd → Refreshed e ⟨c.stage,
          c.link.after e.linkKind fds queued (.writeData data) rc, c.watched⟩ w →
        T 0 [.link (.writeData data) rc]
          ⟨c.stage, c.link.after e.linkKind fds queued (.writeData data) rc, w⟩) :
    LinkTells e (brokerDoWrite data) T c := by
  refine tells_get ?_
  rintro b rfl
  refine tells_ite (fun h => tells_pure (hdown (.inl h) _)) fun hsuspended => ?_
  refine tells_ite (fun h => tells_pure (hdown (.inr h) _)) fun hlost => ?_
  have hlive : ¬b.wiring.stage.Away := not_or.mpr ⟨hsuspended, hlost⟩
  obtain ⟨hfail, hsent⟩ := hup hlive
  refine tells_bind (tells_callOpen fun rc fds queued hopen => ?_)
  rw [unwatched_of_ne (by simp)]
  refine tells_ite (fun hneg => tells_pure ?_) fun hok => ?_
  · have hsame : b.wiring.link.after e.linkKind fds queued (.writeData data) rc = b.wiring.link :=
      if_pos (.inl hneg)
    rw [hsame]
    exact hfail rc
  · exact tells_bind (tells_brokerUpdateLinkEpoll (fun hdown => absurd hdown hlive) fun _ w hw =>
      tells_pure (hsent rc fds queued w (hopen rfl hok) hw))

theorem tells_flushQueue (hkept : ∀ rc, T rc [.link .flushWriteQueue rc] c)
    (hdown : c.stage.Away → ∀ rc fds queued, T rc [.link .flushWriteQueue rc]
      ⟨c.stage, c.link.after e.linkKind fds queued .flushWriteQueue rc, c.watched⟩)
    (hup : ¬c.stage.Away → ∀ rc fds queued w, 0 ≤ c.link.fd → Refreshed e ⟨c.stage,
          c.link.after e.linkKind fds queued .flushWriteQueue rc, c.watched⟩ w →
        T rc [.link .flushWriteQueue rc]
          ⟨c.stage, c.link.after e.linkKind fds queued .flushWriteQueue rc, w⟩) :
    LinkTells e flushQueue T c := by
  refine tells_bind (tells_callOpen fun rc fds queued hopen => ?_)
  rw [unwatched_of_ne (by simp)]
  refine tells_bind (tells_when (fun hok => tells_brokerUpdateLinkEpoll (fun hdown' => ?_)
    fun hup' w hw => ?_) fun hneg => ?_)
  · exact tells_pure (hdown hdown' rc fds queued)
  · exact tells_pure (hup hup' rc fds queued w (hopen rfl (not_lt.mpr hok)) hw)
  · have hsame : c.link.after e.linkKind fds queued .flushWriteQueue rc = c.link :=
      if_neg fun hzero => hneg (le_of_eq hzero.symm)
    rw [hsame]
    exact tells_pure (hkept rc)

theorem tells_linkLost (h : ∀ rc w, R () [.link .closeLink rc]
      ⟨{ c.stage with linkDisconnected := true }, .closed, w⟩) : LinkTells e linkLost R c := by
  refine tells_bind (tells_unwatchLink fun w => ?_)
  refine tells_bind (tells_callLink fun rc fds queued => ?_)
  refine tells_bind (tells_plain (plain_ask _) fun now => ?_)
  exact tells_setStage (fun st => { st with linkDisconnected := true }) (fun _ => rfl) (h rc _)

theorem tells_linkSuspend
    (h : ∀ rc w, R () [.resume (.interrupted c.stage.pendingResumeAck), .link .closeLink rc]
      ⟨{ c.stage with suspended := true, linkConnecting := false }, .closed, w⟩) :
    LinkTells e linkSuspend R c := by
  refine tells_bind (tells_unwatchLink fun w => tells_get fun b hb => ?_)
  have hpending : b.pendingResumeAck = c.stage.pendingResumeAck :=
    congrArg (·.stage.pendingResumeAck) hb
  rw [← hpending] at h
  refine tells_bind (tells_emit ?_)
  refine tells_bind (tells_setStage (fun st => { st with suspended := true, linkConnecting := false })
    (fun _ => rfl) ?_)
  exact tells_bind (tells_callLink fun rc fds queued => tells_pure (h rc _))

theorem tells_nameResume {rid : Bytes} (hnamed : c.stage.pendingResumeAck →
      R () [.resume (.named c.stage.resumeTicket rid)]
        ⟨{ c.stage with pendingResumeId := stored 64 rid }, c.link, c.watched⟩)
    (hidle : R () [] c) : LinkTells e (nameResume rid) R c := by
  refine tells_get ?_
  rintro b rfl
  refine tells_when (fun hpending => ?_) fun _ => hidle
  refine tells_bind (tells_setStage (fun st => { st with pendingResumeId := stored 64 rid })
    (fun _ => rfl) ?_)
  exact tells_emit (hnamed hpending)

theorem tells_linkConnectGiveUp (h : ∀ rc w, R () (.link .closeLink rc :: c.stage.failure)
      ⟨c.stage.gaveUp, .closed, w⟩) : LinkTells e linkConnectGiveUp R c := by
  refine tells_bind (tells_setStage (fun st => { st with linkConnecting := false })
    (fun _ => rfl) ?_)
  refine tells_bind (tells_callLink fun rc fds queued => ?_)
  refine tells_bind (tells_setStage (fun st => { st with linkDisconnected := true })
    (fun _ => rfl) (tells_get fun b hb => ?_))
  have hstage : b.stage = { c.stage with linkConnecting := false, linkDisconnected := true } :=
    congrArg Wiring.stage hb
  have hpending : b.pendingResumeAck = c.stage.pendingResumeAck :=
    congrArg Stage.pendingResumeAck hstage
  refine tells_bind (tells_when (fun hwaiting => ?_) fun hnone => ?_)
  · refine tells_bind (tells_emit ?_)
    refine tells_bind (tells_plain (plain_broadcast ..) fun _ => ?_)
    refine tells_setStage (fun st =>
      { st with pendingResumeAck := false, pendingResumeId := [], suspended := true })
      (fun _ => rfl) (tells_plain plain_linkScheduleRetry fun _ => ?_)
    have hfailed := h rc
    rw [hpending] at hwaiting
    rw [Stage.failure, Stage.gaveUp, if_pos hwaiting, if_pos hwaiting] at hfailed
    have hticket : b.resumeTicket = c.stage.resumeTicket := congrArg Stage.resumeTicket hstage
    have hid : b.pendingResumeId = c.stage.pendingResumeId := congrArg Stage.pendingResumeId hstage
    have howner : b.connectOwner = c.stage.connectOwner := congrArg Stage.connectOwner hstage
    rw [hticket, hid, howner]
    exact hfailed _
  · refine tells_plain plain_linkScheduleRetry fun _ => ?_
    have hgone := h rc
    rw [hpending] at hnone
    rw [Stage.failure, Stage.gaveUp, if_neg hnone, if_neg hnone] at hgone
    exact hgone _

theorem tells_brokerRecordIdentity (h : R () [] ⟨c.stage.recorded e.seat, c.link, c.watched⟩) :
    LinkTells e brokerRecordIdentity R c := by
  refine tells_env (tells_get ?_)
  rintro b rfl
  refine tells_ite (fun hport => tells_pure ?_) fun hport => ?_
  · rw [Stage.recorded, if_pos (show b.wiring.stage.port = [] from hport)] at h
    exact h
  rw [Stage.recorded, if_neg (show ¬b.wiring.stage.port = [] from hport)] at h
  refine tells_bind (tells_setStage (fun st => { st with
    identityByPath := (e.seat b.wiring.stage.epoch).elim st.identityByPath (stored 256) })
    (fun _ => rfl) ?_)
  -- the name by id is no part of the stage
  refine tells_ite (fun _ => ?_) fun _ => tells_bind (tells_plain (plain_ask _) fun _ => ?_)
  · exact tells_setStage id (fun _ => rfl) h
  · exact tells_setStage id (fun _ => rfl) h

theorem tells_announceUp (h : R () c.stage.answer ⟨c.stage.announced, c.link, c.watched⟩) :
    LinkTells e announceUp R c := by
  refine tells_get ?_
  rintro b rfl
  refine tells_ite (fun hwaiting => ?_) fun hnone => ?_
  · rw [Stage.answer, if_pos (show b.wiring.stage.pendingResumeAck = true from hwaiting)] at h
    refine tells_bind (tells_emit (tells_bind (tells_plain (plain_broadcast ..) fun _ => ?_)))
    exact tells_setStage Stage.announced (fun _ => rfl) h
  · have hidle : b.wiring.stage.pendingResumeAck = false := Bool.eq_false_of_not_eq_true hnone
    rw [Stage.answer, hidle, if_neg Bool.false_ne_true, Stage.announced, ← hidle] at h
    exact tells_plain (plain_broadcast ..) fun _ => h

theorem tells_linkBringUp {up : Bool} (h : ∀ w, Brought e c w →
      R () (.linkUp (e.seat c.stage.epoch) :: if up then c.stage.answer else [])
        ⟨if up then (c.stage.up e.seat).announced else c.stage.up e.seat, c.link, w⟩) :
    LinkTells e (linkBringUp up) R c := by
  refine tells_env (tells_bind (tells_watchLink fun w hw => ?_))
  refine tells_bind (tells_plain (plain_ask _) fun now => ?_)
  refine tells_bind (tells_plain (plain_ask _) fun upTs => ?_)
  refine tells_bind (tells_setStage (fun st =>
    { st with linkConnecting := false, linkDisconnected := false }) (fun _ => rfl) ?_)
  refine tells_bind (tells_emit (tells_get fun b hb => ?_))
  have hepoch : b.epoch = c.stage.epoch := congrArg (·.stage.epoch) hb
  rw [hepoch]
  refine tells_bind (tells_emit (tells_bind (tells_setStage id (fun _ => rfl) ?_)))
  refine tells_bind (tells_setStage id (fun _ => rfl) ?_)
  refine tells_bind (tells_resting (resting_historyFence _) fun _ => ?_)
  refine tells_bind (tells_brokerRecordIdentity ?_)
  have hend := h w hw
  cases up with
  | true =>
    refine tells_announceUp ?_
    rw [← Stage.answer_up e.seat c.stage] at hend
    exact hend
  | false => exact tells_pure hend

theorem tells_linkWatchConnecting {owner : Option Nat}
    (h : ∀ deadline w, (0 ≤ c.link.fd → Watched e c.link.fd ⟨false, true, true⟩ c.watched w) →
      R () [] ⟨c.stage.connecting owner deadline, c.link, w⟩) :
    LinkTells e (linkWatchConnecting owner) R c := by
  refine tells_get ?_
  rintro b rfl
  refine tells_bind (tells_when (fun _ => tells_watchFd fun w hw => ?_) fun hclosed => ?_)
  · exact tells_bind (tells_plain (plain_ask _) fun now => tells_setStage
      (Stage.connecting owner (now + linkConnectTimeoutS)) (fun _ => rfl) (h _ w fun _ => hw))
  · exact tells_bind (tells_plain (plain_ask _) fun now => tells_setStage
      (Stage.connecting owner (now + linkConnectTimeoutS)) (fun _ => rfl)
      (h _ _ fun hopen => absurd hopen hclosed))

theorem tells_resumeNow
    (h : ∀ w, Brought e ⟨{ c.stage with suspended := false }, c.link, c.watched⟩ w →
      T 0 [.linkUp (e.seat c.stage.epoch)]
        ⟨({ c.stage with suspended := false } : Stage).up e.seat, c.link, w⟩) :
    LinkTells e resumeNow T c := by
  refine tells_bind (tells_setStage (fun st => { st with suspended := false }) (fun _ => rfl) ?_)
  refine tells_bind (tells_linkBringUp fun w hw => tells_get fun b hb => ?_)
  exact tells_bind (tells_plain (plain_broadcast ..) fun _ => tells_pure (h w hw))

theorem tells_resumeLater
    (h : ∀ deadline w, (0 ≤ c.link.fd → Watched e c.link.fd ⟨false, true, true⟩ c.watched w) →
      T 0 [.resume (.began c.stage.resumeNext)]
        ⟨c.stage.waiting.connecting (some c.stage.resumeNext) deadline, c.link, w⟩) :
    LinkTells e resumeLater T c := by
  refine tells_get ?_
  rintro b rfl
  refine tells_bind (tells_setStage (fun st => { st with
    suspended := false
    pendingResumeAck := true
    resumeTicket := b.resumeNext
    resumeNext := b.resumeNext + 1 }) (fun _ => rfl) (tells_bind (tells_emit ?_)))
  exact tells_bind (tells_linkWatchConnecting fun deadline w hw => tells_pure (h deadline w hw))

theorem tells_brokerIdentityBlocksReopen {R : Bool → List Event → Wiring → Prop}
    (h : R (c.stage.blocks e.seat) [] c) : LinkTells e brokerIdentityBlocksReopen R c := by
  refine tells_env (tells_get ?_)
  rintro b rfl
  refine tells_ite
    (fun (hfree : b.wiring.stage.identityWeakById = false ∨ b.wiring.stage.port = []) => tells_pure ?_)
    fun (hheld : ¬(b.wiring.stage.identityWeakById = false ∨ b.wiring.stage.port = [])) =>
      tells_pure ?_
  · have hblocks : b.wiring.stage.blocks e.seat = false := by
      rw [Stage.blocks, decide_eq_false (not_not_intro hfree), Bool.false_and]
    rwa [hblocks] at h
  · have hblocks : b.wiring.stage.blocks e.seat = identityRefuseWeakSeatChange true b.identityByPath
        (stored 256 ((e.seat b.epoch).getD [])) := by
      rw [Stage.blocks, decide_eq_true hheld, Bool.true_and]
      rfl
    rwa [hblocks] at h

theorem after_connectBegin {kind : LinkKind} {fds : Nat × Nat} {queued : Bool} (h : ¬rc < 0)
    (s : LinkState) :
    s.after kind fds queued .connectBegin rc = .opened kind fds queued := if_neg h

theorem tells_reopen (h : ∀ rc fds queued, T rc [.link e.linkKind.reopen rc]
      ⟨c.stage, c.link.after e.linkKind fds queued e.linkKind.reopen rc, c.watched⟩)
    (hop : op = e.linkKind.reopen) : LinkTells e (callLink op) T c := by
  subst hop
  have hne : e.linkKind.reopen ≠ .closeLink := by
    unfold LinkKind.reopen
    split <;> simp
  refine tells_callLink fun rc fds queued => ?_
  rw [unwatched_of_ne hne]
  exact h rc fds queued

theorem tells_brokerDoResume (hrefuse : ∀ rc, T rc [.resume .entered] c)
    (hfail : c.stage.suspended → ∀ rc, T (-2)
      [.resume .entered, .link e.linkKind.reopen rc] ⟨c.stage, .closed, c.watched⟩)
    (hnow : c.stage.suspended → c.stage.blocks e.seat = false →
      ∀ rc fds queued w, Brought e ⟨{ c.stage with suspended := false },
          .opened e.linkKind fds queued, c.watched⟩ w →
        T 0 [.resume .entered, .link e.linkKind.reopen rc, .linkUp (e.seat c.stage.epoch)]
          ⟨({ c.stage with suspended := false } : Stage).up e.seat,
            .opened e.linkKind fds queued, w⟩)
    (hlater : c.stage.suspended → c.stage.blocks e.seat = false →
      ∀ fds queued deadline w, Watched e fds.1 ⟨false, true, true⟩ c.watched w →
        T 0 [.resume .entered, .link .connectBegin 1, .resume (.began c.stage.resumeNext)]
          ⟨c.stage.waiting.connecting (some c.stage.resumeNext) deadline,
            .opened e.linkKind fds queued, w⟩) :
    LinkTells e brokerDoResume T c := by
  refine tells_env (tells_bind (tells_emit (tells_get ?_)))
  rintro b rfl
  refine tells_ite (fun _ => tells_pure (hrefuse _)) fun hnot => ?_
  have hsuspended : b.wiring.stage.suspended := Bool.eq_true_of_not_eq_false hnot
  refine tells_bind (tells_brokerIdentityBlocksReopen ?_)
  refine tells_ite (fun _ => tells_pure (hrefuse _)) fun hgate => ?_
  have hfree : b.wiring.stage.blocks e.seat = false := Bool.eq_false_of_not_eq_true hgate
  refine tells_ite (fun hbegin => ?_) fun hopen => ?_
  · have hreopen : .connectBegin = e.linkKind.reopen := (if_pos hbegin).symm
    refine tells_bind (tells_reopen (fun rc fds queued => ?_) hreopen)
    rw [← hreopen] at hfail hnow ⊢
    refine tells_ite (fun hfailed => tells_pure ?_) fun hok => ?_
    · have hclosed : b.wiring.link.after e.linkKind fds queued .connectBegin rc = .closed :=
        if_pos hfailed
      rw [hclosed]
      exact hfail hsuspended rc
    rw [after_connectBegin hok]
    refine tells_ite (fun hlate => tells_resumeLater fun deadline w hw => ?_) fun _ =>
      tells_resumeNow fun w hw => hnow hsuspended hfree rc fds queued w hw
    rw [hlate]
    exact hlater hsuspended hfree fds queued deadline w (hw (Int.natCast_nonneg _))
  · have hreopen : .openLink = e.linkKind.reopen := (if_neg hopen).symm
    refine tells_bind (tells_reopen (fun rc fds queued => ?_) hreopen)
    rw [← hreopen] at hfail hnow ⊢
    refine tells_ite (fun hfailed => tells_pure ?_) fun hok => tells_resumeNow fun w hw => ?_
    · have hclosed : b.wiring.link.after e.linkKind fds queued .openLink rc = .closed :=
        if_neg hfailed
      rw [hclosed]
      exact hfail hsuspended rc
    · obtain rfl : rc = 0 := not_not.mp hok
      exact hnow hsuspended hfree 0 fds queued w hw

theorem tells_attemptReconnect (hnothing : R () [] c)
    (htry : c.stage.suspended = false → c.stage.linkConnecting = false →
      c.stage.linkDisconnected → c.stage.blocks e.seat = false →
      (∀ rc fds queued, R () [.link e.linkKind.reopen rc]
        ⟨c.stage, c.link.after e.linkKind fds queued e.linkKind.reopen rc, c.watched⟩) ∧
      (∀ fds queued w, Brought e ⟨c.stage, .opened e.linkKind fds queued, c.watched⟩ w →
        R () (.link e.linkKind.reopen 0 :: .linkUp (e.seat c.stage.epoch) :: c.stage.answer)
          ⟨(c.stage.up e.seat).announced, .opened e.linkKind fds queued, w⟩) ∧
      (∀ fds queued deadline w, Watched e fds.1 ⟨false, true, true⟩ c.watched w →
        R () [.link .connectBegin 1]
          ⟨c.stage.connecting none deadline, .opened e.linkKind fds queued, w⟩)) :
    LinkTells e attemptReconnect R c := by
  refine tells_env (tells_get ?_)
  rintro b rfl
  refine tells_ite (fun _ => tells_pure hnothing) fun hidle => ?_
  refine tells_ite (fun _ => tells_pure hnothing) fun hdown => ?_
  push Not at hidle hdown
  have hsuspended : b.wiring.stage.suspended = false := Bool.eq_false_of_not_eq_true hidle.1
  have hconnecting : b.wiring.stage.linkConnecting = false := Bool.eq_false_of_not_eq_true hidle.2
  have hlost : b.wiring.stage.linkDisconnected := Bool.eq_true_of_not_eq_false hdown.1
  refine tells_bind (tells_plain (plain_ask _) fun now => ?_)
  refine tells_ite (fun _ => tells_pure hnothing) fun _ => ?_
  refine tells_bind (tells_brokerIdentityBlocksReopen ?_)
  refine tells_ite (fun _ => ?_) fun hgate => ?_
  · refine tells_bind (tells_plain (plain_ask _) fun now => ?_)
    exact tells_setStage id (fun _ => rfl) hnothing
  obtain ⟨hfail, hup, hlater⟩ :=
    htry hsuspended hconnecting hlost (Bool.eq_false_of_not_eq_true hgate)
  refine tells_ite (fun hbegin => ?_) fun hopen => ?_
  · have hreopen : .connectBegin = e.linkKind.reopen := (if_pos hbegin).symm
    refine tells_bind (tells_reopen (fun rc fds queued => ?_) hreopen)
    rw [← hreopen] at hfail hup ⊢
    refine tells_ite (fun hzero => tells_linkBringUp fun w hw => ?_) fun _ =>
      tells_ite (fun hone => tells_linkWatchConnecting fun deadline w hw => ?_) fun _ =>
        tells_plain plain_linkScheduleRetry fun _ => hfail rc fds queued
    · subst hzero
      exact hup fds queued w hw
    · subst hone
      exact hlater fds queued deadline w (hw (Int.natCast_nonneg _))
  · have hreopen : .openLink = e.linkKind.reopen := (if_neg hopen).symm
    refine tells_bind (tells_reopen (fun rc fds queued => ?_) hreopen)
    rw [← hreopen] at hfail hup ⊢
    refine tells_ite (fun hzero => tells_linkBringUp fun w hw => ?_) fun _ =>
      tells_plain plain_linkScheduleRetry fun _ => hfail rc fds queued
    subst hzero
    exact hup fds queued w hw

theorem tells_handleLinkConnecting {flags : EpollFlags} (hnothing : R () [] c)
    (hgiveUp : ∀ polled rc w, (polled = [] ∨ ∃ rc, polled = [.link .connectPoll rc]) →
      R () (polled ++ .link .closeLink rc :: c.stage.failure) ⟨c.stage.gaveUp, .closed, w⟩)
    (hwait : ∀ rc, R () [.link .connectPoll rc] c)
    (hup : ∀ w, Brought e c w →
      R () (.link .connectPoll 1 :: .linkUp (e.seat c.stage.epoch) :: c.stage.answer)
        ⟨(c.stage.up e.seat).announced, c.link, w⟩) :
    LinkTells e (handleLinkConnecting flags) R c := by
  have hpoor := tells_linkConnectGiveUp (e := e) fun rc w => hgiveUp [] rc w (.inl rfl)
  refine tells_env (tells_ite (fun _ => hpoor) fun _ => ?_)
  refine tells_ite (fun _ => tells_bind (tells_ite (fun _ => ?_) fun _ => ?_)) fun _ =>
    tells_pure hnothing
  · refine tells_callLink fun rc fds queued => ?_
    rw [unwatched_of_ne (by simp)]
    refine tells_ite (fun hone => tells_linkBringUp fun w hw => ?_) fun _ => tells_ite
      (fun _ => tells_linkConnectGiveUp fun rc' w => ?_) fun _ => tells_pure (hwait rc)
    · subst hone
      exact hup w hw
    · exact hgiveUp [.link .connectPoll rc] rc' w (.inr ⟨rc, rfl⟩)
  · refine tells_pure (tells_ite (fun h => absurd h (by decide)) fun _ => ?_)
    exact tells_ite (fun _ => hpoor) fun h => absurd (by decide) h

theorem tells_checkConnectDeadline (hnothing : R () [] c)
    (hgiveUp : c.stage.linkConnecting → ∀ rc w,
      R () (.link .closeLink rc :: c.stage.failure) ⟨c.stage.gaveUp, .closed, w⟩) :
    LinkTells e checkConnectDeadline R c := by
  refine tells_get ?_
  rintro b rfl
  refine tells_ite (fun hconnecting => ?_) fun _ => tells_pure hnothing
  refine tells_bind (tells_plain (plain_ask _) fun now => ?_)
  exact tells_ite (fun _ => tells_linkConnectGiveUp (hgiveUp hconnecting)) fun _ =>
    tells_pure hnothing

end Smolmux.Broker
