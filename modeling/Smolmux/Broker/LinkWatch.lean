import Smolmux.Broker.ResumeLedger

/-! What the epoll set says of the link: whether the broker hears that a link with
bytes to write has room for them, and that a connect is through. -/

namespace Smolmux.Broker
open Protocol Smolmux.Frame List

variable {ρ α : Type}

/-- A link that is away has no bytes to write; one that is there is watched, for
output as well when it has bytes to write. -/
structure Wiring.Attended (e : Env ρ) (c : Wiring) : Prop where
  writer : 0 ≤ c.link.fd → 0 ≤ c.link.writer e.linkKind
  idle : c.stage.Away ∨ c.link.fd < 0 → c.link.pending = false
  read : ¬c.stage.Away → 0 ≤ c.link.fd → (c.watched c.link.fd).isSome = true
  write : ¬c.stage.Away → (e.linkKind.hasWritePending && c.link.pending) = true →
    ∃ i, c.watched (c.link.writer e.linkKind) = some i ∧ i.output = true

variable {op : LinkOp}

section Links

variable {kind : LinkKind} {s : LinkState} {fds : Nat × Nat} {queued : Bool} {rc : Int}

theorem after_minor (hop : op.isMinor) (hkind : kind.queuesParams = false) :
    s.after kind fds queued op rc = s := by
  cases op with
  | setParam | sendBreak =>
    simp only [LinkState.after, hkind, Bool.false_and, Bool.or_false]
    split <;> rfl
  | _ => cases hop

theorem pending_opened (hkind : kind.queuesParams = false) :
    (LinkState.opened kind fds queued).pending = false := by
  simp [LinkState.opened, hkind]

theorem writer_opened : 0 ≤ (LinkState.opened kind fds queued).writer kind := by
  unfold LinkState.writer
  split <;> exact Int.natCast_nonneg _

theorem writer_closed (h : 0 ≤ LinkState.closed.fd) : 0 ≤ LinkState.closed.writer kind :=
  absurd h (by decide)

theorem writer_after (op : LinkOp) (h : op.needsOpen) :
    (s.after kind fds queued op rc).writer kind = s.writer kind := by
  cases op with
  | writeData | setParam | sendBreak | flushWriteQueue =>
    simp only [LinkState.after]
    split <;> rfl
  | _ => cases h

theorem after_reopen (kind : LinkKind) (fds : Nat × Nat) (queued : Bool) (rc : Int) (s : LinkState) :
    s.after kind fds queued kind.reopen rc = .opened kind fds queued ∨
      s.after kind fds queued kind.reopen rc = .closed := by
  unfold LinkKind.reopen
  split
  · by_cases h : rc < 0
    · exact .inr (if_pos h)
    · exact .inl (after_connectBegin h s)
  · by_cases h : rc = 0
    · exact .inl (if_pos h)
    · exact .inr (if_neg h)

end Links

variable (seat : Nat → Option Bytes)

section Attended

variable {e : Env ρ} {c : Wiring} {st : Stage} {w : Int → Option Interest}

theorem Wiring.attended_of_away {link : LinkState} (h : st.Away)
    (hwriter : 0 ≤ link.fd → 0 ≤ link.writer e.linkKind) (hidle : link.pending = false) :
    Wiring.Attended e ⟨st, link, w⟩ :=
  ⟨hwriter, fun _ => hidle, fun hnot => absurd h hnot, fun hnot => absurd h hnot⟩

theorem Wiring.attended_closed (h : st.Away) : Wiring.Attended e ⟨st, .closed, w⟩ :=
  attended_of_away h writer_closed rfl

theorem Wiring.Attended.restage (h : c.Attended e) (haway : st.Away ↔ c.stage.Away) :
    Wiring.Attended e ⟨st, c.link, c.watched⟩ where
  writer := h.writer
  idle hst := h.idle (hst.imp_left haway.mp)
  read hst := h.read (mt haway.mpr hst)
  write hst := h.write (mt haway.mpr hst)

theorem Wiring.Attended.refreshed {link : LinkState} (h : c.Attended e) (hroomy : e.Roomy)
    (hup : ¬c.stage.Away) (hopen : 0 ≤ c.link.fd) (hfd : link.fd = c.link.fd)
    (hwriter : link.writer e.linkKind = c.link.writer e.linkKind)
    (hw : Refreshed e ⟨c.stage, link, c.watched⟩ w) : Wiring.Attended e ⟨c.stage, link, w⟩ := by
  have hwrite := h.writer hopen
  have hsome := h.read hup hopen
  rw [← hfd] at hopen hsome
  rw [← hwriter] at hwrite
  exact ⟨fun _ => hwrite, fun haway => absurd haway (not_or.mpr ⟨hup, not_lt.mpr hopen⟩),
    fun _ _ => hw.read hsome, fun _ => hw.write hroomy hsome hopen hwrite⟩

theorem connecting_up (st : Stage) :
    (st.up seat).linkConnecting = false := by
  unfold Stage.up Stage.recorded
  split <;> rfl

theorem lost_up (st : Stage) :
    (st.up seat).linkDisconnected = false := by
  unfold Stage.up Stage.recorded
  split <;> rfl

theorem away_up (st : Stage) :
    (st.up seat).Away ↔ st.suspended := by
  simp [Stage.Away, Stage.suspended_up, lost_up]

theorem away_gaveUp (st : Stage) : st.gaveUp.Away := by
  unfold Stage.gaveUp
  split <;> exact .inr rfl

theorem Wiring.attended_brought {seat : Nat → Option Bytes} (hroomy : e.Roomy)
    (hwriter : 0 ≤ c.link.fd → 0 ≤ c.link.writer e.linkKind)
    (hidle : c.stage.Away ∨ c.link.fd < 0 → c.link.pending = false) (hw : Brought e c w)
    (haway : st.Away ↔ (c.stage.up seat).Away) : Wiring.Attended e ⟨st, c.link, w⟩ := by
  rw [away_up] at haway
  refine ⟨hwriter, fun hst => hidle (hst.imp_left fun h => .inl (haway.mp h)),
    fun _ hopen => hw.read hroomy hopen, fun _ hpending => ?_⟩
  have hthere : ¬(c.stage.Away ∨ c.link.fd < 0) := fun h => by
    rw [hidle h, Bool.and_false] at hpending
    cases hpending
  rw [not_or, not_lt] at hthere
  exact hw.write hroomy hthere.2 (hwriter hthere.2) hthere.1 hpending

end Attended

variable {p : M ρ α}

section Attending

variable {e : Env ρ} {b : Broker ρ}

def attending (e : Env ρ) : Frame (Broker ρ) := ofInvariant fun b => b.wiring.Attended e

theorem attending_of_tells
    (h : b.wiring.Attended e → LinkTells e p (fun _ _ c => c.Attended e) b.wiring) :
    (attending e).rel b (p e b).2 := fun hb => by
  obtain ⟨evs, -, hc⟩ := h hb b rfl
  exact hc

theorem attending_of_still {b' : Broker ρ} (h : Still linkSide b b') : (attending e).rel b b' := by
  intro hb
  have hwiring : b'.wiring = b.wiring := (Prod.mk.inj (resting_of_still h)).1
  rwa [hwiring]

theorem attending_minor (hkind : e.linkKind.queuesParams = false) (hop : op.isMinor)
    (ev : Int → Event) : (attending e).KeepsAt e (callLinkAs op ev) := by
  refine ⟨fun b => attending_of_tells fun hb => tells_callLinkAs fun rc fds queued => ?_⟩
  have hne : op ≠ .closeLink := by
    rintro rfl
    cases hop
  rw [after_minor hop hkind, unwatched_of_ne hne]
  exact hb

theorem attending_brokerDoWrite (hroomy : e.Roomy) (data : Bytes) :
    (attending e).KeepsAt e (brokerDoWrite data) := by
  refine ⟨fun b => attending_of_tells fun hb => tells_brokerDoWrite (fun _ _ => hb) fun hup =>
    ⟨fun _ => hb, fun rc fds queued w hopen hw => ?_⟩⟩
  exact hb.refreshed hroomy hup hopen (Line.fd_after _ rfl ..) (writer_after _ rfl) hw

theorem traffic_attending (hroomy : e.Roomy) (hkind : e.linkKind.queuesParams = false)
    {O : Sector → Bool} (hO : Apart O linkSide) : Traffic e O (attending e) where
  other _ _ h := attending_of_still (Moves.still hO h)
  call _ hop := attending_minor hkind hop _
  callAs _ ev _ hop _ _ _ := attending_minor hkind hop ev
  write := attending_brokerDoWrite hroomy

theorem attending_flushQueue (hroomy : e.Roomy) : (attending e).KeepsAt e flushQueue := by
  refine ⟨fun b => attending_of_tells fun hb => tells_flushQueue (fun _ => hb)
    (fun hdown rc fds queued => ?_) fun hup rc fds queued w hopen hw => ?_⟩
  · refine Wiring.attended_of_away hdown (fun hopen => ?_) ?_
    · rw [writer_after _ rfl]
      rw [Line.fd_after _ rfl] at hopen
      exact hb.writer hopen
    · have hidle : b.wiring.link.pending = false := hb.idle (.inl hdown)
      simp only [LinkState.after]
      split
      · rfl
      · exact hidle
  · exact hb.refreshed hroomy hup hopen (Line.fd_after _ rfl ..) (writer_after _ rfl) hw

theorem attending_brokerDoResume (hroomy : e.Roomy) (hkind : e.linkKind.queuesParams = false) :
    (attending e).KeepsAt e brokerDoResume := by
  refine ⟨fun b => attending_of_tells fun hb => tells_brokerDoResume (fun _ => hb)
    (fun hsuspended _ => Wiring.attended_closed (.inl hsuspended))
    (fun _ _ rc fds queued w hw => ?_) fun _ _ fds queued deadline w hw => ?_⟩
  · exact Wiring.attended_brought hroomy (fun _ => writer_opened) (fun _ => pending_opened hkind) hw
      Iff.rfl
  · refine ⟨fun _ => writer_opened, fun _ => pending_opened hkind, fun _ _ => ?_,
      fun _ hpending => ?_⟩
    · exact Option.isSome_of_eq_some (hw.own hroomy)
    · rw [pending_opened hkind, Bool.and_false] at hpending
      cases hpending

theorem attending_attemptReconnect (hroomy : e.Roomy) (hkind : e.linkKind.queuesParams = false) :
    (attending e).KeepsAt e attemptReconnect := by
  refine ⟨fun b => attending_of_tells fun hb => tells_attemptReconnect hb fun _ _ hlost _ =>
    ⟨fun rc fds queued => ?_, fun fds queued w hw => ?_, fun fds queued deadline w _ => ?_⟩⟩
  · rcases after_reopen e.linkKind fds queued rc b.wiring.link with h | h
    · rw [h]
      exact Wiring.attended_of_away (.inr hlost) (fun _ => writer_opened) (pending_opened hkind)
    · rw [h]
      exact Wiring.attended_closed (.inr hlost)
  · exact Wiring.attended_brought hroomy (fun _ => writer_opened) (fun _ => pending_opened hkind) hw
      Iff.rfl
  · exact Wiring.attended_of_away (.inr hlost) (fun _ => writer_opened) (pending_opened hkind)

theorem attending_handleLinkConnecting (hroomy : e.Roomy) (flags : EpollFlags) :
    (attending e).KeepsAt e (handleLinkConnecting flags) := by
  refine ⟨fun b => attending_of_tells fun hb => tells_handleLinkConnecting hb
    (fun _ _ w _ => Wiring.attended_closed (away_gaveUp _)) (fun _ => hb) fun w hw => ?_⟩
  exact Wiring.attended_brought hroomy hb.writer hb.idle hw Iff.rfl

theorem loopFrame_attending (hroomy : e.Roomy) (hkind : e.linkKind.queuesParams = false) :
    LoopFrame e (attending e) := by
  refine loopFrame_of_still (T := linkSide) rfl rfl (fun b hb => hb.restage Iff.rfl)
    (fun _ _ => attending_of_still) fun op b _ hapart _ => ?_
  cases op with
  | brk | startFlood | feedFlood | floodTimer | cancelFlood =>
    exact traffic_run rfl (traffic_attending hroomy hkind (apart_of_all rfl))
  | write data => exact (attending_brokerDoWrite hroomy data).rel b
  | param key value => exact (attending_minor hkind rfl _).rel b
  | flush => exact (attending_flushQueue hroomy).rel b
  | suspend =>
    exact attending_of_tells (b := (stallDisarm e b).2) fun _ => tells_linkSuspend fun _ _ =>
      Wiring.attended_closed (.inl rfl)
  | resume => exact (attending_brokerDoResume hroomy hkind).rel b
  | nameResume rid =>
    exact attending_of_tells fun hb => tells_nameResume (fun _ => hb.restage Iff.rfl) hb
  | lost =>
    exact attending_of_tells (b := (stallDisarm e b).2) fun _ => tells_linkLost fun _ _ =>
      Wiring.attended_closed (.inr rfl)
  | reconnect => exact (attending_attemptReconnect hroomy hkind).rel b
  | connecting flags => exact (attending_handleLinkConnecting hroomy flags).rel b
  | deadline =>
    exact attending_of_tells fun hb => tells_checkConnectDeadline hb fun _ _ _ =>
      Wiring.attended_closed (away_gaveUp _)
  | _ => exact absurd (apart_of_all rfl) hapart

theorem attended_brokerInit (regex : Regex ρ) {cfg : Config} (hqueued : cfg.queued = false) :
    (brokerInit regex cfg).wiring.Attended e where
  writer _ := by
    unfold LinkState.writer
    split <;> exact Int.natCast_nonneg _
  idle _ := hqueued
  read _ _ := by simp [Broker.wiring, brokerInit, watchedInit]
  write _ hpending := by
    have hidle : (brokerInit regex cfg).wiring.link.pending = false := hqueued
    rw [hidle, Bool.and_false] at hpending
    cases hpending

end Attending

/-- No stuck bytes: whenever the broker comes back to its loop and the link is up with
bytes to write, its writer is watched for output. This is for links whose queue takes
nothing but written data, and an epoll set with room. -/
theorem queued_bytes_watched (e : Env ρ) (hroomy : e.Roomy)
    (hkind : e.linkKind.queuesParams = false) (regex : Regex ρ) (cfg : Config)
    (hqueued : cfg.queued = false) (steps : List Step) :
    let b := runSteps e (brokerInit regex cfg) steps
    b.suspended = false → b.linkDisconnected = false → b.linkConnecting = false →
      (e.linkKind.hasWritePending && b.link.pending) = true →
        ∃ i, b.watched (b.link.writer e.linkKind) = some i ∧ i.output = true := by
  intro b hsuspended hup _ hpending
  have hattended : b.wiring.Attended e :=
    (loopFrame_attending hroomy hkind).runSteps _ steps (attended_brokerInit regex hqueued)
  refine hattended.write (fun haway => ?_) hpending
  rcases haway with h | h
  · exact Bool.false_ne_true (hsuspended.symm.trans h)
  · exact Bool.false_ne_true (hup.symm.trans h)

def queueEnv (queuesParams : Bool) : Env Unit :=
  { plainEnv with
    linkKind := ⟨false, true, true, false, false, false, false, queuesParams⟩
    queued := fun _ => true }

def joinSteps (more : List Step) : List Step :=
  [.event (.listen (plainReg 1)), .message 1 (helloMsg "a" [])] ++ more

theorem queued_bytes_watched_send :
    let b := runSteps (queueEnv false) (plainInit []) (joinSteps [.message 1 sendMsg])
    b.link.pending = true ∧
      ∃ i, b.watched (b.link.writer (queueEnv false).linkKind) = some i ∧ i.output = true := by
  intro b
  have hpending : b.link.pending = true := by decide +kernel
  refine ⟨hpending, queued_bytes_watched (queueEnv false) (fun _ => rfl) rfl plainEnv.regex
    (plainConfig []) rfl _ ?_ ?_ ?_ (Bool.and_eq_true_iff.mpr ⟨rfl, hpending⟩)⟩
  · decide +kernel
  · decide +kernel
  · decide +kernel

/-- A baud rate that a link sends to its peer waits in the queue, and nobody looks for
room to write it. -/
theorem queued_command_unwatched :
    let b := runSteps (queueEnv true) (plainInit []) (joinSteps
      [.message 1 ⟨.setBaud, some (.obj [("baud", .num 9600)])⟩])
    b.suspended = false ∧ b.linkDisconnected = false ∧ b.linkConnecting = false ∧
      ((queueEnv true).linkKind.hasWritePending && b.link.pending) = true ∧
        b.watched (b.link.writer (queueEnv true).linkKind) = some ⟨true, false, true⟩ := by
  decide +kernel

structure Wiring.Awaited (deadline : Rat) (c : Wiring) : Prop where
  live : c.stage.suspended = false
  lost : c.stage.linkDisconnected = true
  connecting : c.stage.linkConnecting = true
  deadline : c.stage.connectDeadline = deadline
  heard : c.watched c.link.fd = some ⟨false, true, true⟩

section Awaited

variable {e : Env ρ} {b b' : Broker ρ} {deadline : Rat}

theorem Wiring.Awaited.away {c : Wiring} (h : c.Awaited deadline) : c.stage.Away := .inr h.lost

/-- The clock has been read past the deadline, or the broker has been suspended, since
the events and questions that are given. -/
def Excused (e : Env ρ) (deadline : Rat) (since : Nat) (told : List Event) (b : Broker ρ) :
    Prop :=
  (∃ n, since ≤ n ∧ n < b.queries ∧ deadline < e.mono n) ∨
    ∃ evs, b.linkEvents = told ++ evs ∧ ∃ pending, .resume (.interrupted pending) ∈ evs

variable {since : Nat} {told : List Event}

theorem Excused.mono (h : b.Excused e deadline since told) (hforward : b.queries ≤ b'.queries)
    (hgrow : ∃ evs, b'.linkEvents = b.linkEvents ++ evs) : b'.Excused e deadline since told := by
  rcases h with ⟨n, hn, hlt, hlate⟩ | ⟨evs, htold, pending, hmem⟩
  · exact .inl ⟨n, hn, hlt.trans_le hforward, hlate⟩
  · obtain ⟨more, hmore⟩ := hgrow
    refine .inr ⟨evs ++ more, ?_, pending, mem_append_left _ hmem⟩
    rw [hmore, htold, append_assoc]

def awaiting (e : Env ρ) (deadline : Rat) (since : Nat) (told : List Event) : Frame (Broker ρ) :=
  ofInvariant fun b => (since ≤ b.queries ∧ ∃ evs, b.linkEvents = told ++ evs) ∧
    (b.wiring.Awaited deadline ∨ b.Excused e deadline since told)

theorem awaiting_of_still (h : Still linkSide b b') :
    (awaiting e deadline since told).rel b b' := by
  rintro ⟨⟨hsince, hgrown⟩, hb⟩
  have hrel := Prod.mk.inj (resting_of_still h)
  have hwiring : b'.wiring = b.wiring := hrel.1
  have htold : b'.linkEvents = b.linkEvents := hrel.2
  refine ⟨⟨hsince.trans h.forward, by rwa [htold]⟩, hb.imp (fun hwait => by rwa [hwiring]) ?_⟩
  exact fun hexcused => hexcused.mono h.forward ⟨[], by rw [htold, append_nil]⟩

theorem awaiting_of_moves {S : Sector → Bool} (hmoves : Moves S b b')
    (h : since ≤ b.queries → (∃ evs, b.linkEvents = told ++ evs) → b.wiring.Awaited deadline →
      b'.wiring.Awaited deadline ∨ b'.Excused e deadline since told) :
    (awaiting e deadline since told).rel b b' := by
  rintro ⟨⟨hsince, evs, htold⟩, hb⟩
  have hgrow : ∃ more, b'.linkEvents = b.linkEvents ++ more := by
    obtain ⟨added, htrace, -⟩ := growing_of_calm hmoves.calm
    refine ⟨added.filter fun ev => ev.sector.any linkSide, ?_⟩
    rw [Broker.linkEvents, Broker.about, htrace, filter_append]
    rfl
  refine ⟨⟨hsince.trans hmoves.forward, ?_⟩, hb.elim (h hsince ⟨evs, htold⟩) fun hexcused =>
    .inr (hexcused.mono hmoves.forward hgrow)⟩
  obtain ⟨more, hmore⟩ := hgrow
  exact ⟨evs ++ more, by rw [hmore, htold, append_assoc]⟩

theorem awaiting_of_tells {S : Sector → Bool} (hmoves : Moves S b (p e b).2)
    (h : b.wiring.Awaited deadline → LinkTells e p (fun _ evs c => c.Awaited deadline ∨
      ∃ pending, .resume (.interrupted pending) ∈ evs) b.wiring) :
    (awaiting e deadline since told).rel b (p e b).2 := by
  refine awaiting_of_moves hmoves fun _ hgrown hwait => ?_
  obtain ⟨evs, htold⟩ := hgrown
  obtain ⟨more, hmore, hc⟩ := h hwait b rfl
  refine hc.imp_right fun hinterrupted => .inr ⟨evs ++ more, ?_, ?_⟩
  · rw [hmore, htold, append_assoc]
  · obtain ⟨pending, hmem⟩ := hinterrupted
    exact ⟨pending, mem_append_right _ hmem⟩

theorem Wiring.Awaited.called {c : Wiring} (h : c.Awaited deadline) (hop : op.needsOpen)
    (kind : LinkKind) (fds : Nat × Nat) (queued : Bool) (rc : Int) :
    Wiring.Awaited deadline ⟨c.stage, c.link.after kind fds queued op rc, c.watched⟩ := by
  refine ⟨h.live, h.lost, h.connecting, h.deadline, ?_⟩
  rw [Line.fd_after op hop]
  exact h.heard

theorem awaiting_minor (hop : op.isMinor) (ev : Int → Event)
    (hcalm : ∀ rc idents, CalmEvent idents (ev rc)) :
    (awaiting e deadline since told).KeepsAt e (callLinkAs op ev) := by
  have hne : op ≠ .closeLink := by
    rintro rfl
    cases hop
  have hmoves : (moves fun _ => true).Keeps (callLinkAs op ev : M ρ Int) :=
    moves_callLinkAs op rfl hcalm fun _ _ _ => rfl
  refine ⟨fun b => awaiting_of_tells (hmoves.rel e b) fun hwait =>
    tells_callLinkAs fun rc fds queued => .inl ?_⟩
  rw [unwatched_of_ne hne]
  exact hwait.called (Line.needsOpen_of_isMinor hop) ..

theorem awaiting_brokerDoWrite (data : Bytes) :
    (awaiting e deadline since told).KeepsAt e (brokerDoWrite data) := by
  have hmoves : (moves fun _ => true).Keeps (brokerDoWrite data : M ρ Int) :=
    moves_brokerDoWrite rfl data
  exact ⟨fun b => awaiting_of_tells (hmoves.rel e b) fun hwait =>
    tells_brokerDoWrite (fun _ _ => .inl hwait) fun hup => absurd hwait.away hup⟩

theorem traffic_awaiting {O : Sector → Bool} (hO : Apart O linkSide) :
    Traffic e O (awaiting e deadline since told) where
  other _ _ h := awaiting_of_still (Moves.still hO h)
  call _ hop := awaiting_minor hop _ fun _ _ => trivial
  callAs _ ev _ hop _ _ hcalm := awaiting_minor hop ev hcalm
  write := awaiting_brokerDoWrite

theorem awaiting_checkConnectDeadline :
    (awaiting e deadline since told).KeepsAt e checkConnectDeadline := by
  refine ⟨fun b => awaiting_of_moves (moves_run .deadline e b) fun hsince _ hwait => ?_⟩
  have hasked : checkConnectDeadline e b = (if b.linkConnectDeadline < e.mono b.queries then
      linkConnectGiveUp else pure ()) e (nowMonotonic e b).2 := by
    rw [checkConnectDeadline, Proc.bind_apply, Proc.get_apply,
      if_pos (show b.linkConnecting = true from hwait.connecting), Proc.bind_apply]
    rfl
  by_cases hlate : deadline < e.mono b.queries
  · refine .inr (.inl ⟨b.queries, hsince, ?_, hlate⟩)
    have hforward : (moves fun _ => true).Keeps (if b.linkConnectDeadline < e.mono b.queries then
        linkConnectGiveUp else pure () : M ρ Unit) :=
      keeps_if (fun _ => moves_linkConnectGiveUp rfl rfl)
    have hnext : b.queries < (nowMonotonic e b).2.queries := Nat.lt_succ_self _
    exact hnext.trans_le (hasked ▸ (hforward.rel e _).forward)
  · have hdeadline : b.linkConnectDeadline = deadline := hwait.deadline
    rw [hasked, hdeadline, if_neg hlate]
    exact .inl hwait

/-- Whatever happens but events of the link, the connect is waited for: writes are
refused, the interest in a lost link is not looked at, and nothing else touches the
link that is not a reason to give the connect up. -/
theorem deskFrame_awaiting : DeskFrame e (awaiting e deadline since told) := by
  refine deskFrame_of_clerical (T := linkSide)
    (fun _ _ h => awaiting_of_still (still_of_clerical rfl h)) (fun _ _ => awaiting_of_still)
    fun op b hturn hapart hready => ?_
  have hmoves := moves_run op e b
  cases op with
  | brk | startFlood | feedFlood | floodTimer | cancelFlood =>
    exact traffic_run rfl (traffic_awaiting (apart_of_all rfl))
  | write data => exact (awaiting_brokerDoWrite data).rel b
  | param key value => exact (awaiting_minor rfl (.link _) fun _ _ => trivial).rel b
  | flush =>
    refine awaiting_of_tells hmoves fun hwait => tells_flushQueue (fun _ => .inl hwait)
      (fun _ rc fds queued => .inl (hwait.called rfl ..)) fun hup => absurd hwait.away hup
  | suspend =>
    exact awaiting_of_tells (p := do stallDisarm; linkSuspend) hmoves fun _ =>
      tells_bind (tells_setStage id (fun _ => rfl) (tells_linkSuspend fun _ _ =>
        .inr ⟨_, mem_cons_self⟩))
  | resume =>
    refine awaiting_of_tells hmoves fun hwait => ?_
    have hlive : ¬b.wiring.stage.suspended := Bool.eq_false_iff.mp hwait.live
    exact tells_brokerDoResume (fun _ => .inl hwait) (fun h => absurd h hlive)
      (fun h => absurd h hlive) fun h => absurd h hlive
  | nameResume rid =>
    refine awaiting_of_tells hmoves fun hwait => tells_nameResume (fun _ => .inl ?_) (.inl hwait)
    exact ⟨hwait.live, hwait.lost, hwait.connecting, hwait.deadline, hwait.heard⟩
  | lost =>
    refine awaiting_of_tells (p := do stallDisarm; linkLost) hmoves fun hwait => ?_
    have hlost : b.linkDisconnected := hwait.lost
    exact absurd (hready.symm.trans hlost) Bool.false_ne_true
  | reconnect =>
    exact awaiting_of_tells hmoves fun hwait => tells_attemptReconnect (.inl hwait) fun _ hidle =>
      absurd (hidle.symm.trans hwait.connecting) Bool.false_ne_true
  | deadline => exact awaiting_checkConnectDeadline.rel b
  | connecting flags => cases hturn
  | _ => exact absurd (apart_of_all rfl) hapart

theorem awaited_of_begun (hp : LinkTells e p (fun _ _ c => c.stage.linkConnecting →
      c.Awaited c.stage.connectDeadline) b.wiring) (h : (p e b).2.linkConnecting) :
    (p e b).2.wiring.Awaited (p e b).2.linkConnectDeadline := by
  obtain ⟨evs, -, hc⟩ := hp b rfl
  exact hc h

theorem awaited_brokerDoResume (hroomy : e.Roomy) (hlost : b.linkDisconnected)
    (hidle : b.linkConnecting = false) : LinkTells e brokerDoResume (fun _ _ c =>
      c.stage.linkConnecting → c.Awaited c.stage.connectDeadline) b.wiring := by
  have hnot : ¬b.wiring.stage.linkConnecting := Bool.eq_false_iff.mp hidle
  refine tells_brokerDoResume (fun _ h => absurd h hnot) (fun _ _ h => absurd h hnot)
    (fun _ _ rc fds queued w _ h => ?_) fun _ _ fds queued deadline w hw _ => ?_
  · rw [connecting_up] at h
    cases h
  · exact ⟨rfl, hlost, rfl, rfl, hw.own hroomy⟩

theorem awaited_attemptReconnect (hroomy : e.Roomy) (hidle : b.linkConnecting = false) :
    LinkTells e attemptReconnect (fun _ _ c =>
      c.stage.linkConnecting → c.Awaited c.stage.connectDeadline) b.wiring := by
  have hnot : ¬b.wiring.stage.linkConnecting := Bool.eq_false_iff.mp hidle
  refine tells_attemptReconnect (fun h => absurd h hnot) fun hlive _ hlost _ =>
    ⟨fun _ _ _ h => absurd h hnot, fun _ _ _ _ h => ?_, fun fds queued deadline w hw _ => ?_⟩
  · have hup : (b.wiring.stage.up e.seat).linkConnecting := h
    rw [connecting_up] at hup
    cases hup
  · exact ⟨hlive, hlost, rfl, rfl, hw.own hroomy⟩

theorem linkUp_of_connected {flags : EpollFlags} (hwait : b.wiring.Awaited deadline)
    (hpoll : e.linkKind.hasConnectPoll) (hflags : flags.output ∧ flags.hangup = false)
    (hrc : e.rc b.queries = 1) (reads : List LinkRead) :
    let b' := (step (.event (.link flags reads)) e b).2
    b'.linkConnecting = false ∧ b'.linkDisconnected = false ∧
      ∃ evs seat, b'.linkEvents = b.linkEvents ++ evs ∧ .linkUp seat ∈ evs := by
  intro b'
  have hlooked : step (.event (.link flags reads)) e b = handleLinkConnecting flags e b := by
    change (if b.linkConnecting ∧ b.suspended = false then handleLinkConnecting flags
      else _) e b = _
    rw [if_pos ⟨hwait.connecting, hwait.live⟩]
  have hanswer : (callLink .connectPoll e b).1 = 1 := hrc
  have hrun : handleLinkConnecting flags e b =
      (do let _ ← callLink .connectPoll; linkBringUp true : M ρ Unit) e b := by
    rw [handleLinkConnecting, Proc.bind_apply, Proc.env_apply, if_neg (by simp [hflags.2]),
      if_pos hflags.1, if_pos hpoll, Proc.bind_apply, if_pos hanswer, Proc.bind_apply]
  have htells : LinkTells e (do let _ ← callLink .connectPoll; linkBringUp true) (fun _ evs c =>
      c.stage.linkConnecting = false ∧ c.stage.linkDisconnected = false ∧
        ∃ seat, .linkUp seat ∈ evs) b.wiring := by
    refine tells_bind (tells_callLink fun rc fds queued => tells_linkBringUp fun w _ => ?_)
    exact ⟨connecting_up _ _, lost_up _ _, _, mem_cons_of_mem _ mem_cons_self⟩
  obtain ⟨evs, hevs, hconnecting, hup, seat, hmem⟩ := htells b rfl
  rw [← hrun, ← hlooked] at hevs hconnecting hup
  exact ⟨hconnecting, hup, evs, seat, hevs, hmem⟩

theorem awaited_runSteps {steps : List Step} (hwait : b.wiring.Awaited b.linkConnectDeadline)
    (hdesk : ∀ s ∈ steps, s.atDesk)
    (hclock : ∀ n, b.queries ≤ n → n < (runSteps e b steps).queries →
      e.mono n ≤ b.linkConnectDeadline)
    (hsuspend : ∀ evs pending, (runSteps e b steps).linkEvents = b.linkEvents ++ evs →
      .resume (.interrupted pending) ∉ evs) :
    (runSteps e b steps).wiring.Awaited b.linkConnectDeadline := by
  have hstart : ∃ evs, b.linkEvents = b.linkEvents ++ evs := ⟨[], (append_nil _).symm⟩
  have hrun : (awaiting e b.linkConnectDeadline b.queries b.linkEvents).KeepsAt e
      (Proc.each step steps) := keepsAt_each steps fun s hs => deskFrame_awaiting.step (hdesk s hs)
  rcases (hrun.rel b ⟨⟨Nat.le_refl _, hstart⟩, .inl hwait⟩).2 with h | h | h
  · exact h
  · obtain ⟨n, hn, hlt, hlate⟩ := h
    exact absurd hlate (not_lt.mpr (hclock n hn hlt))
  · obtain ⟨evs, htold, pending, hmem⟩ := h
    exact absurd hmem (hsuspend evs pending htold)

end Awaited

/-- A connect that a resume or a reconnect has begun while the link was lost is waited
for whatever clients send meanwhile, and when it is through the link comes up. -/
theorem connect_completes {e : Env ρ} (hroomy : e.Roomy)
    (hpoll : e.linkKind.hasConnectPoll = true) {b₀ b : Broker ρ}
    (hstart : b = (attemptReconnect e b₀).2 ∨ b = (brokerDoResume e b₀).2)
    (hidle : b₀.linkConnecting = false) (hlost : b₀.linkDisconnected = true)
    (hbegun : b.linkConnecting = true) (steps : List Step) (hdesk : ∀ s ∈ steps, s.atDesk = true)
    (hclock : ∀ n, b.queries ≤ n → n < (runSteps e b steps).queries →
      e.mono n ≤ b.linkConnectDeadline)
    (hsuspend : ∀ evs pending, (runSteps e b steps).linkEvents = b.linkEvents ++ evs →
      .resume (.interrupted pending) ∉ evs) :
    let b' := runSteps e b steps
    b'.linkConnecting = true ∧ b'.watched b'.link.fd = some ⟨false, true, true⟩ ∧
      ∀ (flags : EpollFlags) (reads : List LinkRead), flags.output = true ∧ flags.hangup = false →
        e.rc b'.queries = 1 →
          let b'' := (step (.event (.link flags reads)) e b').2
          b''.linkConnecting = false ∧ b''.linkDisconnected = false ∧
            ∃ evs seat, b''.linkEvents = b'.linkEvents ++ evs ∧ .linkUp seat ∈ evs := by
  intro b'
  have hwait : b.wiring.Awaited b.linkConnectDeadline := by
    rcases hstart with rfl | rfl
    · exact awaited_of_begun (awaited_attemptReconnect hroomy hidle) hbegun
    · exact awaited_of_begun (awaited_brokerDoResume hroomy hlost hidle) hbegun
  have hafter : b'.wiring.Awaited b.linkConnectDeadline :=
    awaited_runSteps hwait hdesk hclock hsuspend
  exact ⟨hafter.connecting, hafter.heard, fun flags reads hflags hrc =>
    linkUp_of_connected hafter hpoll hflags hrc reads⟩

def emptySendMsg : Msg := ⟨.send, some (.obj [("data", .str [])])⟩

def Event.isInterrupted : Event → Bool
  | .resume (.interrupted _) => true
  | _ => false

def stoppedEnv : Env Unit := { asyncEnv (fun _ => 1) with mono := fun _ => 0 }

theorem connect_completes_reconnect :
    let b₀ := runSteps stoppedEnv (plainInit []) [.event (.link ⟨false, false, true⟩ [])]
    let b := (attemptReconnect stoppedEnv b₀).2
    let b' := runSteps stoppedEnv b (joinSteps [.message 1 emptySendMsg])
    b'.watched b'.link.fd = some ⟨false, true, true⟩ ∧
      (step (.event (.link ⟨false, true, false⟩ [])) stoppedEnv b').2.linkConnecting = false := by
  intro b₀ b b'
  have hdeadline : 0 ≤ b.linkConnectDeadline := by decide +kernel
  have hnone : b'.linkEvents.all (fun ev => !ev.isInterrupted) = true := by decide +kernel
  have hcompletes := connect_completes (e := stoppedEnv) (fun _ => rfl) rfl (.inl rfl)
    (show b₀.linkConnecting = false by decide +kernel)
    (show b₀.linkDisconnected = true by decide +kernel)
    (show b.linkConnecting = true by decide +kernel)
    (joinSteps [.message 1 emptySendMsg]) (by decide) (fun _ _ _ => hdeadline)
    fun evs pending htold hmem => by
      have hall := all_eq_true.mp hnone _ (htold ▸ mem_append_right _ hmem)
      cases hall
  exact ⟨hcompletes.2.1, (hcompletes.2.2 ⟨false, true, false⟩ [] ⟨rfl, rfl⟩ rfl).1⟩

/-- An empty send, while a resume waits for its connect, takes the interest in output
away: the connect is under way and its end will not be heard of. -/
theorem connect_unheard :
    let e := asyncEnv fun _ => 1
    let b := runSteps e (plainInit []) (suspendSteps [.message 1 (resumeMsg "r1")])
    let b' := runSteps e b [.message 1 emptySendMsg]
    b.linkConnecting = true ∧ b.watched b.link.fd = some ⟨false, true, true⟩ ∧
      b'.linkConnecting = true ∧ b'.watched b'.link.fd = some ⟨true, false, true⟩ := by
  decide +kernel

end Smolmux.Broker
