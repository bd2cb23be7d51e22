import Smolmux.Broker.LinkRules

/-! What the broker does with its link is a run of the link machine. -/

namespace Smolmux.Broker
open Smolmux.Frame List

variable {ρ α : Type}

def lined (e : Env ρ) : Frame (Broker ρ) where
  rel b b' := ∃ evs, Line.Run e.linkKind e.seat b.line evs b'.line ∧
    b'.linkEvents = b.linkEvents ++ evs
  refl b := ⟨[], .nil _, (append_nil _).symm⟩
  trans h h' := by
    obtain ⟨evs, hrun, htold⟩ := h
    obtain ⟨more, hrun', htold'⟩ := h'
    exact ⟨evs ++ more, hrun.trans hrun', by rw [htold', htold, append_assoc]⟩

section Refinement

variable {e : Env ρ} {b b₁ : Broker ρ} {evs : List Event}

theorem lined_of_tells {p : M ρ α}
    (h : LinkTells e p (fun _ evs c => Line.Run e.linkKind e.seat b.line evs c.line) b.wiring) :
    (lined e).rel b (p e b).2 := by
  obtain ⟨evs, htold, hrun⟩ := h b rfl
  exact ⟨evs, hrun, htold⟩

theorem lined_of_step {p : M ρ α}
    (h : LinkTells e p (fun _ evs c => Line.Step e.linkKind e.seat b.line evs c.line) b.wiring) :
    (lined e).rel b (p e b).2 := lined_of_tells (h.mono fun _ _ _ => .single)

theorem lined_of_still (h : Still linkSide b b₁) : (lined e).rel b b₁ := by
  have hrel := Prod.mk.inj (resting_of_still h)
  have hline : b₁.line = b.line := congrArg Wiring.line hrel.1
  refine ⟨[], ?_, by rw [hrel.2, append_nil]⟩
  rw [hline]
  exact .nil _

theorem lined_brokerUpdateLinkEpoll : (lined e).KeepsAt e brokerUpdateLinkEpoll :=
  ⟨fun _ => lined_of_tells (tells_brokerUpdateLinkEpoll (fun _ => .nil _) fun _ _ _ => .nil _)⟩

theorem lined_minor {op : LinkOp} (hop : op.isMinor) {ev : Int → Event}
    (hev : ∀ rc, (ev rc).sector.any linkSide → ev rc = .link op rc) :
    (lined e).KeepsAt e (callLinkAs op ev) := by
  refine ⟨fun b => lined_of_step (tells_callLinkAs fun rc fds queued => ?_)⟩
  refine .minor _ op rc fds queued _ hop ?_
  split_ifs with h
  · exact .inr (by rw [hev _ h])
  · exact .inl rfl

theorem lined_brokerDoWrite (data : Bytes) : (lined e).KeepsAt e (brokerDoWrite data) := by
  refine ⟨fun b => rel_ite (fun _ => (lined e).refl b) fun hsuspended =>
    rel_ite (fun _ => (lined e).refl b) fun hup => ?_⟩
  have hwrite : (lined e).rel b (callLink (.writeData data) e b).2 :=
    lined_of_step (tells_callLink fun rc fds queued => .write _ data rc fds queued
      (Bool.eq_false_of_not_eq_true hsuspended) (Bool.eq_false_of_not_eq_true hup))
  exact rel_bind hwrite fun rc => rel_ite (fun _ => (lined e).refl _) fun _ =>
    lined_brokerUpdateLinkEpoll.rel _

theorem traffic_lined {O : Sector → Bool} (hO : Apart O linkSide) : Traffic e O (lined e) where
  other _ _ h := lined_of_still (Moves.still hO h)
  call op hop := lined_minor hop fun _ _ => rfl
  callAs op ev s hop hs hev hcalm := by
    refine lined_minor hop fun rc hside => ?_
    rw [hev rc, Option.any_some, hO s hs] at hside
    cases hside
  write := lined_brokerDoWrite

theorem lined_flushQueue : (lined e).KeepsAt e flushQueue :=
  keepsAt_bind ⟨fun _ => lined_of_step (tells_callLink fun rc fds queued => .flush _ rc fds queued)⟩
    fun _ => .yields (keepsAt_when fun _ => lined_brokerUpdateLinkEpoll)

end Refinement

section Machine

variable {e : Env ρ} {b : Broker ρ}

theorem lined_brokerDoResume : (lined e).KeepsAt e brokerDoResume :=
  ⟨fun _ => lined_of_step (tells_brokerDoResume (fun _ => .refuse _)
    (fun hsuspended rc => .resumeFail _ rc hsuspended)
    (fun hsuspended hfree rc fds queued _ _ => .resumeNow _ rc fds queued hsuspended hfree)
    fun hsuspended hfree fds queued deadline _ _ =>
      .resumeLater _ fds queued deadline hsuspended hfree)⟩

theorem lined_attemptReconnect : (lined e).KeepsAt e attemptReconnect := by
  refine ⟨fun b => lined_of_tells (tells_attemptReconnect (.nil _)
    fun hsuspended hconnecting hlost hfree => ⟨fun rc fds queued => ?_, fun fds queued _ _ => ?_,
      fun fds queued deadline _ _ => ?_⟩)⟩
  · exact .single (.reconnectFail _ rc fds queued hsuspended hconnecting hlost)
  · exact .single (.reconnectUp _ fds queued hsuspended hconnecting hlost hfree)
  · exact .single (.reconnectLater _ fds queued deadline hsuspended hconnecting hlost hfree)

theorem lined_handleLinkConnecting (flags : EpollFlags) (hconnecting : b.linkConnecting)
    (hsuspended : b.suspended = false) : (lined e).rel b (handleLinkConnecting flags e b).2 := by
  -- a poll of the connect is a step of its own
  have hpoll : ∀ rc, Line.Run e.linkKind e.seat b.line [.link .connectPoll rc] b.line :=
    fun rc => .single (.poll _ rc hconnecting hsuspended)
  refine lined_of_tells (tells_handleLinkConnecting (.nil _) (fun polled rc w hpolled => ?_) hpoll
    fun w _ => (hpoll 1).snoc (.up _ hconnecting hsuspended))
  have hgiveUp : Line.Step e.linkKind e.seat b.line
      (.link .closeLink rc :: b.line.stage.failure) ⟨b.line.stage.gaveUp, .closed⟩ :=
    .giveUp _ rc hconnecting
  rcases hpolled with rfl | ⟨rc', rfl⟩
  · exact .single hgiveUp
  · exact (hpoll rc').snoc hgiveUp

theorem lined_run (op : Op) (hready : op.Ready b) : (lined e).rel b (op.run e b) := by
  cases op with
  | brk | startFlood | feedFlood | floodTimer | cancelFlood =>
    exact traffic_run rfl (traffic_lined (apart_of_all rfl))
  | write data => exact (lined_brokerDoWrite data).rel b
  | param key value => exact (lined_minor rfl fun _ _ => rfl).rel b
  | flush => exact lined_flushQueue.rel b
  | suspend =>
    exact lined_of_step (b := (stallDisarm e b).2) (tells_linkSuspend fun rc _ => .suspend _ rc)
  | resume => exact lined_brokerDoResume.rel b
  | nameResume rid =>
    exact lined_of_tells (tells_nameResume (fun hpending => .single (.name _ rid hpending)) (.nil _))
  | lost =>
    exact lined_of_step (b := (stallDisarm e b).2) (tells_linkLost fun rc _ => .lost _ rc)
  | reconnect => exact lined_attemptReconnect.rel b
  | connecting flags => exact lined_handleLinkConnecting flags hready.1 hready.2
  | deadline =>
    exact lined_of_tells (tells_checkConnectDeadline (.nil _) fun hconnecting rc _ =>
      .single (.giveUp _ rc hconnecting))
  | _ => exact lined_of_still (still_run _ (apart_of_all rfl) e b)

theorem turnFrame_lined (e : Env ρ) : TurnFrame e (lined e) :=
  turnFrame_of_still (T := linkSide) rfl (fun _ _ => lined_of_still) fun op _ _ _ => lined_run op

theorem run_of_lined {b' : Broker ρ} (h : (lined e).rel b b') (hgrow : growing.rel b b') :
    ∃ added, b'.trace = b.trace ++ added ∧ Line.Run e.linkKind e.seat b.line
      (added.filter fun ev => ev.sector.any linkSide) b'.line := by
  obtain ⟨evs, hrun, htold⟩ := h
  obtain ⟨added, htrace, -⟩ := hgrow
  refine ⟨added, htrace, ?_⟩
  have hfilter : added.filter (fun ev => ev.sector.any linkSide) = evs := by
    rw [Broker.linkEvents, Broker.about, htrace, filter_append] at htold
    exact append_cancel_left htold
  rwa [hfilter]

theorem turnFrame_of_run {F : Frame (Broker ρ)}
    (h : ∀ (b b' : Broker ρ) added, b'.trace = b.trace ++ added → Line.Run e.linkKind e.seat b.line
      (added.filter fun ev => ev.sector.any linkSide) b'.line → F.rel b b') : TurnFrame e F := by
  refine ((turnFrame_lined e).inter (loopFrame_growing e).toTurnFrame).mono fun b b' hrel => ?_
  obtain ⟨added, htrace, hrun⟩ := run_of_lined hrel.1 hrel.2
  exact h b b' added htrace hrun

theorem rel_step_of_run {F : Frame (Broker ρ)}
    (h : ∀ (b b' : Broker ρ) added, b'.trace = b.trace ++ added → Line.Run e.linkKind e.seat b.line
      (added.filter fun ev => ev.sector.any linkSide) b'.line → F.rel b b')
    {s : Step} (hs : s ≠ .replug) : F.KeepsAt e (step s) := by
  refine (turnFrame_of_run h).step_of_stop ⟨fun b => ?_⟩ hs
  have hrel : (lined e).rel b (updateFlood Flood.stopped e b).2 := lined_run .stopFlood trivial
  obtain ⟨added, htrace, hrun⟩ := run_of_lined hrel ((loopFrame_growing e).stop.rel b)
  exact h _ _ added htrace hrun

theorem rel_steps_of_run {F : Frame (Broker ρ)}
    (h : ∀ (b b' : Broker ρ) added, b'.trace = b.trace ++ added → Line.Run e.linkKind e.seat b.line
      (added.filter fun ev => ev.sector.any linkSide) b'.line → F.rel b b')
    (hreplug : ∀ b : Broker ρ, F.rel b b.replugged) (b : Broker ρ) (steps : List Step) :
    F.rel b (runSteps e b steps) := by
  refine (keepsAt_each steps fun s _ => ?_).rel b
  by_cases hs : s = .replug
  · subst hs
    exact ⟨hreplug⟩
  · exact rel_step_of_run h hs

/-- Between changes of the device the link goes by its machine. -/
theorem link_runs_as_machine (e : Env ρ) (b : Broker ρ) (steps : List Step) :
    (running linkSide Broker.line fun l evs m => Line.Run e.linkKind e.seat l evs m ∨
      evs = [] ∧ ∃ n, m = ⟨{ l.stage with epoch := n }, l.link⟩).rel b (runSteps e b steps) := by
  refine rel_steps_of_run (fun b b' added htrace hrun => ?_) (fun b => ?_) b steps
  · refine .single ⟨_, ?_, .inl hrun⟩
    rw [Broker.about, htrace, filter_append, Broker.about]
  · exact .single ⟨[], (append_nil _).symm, .inr ⟨rfl, b.epoch + 1, rfl⟩⟩

end Machine

end Smolmux.Broker
