import Smolmux.Broker.LinkRefinement

/-! What the device delivers, and what of it reaches the history. The kernel holds the
bytes that have been delivered and not been read; an event of the link reads some of
them, and every byte read is appended to the ring before the next one is read. When the
link is given up while the kernel holds more than one event reads, the rest is lost. -/

namespace Smolmux.Broker
open Protocol Smolmux.Frame RingBuffer List

variable {ρ α : Type} {e : Env ρ} {b b₁ b₂ : Broker ρ} {X Y : Bytes}

def drained : (left : Nat) → List LinkRead → Bytes
  | left + 1, .data bytes :: reads => bytes ++ drained left reads
  | left + 1, .zero true :: reads => drained left reads
  | _, _ => []

def endOfData : (left : Nat) → List LinkRead → Bool
  | left + 1, .data _ :: reads => endOfData left reads
  | left + 1, .zero true :: reads => endOfData left reads
  | _ + 1, .zero false :: _ | _ + 1, .again :: _ | _ + 1, .gone :: _ => true
  | _, _ => false

/-- What a kernel may answer that holds the bytes `unread`: the next of them, in any
portion that fits the buffer; nothing, when it holds nothing; or an error of its own. -/
def Offers : (unread : Bytes) → List LinkRead → Prop
  | _, [] => True
  | unread, .data bytes :: reads =>
    bytes ≠ [] ∧ bytes.length ≤ linkDrainChunk ∧ bytes <+: unread ∧
      Offers (unread.drop bytes.length) reads
  | unread, .zero true :: reads => unread ≠ [] ∧ Offers unread reads
  | _, .failed :: _ => True
  | unread, .zero false :: _ | unread, .again :: _ | unread, .gone :: _ => unread = []

theorem drained_prefix (left : Nat) {reads : List LinkRead} {unread : Bytes}
    (h : Offers unread reads) : drained left reads <+: unread := by
  induction left generalizing reads unread with
  | zero => exact nil_prefix
  | succ left ih =>
    cases reads with
    | nil => exact nil_prefix
    | cons read reads =>
      cases read with
      | data bytes =>
        obtain ⟨-, -, hprefix, hrest⟩ := h
        obtain ⟨rest, rfl⟩ := hprefix
        rw [drop_left] at hrest
        exact (prefix_append_right_inj bytes).mpr (ih hrest)
      | zero avail =>
        cases avail with
        | true => exact ih h.2
        | false => exact nil_prefix
      | again | gone | failed => exact nil_prefix

theorem drained_all (left : Nat) {reads : List LinkRead} {unread : Bytes}
    (h : Offers unread reads) (hend : endOfData left reads) :
    drained left reads = unread := by
  induction left generalizing reads unread with
  | zero => cases hend
  | succ left ih =>
    cases reads with
    | nil => cases hend
    | cons read reads =>
      cases read with
      | data bytes =>
        obtain ⟨-, -, hprefix, hrest⟩ := h
        obtain ⟨rest, rfl⟩ := hprefix
        rw [drop_left] at hrest
        rw [drained, ih hrest hend]
      | zero avail =>
        cases avail with
        | true => exact ih h.2 hend
        | false => exact Eq.symm h
      | again => exact Eq.symm h
      | gone => exact Eq.symm h
      | failed => cases hend

def Env.HasMemory (e : Env ρ) : Prop := ∀ n, e.mem n = true

def Env.FilterKeeps (e : Env ρ) : Prop :=
  e.linkKind.hasFilterRx = true → ∀ n bytes, e.filter n bytes = bytes

theorem history_historyAppend (hmem : e.HasMemory) (data : Bytes) (ts : Rat) (b : Broker ρ) :
    (historyAppend data ts e b).2.history = rbAppend .ok b.history data ts := by
  simp only [historyAppend, ask, Proc.bind_apply, Proc.modify_apply, hmem _]
  rfl

theorem appended_historyAppend (hmem : e.HasMemory) (data : Bytes) (ts : Rat) (b : Broker ρ) :
    Appended b.history (historyAppend data ts e b).2.history data := by
  rw [history_historyAppend hmem]
  exact fun _ hS => hS.rbAppend data ts

theorem appended_historyFence (hmem : e.HasMemory) (line : Bytes) (b : Broker ρ) :
    Appended b.history (historyFence line e b).2.history line :=
  appended_historyAppend hmem line _ (nowRealtime e b).2

structure Feeds (X : Bytes) (b b' : Broker ρ) : Prop where
  appended : Appended b.history b'.history X
  stage : b'.stage = b.stage

theorem Feeds.refl (b : Broker ρ) : Feeds [] b b := ⟨.refl _, rfl⟩

theorem Feeds.trans (h : Feeds X b b₁) (h' : Feeds Y b₁ b₂) : Feeds (X ++ Y) b b₂ :=
  ⟨h.appended.trans h'.appended, h'.stage.trans h.stage⟩

def aside : Sector → Bool := fun s => s != .history && s != .stage

theorem feeds_of_moves (h : Moves aside b b₁) : Feeds [] b b₁ := by
  have hhistory : b₁.history = b.history := h.part .history rfl
  exact ⟨hhistory ▸ .refl _, h.part .stage rfl⟩

theorem feeds_recordOutput (hmem : e.HasMemory) (buf : Bytes) (ts : Rat) (b : Broker ρ) :
    Feeds buf b (recordOutput buf ts e b).2 :=
  ⟨appended_historyAppend hmem buf ts b, (moves_run (.record buf ts) e b).part .stage rfl⟩

theorem moves_feedAnomaly (buf : Bytes) (ts : Rat) :
    (moves aside).Keeps (feedAnomaly buf ts : M ρ Unit) := by
  refine keeps_env fun e => keeps_bind (moves_ask _) fun clock =>
    keeps_get fun b => keeps_bind (moves_of_plain (plain_modify fun _ => rfl)) fun _ => ?_
  refine keeps_bind (keeps_each _ fun inc _ => moves_of_plain (plain_broadcast ..)) fun _ => ?_
  split
  · exact keeps_pure _
  · exact keeps_bind (moves_setExpect rfl _) fun _ => moves_processExpectResults rfl rfl

theorem moves_feedAutoresponder (buf : Bytes) (ts : Rat) :
    (moves aside).Keeps (feedAutoresponder buf ts : M ρ Unit) := by
  refine keeps_env fun e => keeps_get fun b =>
    keeps_bind (moves_of_plain (plain_modify fun _ => rfl)) fun _ => keeps_each _ fun fired _ => ?_
  exact keeps_bind (moves_brokerDoWrite rfl _) fun _ =>
    keeps_if fun _ => moves_of_plain (plain_broadcast ..)

theorem feeds_processLinkChunk (hmem : e.HasMemory) (buf : Bytes) (ts : Rat) (b : Broker ρ) :
    Feeds buf b (processLinkChunk buf ts e b).2 := by
  have hfeed : Feeds [] b { b with expect := Expect.expectFeed e.regex b.expect buf } :=
    feeds_of_moves ((moves_run (.feedExpects buf) e b).mono fun s hs => by
      cases s with
      | expect => rfl
      | _ => cases hs)
  have hflood : ∀ b : Broker ρ, Feeds [] b (floodFeed buf e b).2 := fun b =>
    feeds_of_moves ((moves_run (.feedFlood buf) e b).mono fun s hs => by
      cases s with
      | flood | wire => rfl
      | _ => cases hs)
  have hafter : (moves aside).Keeps (do
      Proc.modify fun b => { b with bytesRxSinceLinkUp := b.bytesRxSinceLinkUp + buf.length }
      updateMcp fun mcp => mcpBufferOutput mcp buf
      broadcast (msgOutput buf ts) none
      feedAnomaly buf ts
      feedBoot buf ts
      feedAutoresponder buf ts : M ρ Unit) :=
    keeps_bind (moves_of_plain (plain_modify fun _ => rfl)) fun _ =>
      keeps_bind (moves_of_plain (plain_updateMcp fun mcp => calls_mcpBufferOutput mcp buf)) fun _ =>
        keeps_bind (moves_of_plain (plain_broadcast ..)) fun _ =>
          keeps_bind (moves_feedAnomaly buf ts) fun _ =>
            keeps_bind (moves_feedBoot rfl ..) fun _ => moves_feedAutoresponder buf ts
  have hrecorded := (hfeed.trans (hflood _)).trans (feeds_recordOutput hmem buf ts _)
  have hall := hrecorded.trans (feeds_of_moves (hafter.rel e _))
  rwa [append_nil, nil_append, nil_append] at hall

theorem feeds_linkDrain (hmem : e.HasMemory) (hfilter : e.FilterKeeps) {buf : Bytes}
    (hne : buf ≠ []) (hsize : buf.length ≤ linkDrainChunk) (b : Broker ρ) :
    Feeds buf b (linkDrain buf e b).2 := by
  have hbefore : (moves aside).Keeps (do
      let ts ← nowRealtime
      let now ← nowMonotonic
      Proc.modify fun b => { b with lastLinkRxTime := now, linkHealthy := true }
      pure ts : M ρ Rat) :=
    keeps_bind (moves_ask _) fun _ => keeps_bind (moves_ask _) fun _ =>
      .yields (moves_of_plain (plain_modify fun _ => rfl))
  have hstart := feeds_of_moves (hbefore.rel e b)
  have hchunk : ∀ b₁ : Broker ρ, Feeds [] b b₁ → ∀ kept, kept = buf → ∀ ts,
      Feeds buf b (processLinkChunk kept ts e b₁).2 := by
    rintro b₁ h _ rfl ts
    exact h.trans (feeds_processLinkChunk hmem _ ts b₁)
  simp only [linkDrain, Proc.bind_apply, Proc.env_apply]
  refine ite_cases (Q := fun r => Feeds buf b r.2) (fun hkind => ?_) fun _ =>
    hchunk _ hstart _ rfl _
  have hkept : ∀ n, e.filter n (buf.take linkDrainChunk) = buf := fun n => by
    rw [hfilter hkind, take_of_length_le hsize]
  rw [Proc.bind_apply]
  have hasked := hstart.trans (feeds_of_moves ((moves_ask Env.filter).rel e _))
  refine ite_cases (Q := fun r => Feeds buf b r.2) (fun hnone => ?_) fun _ => ?_
  · exact absurd ((hkept _).symm.trans hnone) hne
  · exact hchunk _ hasked _ (hkept _) _

theorem feeds_drainLinkFd (hmem : e.HasMemory) (hfilter : e.FilterKeeps) (left : Nat) (first : Bool)
    {reads : List LinkRead} {unread : Bytes} (h : Offers unread reads) (b : Broker ρ) :
    Feeds (drained left reads) b (drainLinkFd left first reads e b).2 := by
  induction left generalizing first reads unread b with
  | zero => exact .refl b
  | succ left ih =>
    cases reads with
    | nil => exact .refl b
    | cons read reads =>
      cases read with
      | data bytes => exact (feeds_linkDrain hmem hfilter h.1 h.2.1 b).trans (ih false h.2.2.2 _)
      | zero avail =>
        cases avail with
        | true => exact ih false h.2 b
        | false => exact .refl b
      | again | gone | failed => exact .refl b

def Ends (X : Bytes) (b b' : Broker ρ) : Prop :=
  Appended b.history b'.history (X ++ if b'.linkDisconnected then historyFenceDown else [])

theorem Feeds.ends (h : Feeds X b b₁) (hup : b.linkDisconnected = false) : Ends X b b₁ := by
  have hstill : b₁.linkDisconnected = false :=
    (congrArg Stage.linkDisconnected h.stage).trans hup
  rw [Ends, hstill]
  exact (append_nil X).symm ▸ h.appended

theorem Ends.moved (h : Ends X b b₁) (hmoves : Moves aside b₁ b₂) : Ends X b b₂ := by
  have hhistory : b₂.history = b₁.history := hmoves.part .history rfl
  have hstage : b₂.linkDisconnected = b₁.linkDisconnected :=
    congrArg Stage.linkDisconnected (hmoves.part .stage rfl)
  rw [Ends, hhistory, hstage]
  exact h

theorem moves_endBusiness :
    (moves aside).Keeps (do breakCancel; floodCancel; stallDisarm : M ρ Unit) := by
  have hbreak : (moves aside).Keeps (breakCancel : M ρ Unit) :=
    ⟨fun e b => (moves_run (.brk .cancel) e b).mono fun s hs => by
      cases s with
      | brk | wire | calls => rfl
      | _ => cases hs⟩
  have hflood : (moves aside).Keeps (floodCancel : M ρ Unit) :=
    ⟨fun e b => (moves_run .cancelFlood e b).mono fun s hs => by
      cases s with
      | flood | wire => rfl
      | _ => cases hs⟩
  exact keeps_bind hbreak fun _ => keeps_bind hflood fun _ => moves_stallDisarm rfl

theorem moves_afterLoss : (moves aside).Keeps (do
    abortExpects (ascii "link_down") (ascii "link_down")
    processExpectResults
    broadcast (msgLinkDown (← Proc.get).port (ascii "device disconnected")) none : M ρ Unit) :=
  keeps_bind (moves_setExpect rfl _) fun _ => keeps_bind (moves_processExpectResults rfl rfl)
    fun _ => keeps_get fun _ => moves_of_plain (plain_broadcast ..)

theorem down_historyFence (line : Bytes) (h : b.linkDisconnected) :
    (historyFence line e b).2.linkDisconnected :=
  (congrArg Stage.linkDisconnected ((moves_run (.fence line) e b).part .stage rfl)).trans h

theorem down_handleLinkDisconnect (b : Broker ρ) :
    (handleLinkDisconnect e b).2.linkDisconnected := by
  refine ite_cases (Q := fun r : Unit × Broker ρ => r.2.linkDisconnected) (fun hdown => hdown)
    fun _ => ?_
  have hfence := down_historyFence (e := e) historyFenceDown
    (b := (linkLost e ((do breakCancel; floodCancel; stallDisarm : M ρ Unit) e b).2).2) rfl
  exact (congrArg Stage.linkDisconnected ((moves_afterLoss.rel e _).part .stage rfl)).trans hfence

theorem Ends.disconnect (hmem : e.HasMemory) (h : Ends X b b₁) (hup : b₁.linkDisconnected = false) :
    Ends X b (handleLinkDisconnect e b₁).2 := by
  have hread : Appended b.history b₁.history X := by
    rw [Ends, hup] at h
    exact append_nil X ▸ h
  refine ite_cases (Q := fun r => Ends X b r.2) (fun hdown => absurd (hup.symm.trans hdown)
    Bool.false_ne_true) fun _ => ?_
  have hbusiness := moves_endBusiness.rel e b₁
  generalize hb₂ : ((do breakCancel; floodCancel; stallDisarm : M ρ Unit) e b₁).2 = b₂ at hbusiness
  have hlost : (linkLost e b₂).2.history = b₁.history :=
    (((moves_linkLost (S := linkSide) rfl rfl).rel e b₂).part .history rfl).trans
      (hbusiness.part .history rfl)
  have hfence := appended_historyFence hmem historyFenceDown (linkLost e b₂).2
  rw [hlost] at hfence
  have hdown : (historyFence historyFenceDown e (linkLost e b₂).2).2.linkDisconnected :=
    down_historyFence historyFenceDown rfl
  have hends : Ends X b (historyFence historyFenceDown e (linkLost e b₂).2).2 := by
    rw [Ends, hdown]
    exact hread.trans hfence
  subst hb₂
  exact hends.moved (moves_afterLoss.rel e _)

theorem Ends.loseWhen (hmem : e.HasMemory) (h : Ends X b b₁) (c : Prop) [Decidable c]
    (hup : c → b₁.linkDisconnected = false) :
    Ends X b (Proc.when c handleLinkDisconnect e b₁).2 :=
  ite_cases (Q := fun r => Ends X b r.2) (fun hc => h.disconnect hmem (hup hc)) fun _ => h

theorem Ends.flushLink (hmem : e.HasMemory) (h : Ends X b b₁) (hup : b₁.linkDisconnected = false) :
    Ends X b (flushLink e b₁).2 := by
  have hflush : Moves Broker.aside b₁ (flushQueue e b₁).2 :=
    (moves_run .flush e b₁).mono fun s hs => by
      cases s with
      | wire => rfl
      | _ => cases hs
  have hstill : (flushQueue e b₁).2.linkDisconnected = false :=
    (congrArg Stage.linkDisconnected (hflush.part .stage rfl)).trans hup
  refine ite_cases (Q := fun r => Ends X b r.2) (fun _ => ?_) fun _ => h
  exact (h.moved hflush).loseWhen hmem _ fun _ => hstill

def Stage.isUp (st : Stage) : Bool := !st.suspended && !st.linkConnecting && !st.linkDisconnected

def reading (b : Broker ρ) (flags : EpollFlags) : Bool :=
  b.stage.isUp && (flags.input || flags.hangup) && decide (0 ≤ b.link.fd)

def taken (b : Broker ρ) : Step → Bytes
  | .event (.link flags reads) => if reading b flags then drained linkDrainMaxReads reads else []
  | _ => []

theorem ends_processLinkData (hmem : e.HasMemory) (hfilter : e.FilterKeeps)
    (hup : b.linkDisconnected = false) {reads : List LinkRead} {unread : Bytes}
    (h : 0 ≤ b.link.fd → Offers unread reads) :
    Ends (if 0 ≤ b.link.fd then drained linkDrainMaxReads reads else []) b
      (processLinkData reads e b).2 := by
  refine ite_cases (Q := fun r => Ends (if 0 ≤ b.link.fd then _ else []) b r.2) (fun hclosed => ?_)
    fun hopen => ?_
  · have hclosed : ¬ 0 ≤ b.link.fd := Int.not_le.mpr hclosed
    rw [if_neg hclosed]
    exact (Feeds.refl b).ends hup
  · have hopen : 0 ≤ b.link.fd := Int.not_lt.mp hopen
    have hfeeds := feeds_drainLinkFd hmem hfilter linkDrainMaxReads true (h hopen) b
    rw [if_pos hopen]
    exact (hfeeds.ends hup).loseWhen hmem _ fun _ =>
      (congrArg Stage.linkDisconnected hfeeds.stage).trans hup

theorem Stage.isUp_iff (st : Stage) : st.isUp ↔
    st.suspended = false ∧ st.linkConnecting = false ∧ st.linkDisconnected = false := by
  simp [Stage.isUp, and_assoc]

theorem down_of_hangup (hup : b.stage.isUp) {flags : EpollFlags} (hhangup : flags.hangup)
    (reads : List LinkRead) : (step (.event (.link flags reads)) e b).2.linkDisconnected := by
  obtain ⟨hsuspended, hidle, hlive⟩ := b.stage.isUp_iff.mp hup
  refine ite_cases (Q := fun r : Unit × Broker ρ => r.2.linkDisconnected) (fun hconnecting =>
    absurd (hidle.symm.trans hconnecting.1) Bool.false_ne_true) fun _ =>
      ite_cases (Q := fun r : Unit × Broker ρ => r.2.linkDisconnected) (fun _ => ?_)
        fun hdown => absurd ⟨hsuspended, hlive⟩ hdown
  have hlost : ∀ b₁ : Broker ρ, (Proc.when (b₁.linkDisconnected = false ∧ flags.hangup)
      handleLinkDisconnect e b₁).2.linkDisconnected := fun b₁ =>
    ite_cases (Q := fun r : Unit × Broker ρ => r.2.linkDisconnected)
      (fun _ => down_handleLinkDisconnect b₁) fun hnot => by simpa [hhangup] using hnot
  refine ite_cases (Q := fun r : Unit × Broker ρ => r.2.linkDisconnected) (fun hc => ?_)
    fun _ => hlost _
  exact absurd ((hlost _).symm.trans hc.1) Bool.noConfusion

theorem ends_linkEvent (hmem : e.HasMemory) (hfilter : e.FilterKeeps) (hup : b.stage.isUp)
    {flags : EpollFlags} {reads : List LinkRead} {unread : Bytes}
    (h : reading b flags → Offers unread reads) :
    Ends (taken b (.event (.link flags reads))) b (step (.event (.link flags reads)) e b).2 := by
  obtain ⟨hsuspended, hidle, hlive⟩ := b.stage.isUp_iff.mp hup
  have htaken : taken b (.event (.link flags reads)) =
      if flags.input ∨ flags.hangup then
        if 0 ≤ b.link.fd then drained linkDrainMaxReads reads else []
      else [] := by
    simp only [taken, reading, hup, Bool.true_and, Bool.and_eq_true, Bool.or_eq_true,
      decide_eq_true_iff, ite_and]
  rw [htaken]
  refine ite_cases (Q := fun r => Ends _ b r.2) (fun hconnecting => ?_) fun _ =>
    ite_cases (Q := fun r => Ends _ b r.2) (fun _ => ?_) fun hdown => ?_
  · exact absurd (hidle.symm.trans hconnecting.1) Bool.false_ne_true
  · have hread : Ends (if flags.input ∨ flags.hangup then
        if 0 ≤ b.link.fd then drained linkDrainMaxReads reads else [] else []) b
        (Proc.when (flags.input ∨ flags.hangup) (processLinkData reads) e b).2 := by
      by_cases hflags : flags.input ∨ flags.hangup
      · rw [if_pos hflags, Proc.when, if_pos hflags]
        refine ends_processLinkData hmem hfilter hlive fun hopen => h ?_
        simp only [reading, hup, Bool.true_and, Bool.and_eq_true, Bool.or_eq_true,
          decide_eq_true_iff]
        exact ⟨hflags, hopen⟩
      · rw [if_neg hflags, Proc.when, if_neg hflags]
        exact (Feeds.refl b).ends hlive
    have hlost := hread.loseWhen hmem (_ ∧ flags.hangup) fun hc => hc.1
    exact ite_cases (Q := fun r => Ends _ b r.2) (fun hc => hlost.flushLink hmem hc.1)
      fun _ => hlost
  · exact absurd ⟨hsuspended, hlive⟩ hdown

def Event.isClose : Event → Bool
  | .link .closeLink _ => true
  | _ => false

theorem Line.Run.isUp {kind : LinkKind} {seat : Nat → Option Bytes} {l m : Line}
    {evs : List Event} (h : Line.Run kind seat l evs m) (hup : l.stage.isUp)
    (hopen : evs.any Event.isClose = false) : m.stage.isUp := by
  induction h with
  | nil => exact hup
  | snoc hrun hstep ih =>
    rw [any_append, Bool.or_eq_false_iff] at hopen
    have hmid := ih hopen.1
    obtain ⟨hsuspended, hidle, hlive⟩ := (Stage.isUp_iff _).mp hmid
    -- a link that is up is neither opened nor waited for
    cases hstep with
    | minor | write | flush | refuse | name => exact hmid
    | lost | suspend | giveUp => cases hopen.2
    | resumeFail _ h | resumeNow _ _ _ h _ | resumeLater _ _ _ h _ =>
      exact absurd (hsuspended.symm.trans h) Bool.false_ne_true
    | reconnectFail _ _ _ _ _ h | reconnectUp _ _ _ _ h _ | reconnectLater _ _ _ _ _ h _ =>
      exact absurd (hlive.symm.trans h) Bool.false_ne_true
    | poll _ h _ | up h _ => exact absurd (hidle.symm.trans h) Bool.false_ne_true

/-- As long as the link is not closed, it stays up when it is up, and the history is
left alone. -/
def sheltered : Frame (Broker ρ) where
  rel b b' := ∃ added, b'.linkEvents = b.linkEvents ++ added ∧
    (b.stage.isUp = true → added.any Event.isClose = false →
      b'.stage.isUp = true ∧ b'.history = b.history)
  refl b := ⟨[], (append_nil _).symm, fun hup _ => ⟨hup, rfl⟩⟩
  trans h h' := by
    obtain ⟨added, htold, hkept⟩ := h
    obtain ⟨more, htold', hkept'⟩ := h'
    refine ⟨added ++ more, by rw [htold', htold, append_assoc], fun hup hopen => ?_⟩
    rw [any_append, Bool.or_eq_false_iff] at hopen
    obtain ⟨hup₁, hsame⟩ := hkept hup hopen.1
    obtain ⟨hup₂, hsame'⟩ := hkept' hup₁ hopen.2
    exact ⟨hup₂, hsame'.trans hsame⟩

theorem sheltered_of_lined (h : (lined e).rel b b₁)
    (hsame : b.stage.isUp → b₁.history = b.history) : sheltered.rel b b₁ := by
  obtain ⟨evs, hrun, htold⟩ := h
  exact ⟨evs, htold, fun hup hopen => ⟨hrun.isUp hup hopen, hsame hup⟩⟩

theorem sheltered_of_still (h : Still (fun s => linkSide s || s == .history) b b₁) :
    sheltered.rel b b₁ := by
  have hlink : Still linkSide b b₁ := h.mono fun s hs => by rw [hs, Bool.true_or]
  have hhistory : b₁.history = b.history := h.part .history rfl
  obtain ⟨hwiring, htold⟩ := Prod.mk.inj (resting_of_still hlink)
  have hstage : b₁.stage = b.stage := congrArg (·.stage) hwiring
  exact ⟨[], by rw [htold, append_nil], fun hup _ => ⟨hstage ▸ hup, hhistory⟩⟩

theorem deskFrame_sheltered (e : Env ρ) : DeskFrame e sheltered := by
  refine deskFrame_of_clerical (T := fun s => linkSide s || s == .history)
    (fun _ _ h => sheltered_of_still (still_of_clerical rfl h)) (fun _ _ => sheltered_of_still)
    fun op b hturn _ hready => sheltered_of_lined (lined_run op hready) fun hup => ?_
  obtain ⟨hsuspended, hidle, hlive⟩ := (Stage.isUp_iff _).mp hup
  cases op with
  | fence line =>
    have hlive : b.linkDisconnected = false := hlive
    exact absurd (hlive.symm.trans hready) Bool.false_ne_true
  | record buf ts => cases hturn
  | connecting flags => cases hturn
  | resume =>
    have hsuspended : b.suspended = false := hsuspended
    simp [Op.run, brokerDoResume, emit, Broker.noted, hsuspended]
  | reconnect =>
    have hsuspended : b.suspended = false := hsuspended
    have hidle : b.linkConnecting = false := hidle
    have hlive : b.linkDisconnected = false := hlive
    simp [Op.run, attemptReconnect, hsuspended, hidle, hlive]
  | _ => exact (moves_run _ e b).part .history rfl

theorem sheltered_step {s : Step} (hs : ∀ flags reads, s ≠ .event (.link flags reads)) :
    sheltered.KeepsAt e (step s) := by
  have hF := deskFrame_sheltered e
  cases s with
  | shutdown =>
    refine ⟨fun b => hF.shutdown b fun b' _ => ?_⟩
    exact sheltered_of_still (still_run .stopFlood (apart_of_all rfl) e b')
  | replug => exact ⟨fun b => ⟨[], (append_nil _).symm, fun hup _ => ⟨hup, rfl⟩⟩⟩
  | event ev =>
    cases ev with
    | link flags reads => exact absurd rfl (hs flags reads)
    | _ => exact hF.step rfl
  | _ => exact hF.step rfl

def lengthening : Frame (Broker ρ) where
  rel b b' := ∀ S, Filled b.history S → ∃ X, Filled b'.history (S ++ X)
  refl b S h := ⟨[], (append_nil S).symm ▸ h⟩
  trans h h' S hS := by
    obtain ⟨X, hX⟩ := h S hS
    obtain ⟨Y, hY⟩ := h' _ hX
    exact ⟨X ++ Y, append_assoc S X Y ▸ hY⟩

theorem lengthening_of_same (h : b₁.history = b.history) : lengthening.rel b b₁ :=
  fun S hS => ⟨[], by rw [h, append_nil]; exact hS⟩

theorem loopFrame_lengthening (hmem : e.HasMemory) : LoopFrame e lengthening := by
  have hfence : ∀ line, lengthening.KeepsAt e (historyFence line) := fun line =>
    ⟨fun b S hS => ⟨line, appended_historyFence hmem line b S hS⟩⟩
  have hopening : Opening e lengthening :=
    opening_of_moves (fun _ _ h => lengthening_of_same (h.part .history rfl)) hfence
  refine loopFrame_of_still (T := fun s => s == .history) rfl rfl
    (fun b => lengthening_of_same rfl) (fun _ _ h => lengthening_of_same (h.part .history rfl))
    fun op b _ hapart _ => ?_
  cases op with
  | fence line => exact (hfence line).rel b
  | record buf ts =>
    exact fun S hS => ⟨buf, (feeds_recordOutput hmem buf ts b).appended S hS⟩
  | resume => exact hopening.brokerDoResume.rel b
  | reconnect => exact hopening.attemptReconnect.rel b
  | connecting flags => exact (hopening.handleLinkConnecting flags).rel b
  | _ => exact absurd (apart_of_all rfl) hapart

section World

structure World (ρ : Type) where
  broker : Broker ρ
  delivered : Bytes
  read : Bytes

def World.unread (w : World ρ) : Bytes := w.delivered.drop w.read.length

inductive Happening where
  | arrives (bytes : Bytes)
  | step (s : Step)

/-- Bytes arrive, or the broker takes a step; what the kernel holds for a link is gone
when the link is closed. -/
def World.next (e : Env ρ) (w : World ρ) : Happening → World ρ
  | .arrives bytes => { w with delivered := w.delivered ++ bytes }
  | .step s =>
    let b := (Broker.step s e w.broker).2
    if (b.linkEvents.drop w.broker.linkEvents.length).any Event.isClose then ⟨b, [], []⟩
    else ⟨b, w.delivered, w.read ++ taken w.broker s⟩

def World.Honest (w : World ρ) : Happening → Prop
  | .step (.event (.link flags reads)) =>
    reading w.broker flags = true → Offers w.unread reads
  | _ => True

def World.run (e : Env ρ) (w : World ρ) (hs : List Happening) : World ρ := hs.foldl (World.next e) w

def World.HonestRun (e : Env ρ) : World ρ → List Happening → Prop
  | _, [] => True
  | w, h :: hs => w.Honest h ∧ World.HonestRun e (w.next e h) hs

/-- What was read is the beginning of what was delivered, and the end of what the ring
was given. -/
structure World.Sound (w : World ρ) : Prop where
  kept : ∃ S, Filled w.broker.history (S ++ w.read)
  idle : w.broker.stage.isUp = false → w.read = []
  ordered : w.read <+: w.delivered

variable {w : World ρ}

theorem World.Sound.delivered_eq (h : w.Sound) : w.delivered = w.read ++ w.unread := by
  obtain ⟨rest, hrest⟩ := h.ordered
  rw [World.unread, ← hrest, drop_left]

theorem taken_of_down (h : w.broker.stage.isUp = false) (s : Step) : taken w.broker s = [] := by
  unfold taken
  split
  · rw [reading, h]
    rfl
  · rfl

theorem World.Honest.appends {s : Step} (h : w.Honest (.step s)) (hmem : e.HasMemory)
    (hfilter : e.FilterKeeps) (hup : w.broker.stage.isUp)
    (hopen : ((step s e w.broker).2.linkEvents.drop w.broker.linkEvents.length).any
      Event.isClose = false) :
    (step s e w.broker).2.stage.isUp ∧
      Appended w.broker.history (step s e w.broker).2.history (taken w.broker s) := by
  by_cases hlink : ∃ flags reads, s = .event (.link flags reads)
  · obtain ⟨flags, reads, rfl⟩ := hlink
    obtain ⟨evs, hrun, htold⟩ := ((turnFrame_lined e).handleLink flags reads).rel w.broker
    have htold : (step (.event (.link flags reads)) e w.broker).2.linkEvents =
        w.broker.linkEvents ++ evs := htold
    rw [htold, drop_left] at hopen
    have hstill : (step (.event (.link flags reads)) e w.broker).2.stage.isUp :=
      hrun.isUp hup hopen
    have hends := ends_linkEvent hmem hfilter hup h
    rw [Ends, show (step (.event (.link flags reads)) e w.broker).2.linkDisconnected = false from
      ((Stage.isUp_iff _).mp hstill).2.2] at hends
    exact ⟨hstill, append_nil (taken w.broker (.event (.link flags reads))) ▸ hends⟩
  · obtain ⟨added, htold, hkept⟩ :=
      (sheltered_step (e := e) fun flags reads heq => hlink ⟨flags, reads, heq⟩).rel w.broker
    rw [htold, drop_left] at hopen
    obtain ⟨hstill, hsame⟩ := hkept hup hopen
    have htaken : taken w.broker s = [] := by
      unfold taken
      split
      · exact absurd ⟨_, _, rfl⟩ hlink
      · rfl
    rw [hsame, htaken]
    exact ⟨hstill, .refl _⟩

theorem World.Honest.taken_prefix {s : Step} (h : w.Honest (.step s)) :
    taken w.broker s <+: w.unread := by
  unfold taken
  split
  · split_ifs with hreading
    · exact drained_prefix _ (h hreading)
    · exact nil_prefix
  · exact nil_prefix

theorem World.Sound.next (h : w.Sound) (hmem : e.HasMemory) (hfilter : e.FilterKeeps)
    {happening : Happening} (hhonest : w.Honest happening) : (w.next e happening).Sound := by
  obtain ⟨S, hS⟩ := h.kept
  cases happening with
  | arrives bytes => exact ⟨h.kept, h.idle, h.ordered.trans (prefix_append _ _)⟩
  | step s =>
    obtain ⟨X, hX⟩ := ((loopFrame_lengthening hmem).step s).rel w.broker _ hS
    by_cases hclose : ((step s e w.broker).2.linkEvents.drop w.broker.linkEvents.length).any
        Event.isClose
    · rw [World.next, if_pos hclose]
      refine ⟨⟨S ++ w.read ++ X, ?_⟩, fun _ => rfl, prefix_rfl⟩
      rw [append_nil]
      exact hX
    · rw [World.next, if_neg hclose]
      by_cases hup : w.broker.stage.isUp
      · obtain ⟨hstill, happended⟩ :=
          hhonest.appends hmem hfilter hup (Bool.eq_false_of_not_eq_true hclose)
        refine ⟨⟨S, append_assoc S _ _ ▸ happended _ hS⟩,
          fun hdown => absurd (hstill.symm.trans hdown) Bool.noConfusion, ?_⟩
        rw [h.delivered_eq]
        exact (prefix_append_right_inj _).mpr hhonest.taken_prefix
      · have hup : w.broker.stage.isUp = false := Bool.eq_false_of_not_eq_true hup
        rw [taken_of_down hup, append_nil]
        refine ⟨⟨S ++ w.read ++ X, ?_⟩, fun _ => h.idle hup, h.ordered⟩
        rw [h.idle hup, append_nil, append_nil]
        rw [h.idle hup, append_nil] at hX
        exact hX

theorem World.Sound.run (h : w.Sound) (hmem : e.HasMemory) (hfilter : e.FilterKeeps)
    {hs : List Happening} (hhonest : World.HonestRun e w hs) : (w.run e hs).Sound := by
  induction hs generalizing w with
  | nil => exact h
  | cons happening hs ih => exact ih (h.next hmem hfilter hhonest.1) hhonest.2

def World.init (regex : Regex ρ) (cfg : Config) : World ρ := ⟨brokerInit regex cfg, [], []⟩

theorem sound_init (regex : Regex ρ) (cfg : Config) : (World.init regex cfg).Sound :=
  ⟨⟨[], filled_rbInit ringBufferMaxBytes⟩, fun _ => rfl, prefix_rfl⟩

/-- Whatever the device sends, however it is split into reads and events: what has been
read is in the history, in order, at the end of all that was appended. When an event that
comes to the end of the data takes the link down, everything that was delivered is there,
in front of the line that says so. -/
theorem device_bytes_recorded (e : Env ρ) (hmem : e.HasMemory) (hfilter : e.FilterKeeps)
    (regex : Regex ρ) (cfg : Config) (hs : List Happening)
    (hhonest : World.HonestRun e (World.init regex cfg) hs) :
    let w := (World.init regex cfg).run e hs
    (w.read <+: w.delivered ∧ ∃ S, History w.broker.history (S ++ w.read)) ∧
    ∀ flags reads, reading w.broker flags = true → Offers w.unread reads →
      endOfData linkDrainMaxReads reads = true →
      let b := (step (.event (.link flags reads)) e w.broker).2
      b.linkDisconnected = true → ∃ S, History b.history (S ++ w.delivered ++ historyFenceDown) := by
  intro w
  have hsound : w.Sound := (sound_init regex cfg).run hmem hfilter hhonest
  obtain ⟨S, hS⟩ := hsound.kept
  refine ⟨⟨hsound.ordered, S, hS.history⟩, ?_⟩
  intro flags reads hreading hoffers hend b hdown
  have hup : w.broker.stage.isUp = true := by
    simp only [reading, Bool.and_eq_true] at hreading
    exact hreading.1.1
  have hends : Ends (taken w.broker (.event (.link flags reads))) w.broker b :=
    ends_linkEvent hmem hfilter hup fun _ => hoffers
  have htaken : taken w.broker (.event (.link flags reads)) = w.unread := by
    rw [taken, if_pos hreading, drained_all _ hoffers hend]
  rw [Ends, htaken, hdown, if_pos rfl] at hends
  have hfilled := (hends _ hS).history
  rw [← append_assoc, append_assoc S, ← hsound.delivered_eq] at hfilled
  exact ⟨S, hfilled⟩

def blockReads (blocks : List Bytes) : List LinkRead := blocks.map .data ++ [.again]

theorem offers_blockReads {blocks : List Bytes}
    (h : ∀ c ∈ blocks, c ≠ [] ∧ c.length ≤ linkDrainChunk) :
    Offers blocks.flatten (blockReads blocks) := by
  induction blocks with
  | nil => exact rfl
  | cons c cs ih =>
    obtain ⟨hne, hsize⟩ := h c mem_cons_self
    refine ⟨hne, hsize, prefix_append _ _, ?_⟩
    rw [flatten_cons, drop_left]
    exact ih fun d hd => h d (mem_cons_of_mem c hd)

theorem drained_blockReads (left : Nat) (blocks : List Bytes) :
    drained left (blockReads blocks) = (blocks.take left).flatten := by
  induction blocks generalizing left with
  | nil => cases left <;> rfl
  | cons c cs ih =>
    cases left with
    | zero => rfl
    | succ left =>
      have hrest := ih left
      rw [blockReads] at hrest
      rw [blockReads, map_cons, cons_append, drained, hrest, take_succ_cons,
        flatten_cons]

def filledWorld (blocks : List Bytes) : World Unit :=
  (World.init plainEnv.regex (plainConfig [])).run plainEnv [.arrives blocks.flatten]

def afterHangup (blocks : List Bytes) : Broker Unit :=
  (step (.event (.link ⟨true, false, true⟩ (blockReads blocks))) plainEnv
    (filledWorld blocks).broker).2

theorem filledWorld_unread (blocks : List Bytes) : (filledWorld blocks).unread = blocks.flatten := rfl

theorem filledWorld_delivered (blocks : List Bytes) :
    (filledWorld blocks).delivered = blocks.flatten := rfl

theorem afterHangup_down (blocks : List Bytes) : (afterHangup blocks).linkDisconnected :=
  down_of_hangup rfl rfl _

theorem device_bytes_recorded_hangup :
    (afterHangup [ascii "ok\n"]).linkDisconnected = true ∧
      ∃ S, History (afterHangup [ascii "ok\n"]).history
        (S ++ (filledWorld [ascii "ok\n"]).delivered ++ historyFenceDown) := by
  have hkept : ∀ blocks : List Bytes, (∀ c ∈ blocks, c ≠ [] ∧ c.length ≤ linkDrainChunk) →
      endOfData linkDrainMaxReads (blockReads blocks) = true →
      ∃ S, History (afterHangup blocks).history
        (S ++ (filledWorld blocks).delivered ++ historyFenceDown) := fun blocks hfit hend =>
    (device_bytes_recorded plainEnv (fun _ => rfl) (fun _ _ _ => rfl) plainEnv.regex
      (plainConfig []) [.arrives blocks.flatten] ⟨trivial, trivial⟩).2 ⟨true, false, true⟩
      (blockReads blocks) rfl (offers_blockReads hfit) hend (afterHangup_down blocks)
  exact ⟨afterHangup_down _, hkept _ (by decide) rfl⟩

theorem mem_history_afterHangup {blocks : List Bytes}
    (h : ∀ c ∈ blocks, c ≠ [] ∧ c.length ≤ linkDrainChunk) {x : UInt8}
    (hx : x ∈ (afterHangup blocks).history.chunks.flatMap Chunk.data) :
    x ∈ (blocks.take linkDrainMaxReads).flatten ∨ x ∈ historyFenceDown := by
  have hends : Ends (drained linkDrainMaxReads (blockReads blocks)) (filledWorld blocks).broker
      (afterHangup blocks) :=
    ends_linkEvent (fun _ => rfl) (fun _ _ _ => rfl) rfl fun _ => offers_blockReads h
  have hfilled := hends [] (filled_rbInit ringBufferMaxBytes)
  rw [afterHangup_down, if_pos rfl, nil_append, drained_blockReads] at hfilled
  rw [hfilled.history.retained] at hx
  exact mem_append.mp (mem_of_mem_drop hx)

def letterBlocks : List Bytes :=
  (List.range 17).map fun i => List.replicate linkDrainChunk (UInt8.ofNat (65 + i))

theorem letterBlocks_fit : ∀ c ∈ letterBlocks, c ≠ [] ∧ c.length ≤ linkDrainChunk := by
  intro c hc
  obtain ⟨i, -, rfl⟩ := mem_map.mp hc
  have hlength : (List.replicate linkDrainChunk (UInt8.ofNat (65 + i))).length = linkDrainChunk :=
    length_replicate ..
  refine ⟨fun hnil => ?_, hlength.le⟩
  rw [hnil] at hlength
  exact absurd hlength (by decide)

theorem last_letter_unread : 81 ∉ (letterBlocks.take linkDrainMaxReads).flatten := by
  intro hmem
  obtain ⟨c, hc, hin⟩ := mem_flatten.mp hmem
  rw [letterBlocks, ← map_take] at hc
  obtain ⟨i, hi, rfl⟩ := mem_map.mp hc
  have hne : ∀ j ∈ (List.range 17).take linkDrainMaxReads, (81 : UInt8) ≠ UInt8.ofNat (65 + j) := by
    decide
  exact hne i hi (mem_replicate.mp hin).2

/-- The device hangs up with seventeen full reads in the kernel: sixteen of them are read,
the link is declared down, and the last block is nowhere in the history. -/
theorem hangup_loses_last_block :
    Offers (filledWorld letterBlocks).unread (blockReads letterBlocks) ∧
      reading (filledWorld letterBlocks).broker ⟨true, false, true⟩ = true ∧
      (afterHangup letterBlocks).linkDisconnected = true ∧
      81 ∈ (filledWorld letterBlocks).delivered ∧
      81 ∉ (afterHangup letterBlocks).history.chunks.flatMap Chunk.data := by
  rw [filledWorld_unread, filledWorld_delivered]
  refine ⟨offers_blockReads letterBlocks_fit, rfl, afterHangup_down _, ?_, fun hmem => ?_⟩
  · have hlast : List.replicate linkDrainChunk 81 ∈ letterBlocks :=
      mem_map.mpr ⟨16, by decide, rfl⟩
    exact mem_flatten.mpr ⟨_, hlast, mem_replicate.mpr ⟨by decide, rfl⟩⟩
  · rcases mem_history_afterHangup letterBlocks_fit hmem with hmem | hmem
    · exact last_letter_unread hmem
    · exact absurd hmem (by decide)

end World

end Smolmux.Broker
