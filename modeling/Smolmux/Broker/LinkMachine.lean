import Smolmux.Broker.DeviceSide

/-! The link as a machine of its own. Its state is how far the link is from being
up, with the resume that waits for that, and the link itself; a step is one thing
that the broker does with the link, together with the events it tells. -/

namespace Smolmux.Broker

namespace Stage

/-- A device that goes by a weak name is not opened again in another seat. -/
def blocks (seat : Nat → Option Bytes) (st : Stage) : Bool :=
  decide (¬(st.identityWeakById = false ∨ st.port = [])) &&
    identityRefuseWeakSeatChange true st.identityByPath (stored 256 ((seat st.epoch).getD []))

def recorded (seat : Nat → Option Bytes) (st : Stage) : Stage :=
  if st.port = [] then st
  else { st with identityByPath := (seat st.epoch).elim st.identityByPath (stored 256) }

def up (seat : Nat → Option Bytes) (st : Stage) : Stage :=
  recorded seat { st with linkConnecting := false, linkDisconnected := false }

def announced (st : Stage) : Stage := { st with pendingResumeAck := false }

def answer (st : Stage) : List Event :=
  if st.pendingResumeAck then [.resume (.resumed st.resumeTicket st.connectOwner)] else []

def failure (st : Stage) : List Event :=
  if st.pendingResumeAck then
    [.resume (.failed st.resumeTicket st.pendingResumeId st.connectOwner)]
  else []

theorem answer_up (seat : Nat → Option Bytes) (st : Stage) : (st.up seat).answer = st.answer := by
  unfold up recorded
  split <;> rfl

theorem suspended_up (seat : Nat → Option Bytes) (st : Stage) :
    (st.up seat).suspended = st.suspended := by
  unfold up recorded
  split <;> rfl

def gaveUp (st : Stage) : Stage :=
  if st.pendingResumeAck then
    { st with
      linkConnecting := false
      linkDisconnected := true
      pendingResumeAck := false
      pendingResumeId := []
      suspended := true }
  else { st with linkConnecting := false, linkDisconnected := true }

def connecting (owner : Option Nat) (deadline : Rat) (st : Stage) : Stage :=
  { st with linkConnecting := true, connectDeadline := deadline, connectOwner := owner }

def waiting (st : Stage) : Stage :=
  { st with
    suspended := false
    pendingResumeAck := true
    resumeTicket := st.resumeNext
    resumeNext := st.resumeNext + 1 }

end Stage

structure Line where
  stage : Stage
  link : LinkState

def line {ρ : Type} (b : Broker ρ) : Line := ⟨b.stage, b.link⟩

def LinkKind.reopen (kind : LinkKind) : LinkOp :=
  if kind.hasConnectBegin then .connectBegin else .openLink

def LinkState.opened (kind : LinkKind) (fds : Nat × Nat) (queued : Bool) : LinkState :=
  ⟨fds.1, fds.2, kind.queuesParams && queued⟩

namespace Line

/-- What the broker may do with the link, and the events that tell of it. -/
inductive Step (kind : LinkKind) (seat : Nat → Option Bytes) : Line → List Event → Line → Prop
  | minor (l : Line) (op : LinkOp) (rc : Int) (fds : Nat × Nat) (queued : Bool) (evs : List Event)
      (hop : op.isMinor = true) (hevs : evs = [] ∨ evs = [.link op rc]) :
      Step kind seat l evs ⟨l.stage, l.link.after kind fds queued op rc⟩
  | write (l : Line) (data : Bytes) (rc : Int) (fds : Nat × Nat) (queued : Bool)
      (hsuspended : l.stage.suspended = false) (hup : l.stage.linkDisconnected = false) :
      Step kind seat l [.link (.writeData data) rc]
        ⟨l.stage, l.link.after kind fds queued (.writeData data) rc⟩
  | flush (l : Line) (rc : Int) (fds : Nat × Nat) (queued : Bool) :
      Step kind seat l [.link .flushWriteQueue rc]
        ⟨l.stage, l.link.after kind fds queued .flushWriteQueue rc⟩
  | lost (l : Line) (rc : Int) :
      Step kind seat l [.link .closeLink rc] ⟨{ l.stage with linkDisconnected := true }, .closed⟩
  | suspend (l : Line) (rc : Int) :
      Step kind seat l [.resume (.interrupted l.stage.pendingResumeAck), .link .closeLink rc]
        ⟨{ l.stage with suspended := true, linkConnecting := false }, .closed⟩
  | name (l : Line) (rid : Bytes) (hpending : l.stage.pendingResumeAck = true) :
      Step kind seat l [.resume (.named l.stage.resumeTicket rid)]
        ⟨{ l.stage with pendingResumeId := stored 64 rid }, l.link⟩
  | refuse (l : Line) : Step kind seat l [.resume .entered] l
  | resumeFail (l : Line) (rc : Int) (hsuspended : l.stage.suspended = true) :
      Step kind seat l [.resume .entered, .link kind.reopen rc] ⟨l.stage, .closed⟩
  | resumeNow (l : Line) (rc : Int) (fds : Nat × Nat) (queued : Bool)
      (hsuspended : l.stage.suspended = true) (hgate : l.stage.blocks seat = false) :
      Step kind seat l
        [.resume .entered, .link kind.reopen rc, .linkUp (seat l.stage.epoch)]
        ⟨({ l.stage with suspended := false } : Stage).up seat, .opened kind fds queued⟩
  | resumeLater (l : Line) (fds : Nat × Nat) (queued : Bool) (deadline : Rat)
      (hsuspended : l.stage.suspended = true) (hgate : l.stage.blocks seat = false) :
      Step kind seat l
        [.resume .entered, .link .connectBegin 1, .resume (.began l.stage.resumeNext)]
        ⟨l.stage.waiting.connecting (some l.stage.resumeNext) deadline, .opened kind fds queued⟩
  | reconnectFail (l : Line) (rc : Int) (fds : Nat × Nat) (queued : Bool)
      (hsuspended : l.stage.suspended = false) (hidle : l.stage.linkConnecting = false)
      (hdown : l.stage.linkDisconnected = true) :
      Step kind seat l [.link kind.reopen rc] ⟨l.stage, l.link.after kind fds queued kind.reopen rc⟩
  | reconnectUp (l : Line) (fds : Nat × Nat) (queued : Bool)
      (hsuspended : l.stage.suspended = false) (hidle : l.stage.linkConnecting = false)
      (hdown : l.stage.linkDisconnected = true) (hgate : l.stage.blocks seat = false) :
      Step kind seat l (.link kind.reopen 0 :: .linkUp (seat l.stage.epoch) :: l.stage.answer)
        ⟨(l.stage.up seat).announced, .opened kind fds queued⟩
  | reconnectLater (l : Line) (fds : Nat × Nat) (queued : Bool) (deadline : Rat)
      (hsuspended : l.stage.suspended = false) (hidle : l.stage.linkConnecting = false)
      (hdown : l.stage.linkDisconnected = true) (hgate : l.stage.blocks seat = false) :
      Step kind seat l [.link .connectBegin 1]
        ⟨l.stage.connecting none deadline, .opened kind fds queued⟩
  | poll (l : Line) (rc : Int) (hconnecting : l.stage.linkConnecting = true)
      (hsuspended : l.stage.suspended = false) : Step kind seat l [.link .connectPoll rc] l
  | up (l : Line) (hconnecting : l.stage.linkConnecting = true)
      (hsuspended : l.stage.suspended = false) :
      Step kind seat l (.linkUp (seat l.stage.epoch) :: l.stage.answer)
        ⟨(l.stage.up seat).announced, l.link⟩
  | giveUp (l : Line) (rc : Int) (hconnecting : l.stage.linkConnecting = true) :
      Step kind seat l (.link .closeLink rc :: l.stage.failure) ⟨l.stage.gaveUp, .closed⟩

inductive Run (kind : LinkKind) (seat : Nat → Option Bytes) : Line → List Event → Line → Prop
  | nil (l : Line) : Run kind seat l [] l
  | snoc {l m n : Line} {evs more : List Event} (hrun : Run kind seat l evs m)
      (hstep : Step kind seat m more n) : Run kind seat l (evs ++ more) n

variable {kind : LinkKind} {seat : Nat → Option Bytes} {l m n : Line} {evs more : List Event}

theorem Run.single (h : Step kind seat l evs m) : Run kind seat l evs m := by
  have hrun := Run.snoc (.nil l) h
  rwa [List.nil_append] at hrun

theorem Run.trans (h : Run kind seat l evs m) (h' : Run kind seat m more n) :
    Run kind seat l (evs ++ more) n := by
  induction h' with
  | nil => rwa [List.append_nil]
  | snoc hrun hstep ih =>
    rw [← List.append_assoc]
    exact .snoc ih hstep

end Line

end Smolmux.Broker
