import Smolmux.Broker.Takeover

/-! The `with-port` command of the client program (`cli.c`): it has the broker suspend the
port, runs a command and has the broker resume. What `poll`, `read` and the clock give comes
from outside, and so does the flag that a signal sets. -/

namespace Smolmux.Cli
open Protocol Base64 List

def cliReadBufInit : Nat := 64 * 1024
def cliReadBufMax : Nat := 8 * 1024 * 1024

structure ReadBuf where
  data : Bytes
  cap : Nat

def makeRoom (mem : Bool) (buf : ReadBuf) : Option Nat :=
  if buf.data.length + 1 < buf.cap then some buf.cap
  else
    let newCap := if buf.cap = 0 then cliReadBufInit else buf.cap * 2
    if cliReadBufMax < newCap ∧ cliReadBufMax ≤ buf.cap then none
    else if mem = false then none
    else some (min newCap cliReadBufMax)

/-- `read_messages`, up to the calls of the handler: the messages that are handed to it. A
read of nothing is the end of the connection. -/
def readMessages (codec : Codec) (mem : Bool) (read : Bytes) (buf : ReadBuf) :
    Option (ReadBuf × List Msg) :=
  match makeRoom mem buf with
  | none => none
  | some cap =>
    let new := read.take (cap - buf.data.length - 1)
    if new = [] then none
    else
      let lines := Broker.splitLines [] (buf.data ++ new)
      some (⟨lines.2, cap⟩, (lines.1.map (msgDecode codec)).filter (·.root.isSome))

structure WaitCtx where
  expectedType : MsgType
  expectedId : Option Bytes
  output : Option Bytes
  result : Option Json
  done : Bool
  gotError : Bool
  errorMsg : Bytes

def waitError (w : WaitCtx) (root : Json) : WaitCtx :=
  { w with
    errorMsg := stored 256 ((root.getString "message").getD (ascii "unknown error"))
    gotError := true
    done := true }

def waitHandler (w : WaitCtx) (msg : Msg) : WaitCtx :=
  let root := msg.root.getD .null
  let id := root.getString "id"
  if msg.type = .output ∧ w.output.isSome then
    match (root.getString "data").bind base64Decode with
    | some data => { w with output := w.output.map (· ++ data) }
    | none => w
  else if msg.type = .error ∧ w.expectedId.isSome ∧ id = w.expectedId then waitError w root
  -- an error with an empty id might be for us
  else if msg.type = .error ∧ id = some [] then waitError w root
  else if msg.type = w.expectedType ∧ (w.expectedId = none ∨ id = none ∨ id = w.expectedId) then
    { w with result := some root, done := true }
  else if (msg.type = .suspended ∨ msg.type = .resumed) ∧ msg.type = w.expectedType then
    { w with result := some root, done := true }
  else w

/-- What a `poll` gives: a signal, an error, or the events of the socket, none of them when
its time is over. `input` is what a read would give when the socket is readable. -/
inductive PollAnswer where
  | signal
  | failed
  | woke (input : Option Bytes) (mem hangup : Bool)

/-- One pass of the loop: the flag at its start, the answer of `poll`, and the milliseconds
since the start of the wait. -/
structure Round where
  interrupted : Bool
  answer : PollAnswer
  elapsedMs : Int

def takeInput (codec : Codec) (mem : Bool) (w : WaitCtx) (buf : ReadBuf) :
    Option Bytes → Option (WaitCtx × ReadBuf)
  | none => some (w, buf)
  | some read => (readMessages codec mem read buf).map fun r => (r.2.foldl waitHandler w, r.1)

theorem takeInput_none {codec : Codec} (mem : Bool) (w : WaitCtx) (buf : ReadBuf) :
    takeInput codec mem w buf none = some (w, buf) := rfl

def waitCode (w : WaitCtx) : Int := if w.gotError then -3 else if w.done then 0 else -1

def waitLoop (codec : Codec) (timeoutMs : Int) :
    List Round → WaitCtx → ReadBuf → Option (Int × WaitCtx × ReadBuf)
  | [], w, buf => if w.done then some (waitCode w, w, buf) else none
  | round :: rounds, w, buf =>
    if w.done ∨ round.interrupted then some (waitCode w, w, buf)
    else
      match round.answer with
      | .signal => waitLoop codec timeoutMs rounds w buf
      | .failed => some (waitCode w, w, buf)
      | .woke input mem hangup =>
        match takeInput codec mem w buf input with
        | none => some (-1, w, buf)
        | some (w', buf') =>
          if hangup then some (-1, w', buf')
          else if timeoutMs - round.elapsedMs ≤ 0 ∧ 0 < timeoutMs then some (-2, w', buf')
          else waitLoop codec timeoutMs rounds w' buf'

def waitForResponse (codec : Codec) (expectedType : MsgType) (expectedId output : Option Bytes)
    (timeoutMs : Int) (rounds : List Round) (buf : ReadBuf) : Option (Int × WaitCtx × ReadBuf) :=
  waitLoop codec timeoutMs rounds ⟨expectedType, expectedId, output, none, false, false, []⟩ buf

inductive Request where
  | suspend
  | resume
  deriving DecidableEq

def Request.msg : Request → Json
  | .suspend => msgSuspend (ascii "cli-wp-sus")
  | .resume => msgResume (ascii "cli-wp-res")

inductive Child where
  | noFork
  | exited (status : Nat)
  | killed (signal : Nat)
  | unknown

def Child.code : Child → Int
  | .exited status => status
  | .killed signal => 128 + signal
  | .noFork | .unknown => 1

structure World where
  sendSuspend : Bool
  suspendRounds : List Round
  child : Child
  sendResume : Bool
  resumeRounds : List Round

structure Outcome where
  requests : List (Request × Bool)
  code : Option Int
  deriving DecidableEq

def withPortTimeout (cliTimeoutMs : Int) : Int := if 0 < cliTimeoutMs then cliTimeoutMs else 5000

theorem withPortTimeout_pos (cliTimeoutMs : Int) : 0 < withPortTimeout cliTimeoutMs := by
  unfold withPortTimeout
  split_ifs with h
  · exact h
  · decide

def cmdWithPort (codec : Codec) (cliTimeoutMs : Int) (command : List Bytes) (world : World)
    (buf : ReadBuf) : Outcome :=
  if command = [] then ⟨[], some 2⟩
  else
    let timeout := withPortTimeout cliTimeoutMs
    match waitForResponse codec .suspended none none timeout world.suspendRounds buf with
    | none => ⟨[(.suspend, world.sendSuspend)], none⟩
    | some (rc, _, buf) =>
      if rc ≠ 0 then ⟨[(.suspend, world.sendSuspend)], some 1⟩
      else
        let requests := [(.suspend, world.sendSuspend), (.resume, world.sendResume)]
        let rrc := waitForResponse codec .resumed none none timeout world.resumeRounds buf
        ⟨requests, rrc.map fun r =>
          if r.1 ≠ 0 ∧ world.child.code = 0 then 1 else world.child.code⟩

def Outcome.sent (outcome : Outcome) (request : Request) : Prop :=
  (request, true) ∈ outcome.requests

def isAnonymousError (msg : Msg) : Bool :=
  msg.type = .error && (msg.root.getD .null).getString "id" == some []

/-- The broker says in time that it is suspended. Rounds before may bring signals, nothing or
other messages, but no interruption, no loss of the connection and no error without an id. -/
inductive Acknowledged (codec : Codec) (timeoutMs : Int) : ReadBuf → List Round → Prop
  | signal {buf : ReadBuf} {rounds : List Round} (elapsedMs : Int)
      (h : Acknowledged codec timeoutMs buf rounds) :
      Acknowledged codec timeoutMs buf (⟨false, .signal, elapsedMs⟩ :: rounds)
  | quiet {buf : ReadBuf} {rounds : List Round} (mem : Bool) {elapsedMs : Int}
      (htime : elapsedMs < timeoutMs) (h : Acknowledged codec timeoutMs buf rounds) :
      Acknowledged codec timeoutMs buf (⟨false, .woke none mem false, elapsedMs⟩ :: rounds)
  | others {buf buf' : ReadBuf} {rounds : List Round} {mem : Bool} {read : Bytes} {msgs : List Msg}
      {elapsedMs : Int} (hread : readMessages codec mem read buf = some (buf', msgs))
      (hnot : ∀ msg ∈ msgs, msg.type ≠ .suspended) (hclean : msgs.any isAnonymousError = false)
      (htime : elapsedMs < timeoutMs) (h : Acknowledged codec timeoutMs buf' rounds) :
      Acknowledged codec timeoutMs buf (⟨false, .woke (some read) mem false, elapsedMs⟩ :: rounds)
  | suspended {buf buf' : ReadBuf} (rounds : List Round) {mem : Bool} {read : Bytes}
      {msgs : List Msg} {elapsedMs : Int}
      (hread : readMessages codec mem read buf = some (buf', msgs))
      (hsuspended : ∃ msg ∈ msgs, msg.type = .suspended)
      (hclean : msgs.any isAnonymousError = false) (htime : elapsedMs < timeoutMs) :
      Acknowledged codec timeoutMs buf (⟨false, .woke (some read) mem false, elapsedMs⟩ :: rounds)

section Waiting

variable {codec : Codec} {timeoutMs : Int} {w : WaitCtx} {buf : ReadBuf}

structure ForSuspend (w : WaitCtx) : Prop where
  expectedType : w.expectedType = .suspended
  expectedId : w.expectedId = none
  output : w.output = none

theorem waitHandler_spec (h : ForSuspend w) (msg : Msg) :
    ForSuspend (waitHandler w msg) ∧
      (waitHandler w msg).gotError = (w.gotError || isAnonymousError msg) ∧
      (waitHandler w msg).done =
        (w.done || isAnonymousError msg || decide (msg.type = .suspended)) := by
  obtain ⟨htype, hid, houtput⟩ := h
  unfold waitHandler
  simp only [htype, hid, houtput, Option.isSome_none, Bool.false_eq_true, and_false, false_and,
    if_false, true_or, and_true]
  by_cases herror : msg.type = .error ∧ (msg.root.getD .null).getString "id" = some []
  · rw [if_pos herror]
    refine ⟨⟨htype, hid, houtput⟩, ?_, ?_⟩ <;> simp [waitError, isAnonymousError, herror]
  · rw [if_neg herror]
    have hnot : isAnonymousError msg = false := by
      simpa [isAnonymousError] using herror
    split_ifs with hsuspended hother
    · exact ⟨⟨rfl, rfl, rfl⟩, by simp [hnot], by simp [hsuspended]⟩
    · exact absurd hother.2 hsuspended
    · exact ⟨⟨htype, hid, houtput⟩, by simp [hnot], by simp [hnot, hsuspended]⟩

theorem foldl_waitHandler (h : ForSuspend w) (msgs : List Msg) :
    ForSuspend (msgs.foldl waitHandler w) ∧
      (msgs.foldl waitHandler w).gotError = (w.gotError || msgs.any isAnonymousError) ∧
      (msgs.foldl waitHandler w).done = (w.done || msgs.any isAnonymousError ||
        msgs.any fun msg => decide (msg.type = .suspended)) := by
  induction msgs generalizing w with
  | nil => simpa using h
  | cons msg msgs ih =>
    obtain ⟨hfor, herror, hdone⟩ := waitHandler_spec h msg
    obtain ⟨hfor', herror', hdone'⟩ := ih hfor
    refine ⟨hfor', ?_, ?_⟩
    · rw [foldl_cons, herror', herror, any_cons, Bool.or_assoc]
    · rw [foldl_cons, hdone', hdone, any_cons, any_cons]
      ac_rfl

structure Open (w : WaitCtx) : Prop extends ForSuspend w where
  done : w.done = false
  gotError : w.gotError = false

theorem Open.others (h : Open w) {msgs : List Msg} (hnot : ∀ msg ∈ msgs, msg.type ≠ .suspended)
    (hclean : msgs.any isAnonymousError = false) : Open (msgs.foldl waitHandler w) := by
  obtain ⟨hfor, herror, hdone⟩ := foldl_waitHandler h.toForSuspend msgs
  have hany : (msgs.any fun msg => decide (msg.type = .suspended)) = false := by
    simpa using hnot
  refine ⟨hfor, ?_, ?_⟩
  · rw [hdone, h.done, hclean, hany]
    rfl
  · rw [herror, h.gotError, hclean]
    rfl

theorem Open.answered (h : Open w) {msgs : List Msg}
    (hsuspended : ∃ msg ∈ msgs, msg.type = .suspended)
    (hclean : msgs.any isAnonymousError = false) :
    (msgs.foldl waitHandler w).done ∧ waitCode (msgs.foldl waitHandler w) = 0 := by
  obtain ⟨-, herror, hdone⟩ := foldl_waitHandler h.toForSuspend msgs
  have hany : (msgs.any fun msg => decide (msg.type = .suspended)) := by
    simpa using hsuspended
  have hend : (msgs.foldl waitHandler w).done := by
    rw [hdone, hany, Bool.or_true]
  refine ⟨hend, ?_⟩
  rw [waitCode, herror, h.gotError, hclean, hend]
  rfl

theorem Open.refused (h : Open w) {msgs : List Msg} (hany : msgs.any isAnonymousError) :
    (msgs.foldl waitHandler w).done ∧ waitCode (msgs.foldl waitHandler w) = -3 := by
  obtain ⟨-, herror, hdone⟩ := foldl_waitHandler h.toForSuspend msgs
  refine ⟨?_, ?_⟩
  · rw [hdone, hany, Bool.or_true, Bool.true_or]
  · rw [waitCode, herror, hany, Bool.or_true]
    rfl

theorem Open.waitCode_eq (h : Open w) : waitCode w = -1 := by
  rw [waitCode, h.gotError, h.done]
  rfl

theorem waitLoop_of_done (hdone : w.done) (rounds : List Round) :
    waitLoop codec timeoutMs rounds w buf = some (waitCode w, w, buf) := by
  cases rounds with
  | nil => rw [waitLoop, if_pos hdone]
  | cons round rounds => rw [waitLoop, if_pos (Or.inl hdone)]

theorem waitLoop_woke (h : w.done = false) {input : Option Bytes} {mem : Bool} {elapsedMs : Int}
    {w' : WaitCtx} {buf' : ReadBuf} (htake : takeInput codec mem w buf input = some (w', buf'))
    (htime : 0 < timeoutMs → elapsedMs < timeoutMs) (rounds : List Round) :
    waitLoop codec timeoutMs (⟨false, .woke input mem false, elapsedMs⟩ :: rounds) w buf =
      waitLoop codec timeoutMs rounds w' buf' := by
  have hlate : ¬ (timeoutMs - elapsedMs ≤ 0 ∧ 0 < timeoutMs) := by omega
  rw [waitLoop, if_neg (by simp [h])]
  simp only [htake, Bool.false_eq_true, if_false]
  rw [if_neg hlate]

theorem waitLoop_of_acknowledged {rounds : List Round}
    (hack : Acknowledged codec timeoutMs buf rounds) (h : Open w) :
    ∃ w' buf', waitLoop codec timeoutMs rounds w buf = some (0, w', buf') := by
  induction hack generalizing w with
  | signal elapsedMs _ ih =>
    rw [waitLoop, if_neg (by simp [h.done])]
    exact ih h
  | quiet mem htime _ ih =>
    rw [waitLoop_woke h.done (takeInput_none mem w _) fun _ => htime]
    exact ih h
  | others hread hnot hclean htime _ ih =>
    rw [waitLoop_woke h.done (by rw [takeInput, hread]; rfl) fun _ => htime]
    exact ih (h.others hnot hclean)
  | suspended rounds hread hsuspended hclean htime =>
    obtain ⟨hdone, hcode⟩ := h.answered hsuspended hclean
    rw [waitLoop_woke h.done (by rw [takeInput, hread]; rfl) fun _ => htime, waitLoop_of_done hdone,
      hcode]
    exact ⟨_, _, rfl⟩

theorem acknowledged_of_waitLoop (htimeout : 0 < timeoutMs) {rounds : List Round} (h : Open w)
    {w' : WaitCtx} {buf' : ReadBuf}
    (hwait : waitLoop codec timeoutMs rounds w buf = some (0, w', buf')) :
    Acknowledged codec timeoutMs buf rounds := by
  induction rounds generalizing w buf with
  | nil =>
    rw [waitLoop, h.done] at hwait
    cases hwait
  | cons round rounds ih =>
    obtain ⟨interrupted, answer, elapsedMs⟩ := round
    have hcode := h.waitCode_eq
    rw [waitLoop, h.done] at hwait
    cases interrupted with
    | true => simp [hcode] at hwait
    | false =>
      cases answer with
      | signal => exact .signal elapsedMs (ih h (by simpa using hwait))
      | failed => simp [hcode] at hwait
      | woke input mem hangup =>
        simp only [Bool.false_eq_true, or_self, if_false] at hwait
        cases htake : takeInput codec mem w buf input with
        | none => simp [htake] at hwait
        | some next =>
          obtain ⟨w₁, buf₁⟩ := next
          simp only [htake] at hwait
          split_ifs at hwait with hhangup hlate
          · cases hwait
          · cases hwait
          have htime : elapsedMs < timeoutMs := by omega
          obtain rfl : hangup = false := by simpa using hhangup
          cases input with
          | none =>
            cases htake
            exact .quiet mem htime (ih h hwait)
          | some read =>
            obtain ⟨⟨buf₂, msgs⟩, hread, hnext⟩ := Option.map_eq_some_iff.mp htake
            cases hnext
            cases hany : msgs.any isAnonymousError with
            | true =>
              obtain ⟨hdone, hbad⟩ := h.refused hany
              rw [waitLoop_of_done hdone, hbad] at hwait
              cases hwait
            | false =>
              by_cases hsuspended : ∃ msg ∈ msgs, msg.type = .suspended
              · exact .suspended rounds hread hsuspended hany htime
              · have hnot : ∀ msg ∈ msgs, msg.type ≠ .suspended :=
                  fun msg hmsg heq => hsuspended ⟨msg, hmsg, heq⟩
                exact .others hread hnot hany htime (ih (h.others hnot hany) hwait)

end Waiting

/-- Once its command line is complete, the resume is written to the broker exactly when the
broker's word that it is suspended has been taken in and the write succeeds. How the child
ends, and which signals arrive after that word, is of no account. -/
theorem with_port_resumes_iff (codec : Codec) (cliTimeoutMs : Int) {command : List Bytes}
    (hcommand : command ≠ []) (world : World) (buf : ReadBuf) :
    (cmdWithPort codec cliTimeoutMs command world buf).sent .resume ↔
      Acknowledged codec (withPortTimeout cliTimeoutMs) buf world.suspendRounds ∧
        world.sendResume = true := by
  have hopen : Open ⟨.suspended, none, none, none, false, false, []⟩ := ⟨⟨rfl, rfl, rfl⟩, rfl, rfl⟩
  unfold cmdWithPort Outcome.sent
  rw [if_neg hcommand]
  dsimp only
  constructor
  · intro hsent
    cases hwait : waitForResponse codec .suspended none none (withPortTimeout cliTimeoutMs)
        world.suspendRounds buf with
    | none => simp [hwait] at hsent
    | some r =>
      obtain ⟨rc, w', buf'⟩ := r
      by_cases hrc : rc = 0
      · subst hrc
        refine ⟨acknowledged_of_waitLoop (withPortTimeout_pos cliTimeoutMs) hopen hwait, ?_⟩
        simpa [hwait] using hsent
      · simp [hwait, hrc] at hsent
  · rintro ⟨hack, hsend⟩
    obtain ⟨w', buf', hwait⟩ := waitLoop_of_acknowledged hack hopen
    simp [waitForResponse, hwait, hsend]

def answeredWorld : World :=
  ⟨true, [⟨false, .woke (some (msgEncode JsonText.textCodec
    (msgSuspended (ascii "/dev/ttyUSB0") (ascii "a")))) true false, 3⟩], .killed 2, true, []⟩

theorem acknowledged_answeredWorld :
    Acknowledged JsonText.textCodec (withPortTimeout 0) ⟨[], 0⟩ answeredWorld.suspendRounds := by
  have hread : ∃ r, readMessages JsonText.textCodec true (msgEncode JsonText.textCodec
      (msgSuspended (ascii "/dev/ttyUSB0") (ascii "a"))) ⟨[], 0⟩ = some r ∧
      ((r.2.any fun msg => decide (msg.type = .suspended)) && !r.2.any isAnonymousError) :=
    (Option.any_eq_true _ _).mp (by decide +kernel)
  obtain ⟨⟨buf', msgs⟩, hread, hmsgs⟩ := hread
  obtain ⟨hany, hclean⟩ := (Bool.and_eq_true _ _).mp hmsgs
  exact .suspended [] hread (by simpa using hany) (by simpa using hclean) (by decide)

theorem with_port_resumes_killed :
    (cmdWithPort JsonText.textCodec 0 [ascii "flash"] answeredWorld ⟨[], 0⟩).sent .resume :=
  (with_port_resumes_iff JsonText.textCodec 0 (by decide) answeredWorld ⟨[], 0⟩).mpr
    ⟨acknowledged_answeredWorld, rfl⟩

section Late
open Broker

def joinedSteps : List Step := [.event (.listen (plainReg 1)), .message 1 (helloMsg "a" [])]

def lateWorld : World := ⟨true, [⟨false, .woke none true false, 5000⟩], .exited 0, true, []⟩

/-- The broker lets go of the port on the request, and the command returns without a word
about a resume when the answer does not come in time. -/
theorem late_answer_keeps_port_released :
    let asked := msgDecode JsonText.textCodec (JsonText.textCodec.print Request.suspend.msg)
    (runSteps plainEnv (plainInit []) joinedSteps).suspended = false ∧
      (runSteps plainEnv (plainInit []) (joinedSteps ++ [.message 1 asked])).suspended = true ∧
      cmdWithPort JsonText.textCodec 0 [ascii "flash"] lateWorld ⟨[], 0⟩ =
        ⟨[(.suspend, true)], some 1⟩ := by
  decide +kernel

end Late

end Smolmux.Cli
