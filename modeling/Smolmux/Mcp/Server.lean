import Smolmux.Mcp.Tools

/-! The standalone MCP server (`mcp_client.c`): its connection attempts, the calls of its
tools and its main loop. Which tools there are, which of them are switched off and the
hints behind error texts are parameters. -/

namespace Smolmux.Mcp
open Protocol List

def outputBufferMax : Nat := 1024 * 1024

structure Screen where
  output : Bytes
  lastLinkEvent : Bytes

def bufferOutput (output data : Bytes) : Bytes :=
  let valid := data.filter (· ≠ 0)
  if valid = [] then output
  else if outputBufferMax < output.length + valid.length then
    let need := output.length + valid.length - outputBufferMax
    output.drop (max (min need output.length) (outputBufferMax / 2)) ++ valid
  else output ++ valid

def typeName (type : MsgType) : Bytes :=
  ((msgTypeMap.find? fun entry => entry.2 = type).map fun entry => ascii entry.1).getD
    (ascii "unknown")

def screenHooks : Hooks Screen where
  output screen data := { screen with output := bufferOutput screen.output data }
  event screen type _ := { screen with lastLinkEvent := stored 32 (typeName type) }

/-- What an attempt to reach the broker meets: no socket, with what is known about it, or
a connection and the polls of the wait for the welcome. -/
inductive Dial
  | refused (reason : Bytes)
  | up (hello : List Poll)

structure Server where
  session : Session Screen
  connected : Bool
  offline : Bool
  offlineReason : Bytes
  dials : List Dial
  stdinClosed : Bool
  broken : Bool

def Server.conn (s : Server) : BrokerConn Screen := s.session.conn

def Server.setConn (s : Server) (c : BrokerConn Screen) : Server :=
  { s with session := { s.session with conn := c } }

structure Setup where
  codec : Codec
  profile : DeviceProfile
  tool : Bytes → Option (Json → ToolScript Screen Outcome)
  forbidden : Bytes → Bool
  hint : Bytes → Bytes

/-- A connection of the old descriptor in use for a new one: `read_len` and `read_cap` stay
as they are. -/
def BrokerConn.reused {σ : Type} (c : BrokerConn σ) : BrokerConn σ :=
  { c with running := true, unread := [], received := [], handled := [], answers := [] }

def setOffline (reason : Bytes) (s : Server) : Server :=
  { s.setConn { s.conn with running := true } with
    offline := true, offlineReason := stored 4096 reason, connected := false }

def redial (s : Server) : Server :=
  { s.setConn s.conn.reused with connected := true, offlineReason := [], dials := s.dials.tail }

def configureBrokerAnomalies (profile : DeviceProfile) : ToolScript Screen Unit :=
  if profile.anomalyPatterns = [] then .done ()
  else
    .ask .genId fun (id : Bytes) =>
      brokerRequest (((makeMsg "configure_anomaly").add "id" (.str id)).add "patterns"
        (.arr profile.anomalyPatterns)) id 5000 fun _ => .done ()

def rejection (reply : Json) : Bytes :=
  stored 192 (ascii "[ERROR] broker rejected this client: " ++
    match reply.getString "message" with
    | some (c :: cs) => c :: cs
    | _ => ascii "handshake refused")

def tryConnectBroker (setup : Setup) (s : Server) : Server × Bool :=
  match s.dials.headD (.refused []) with
  | .refused reason =>
    ({ s.setConn { s.conn with running := true } with
        connected := false, offline := true, offlineReason := stored 4096 reason
        dials := s.dials.tail }, false)
  | .up hello =>
    let s := redial s
    let r := brokerConnWait setup.codec screenHooks none hello s.conn
    match r.2 with
    | none =>
      (setOffline (ascii "[ERROR] broker did not answer the hello handshake") (s.setConn r.1), false)
    | some reply =>
      if reply.getString "type" ≠ some (ascii "welcome") then
        (setOffline (rejection reply) (s.setConn r.1), false)
      else
        let session := ((configureBrokerAnomalies setup.profile).run
          (handleOp setup.codec screenHooks) (s.setConn r.1).session).1
        ({ s with session := session, offline := false, offlineReason := [] }, true)

def explained (setup : Setup) (text : Bytes) : Bytes :=
  if (ascii "[ERROR]").isPrefixOf text ∨ (ascii "[TIMEOUT]").isPrefixOf text ∨
      (ascii "[ABORTED").isPrefixOf text then setup.hint text
  else text

def runTool (setup : Setup) (name : Bytes) (args : Json) (s : Server) : Server × Outcome :=
  if setup.forbidden name then
    (s, .ok (ascii "[ERROR] mutate tools disabled (set SMOLMUX_MCP_MUTATE=1)"))
  else
    match setup.tool name with
    | none => (s, .ok (explained setup
        (setup.hint (stored 256 (ascii "[ERROR] unknown tool: " ++ name)))))
    | some tool =>
      let r := (tool args).run (handleOp setup.codec screenHooks) s.session
      ({ s with session := r.1 }, r.2.map (explained setup))

def dispatchTool (setup : Setup) (name : Bytes) (args : Json) (s : Server) : Server × Outcome :=
  -- the list of ports needs no broker
  if name = ascii "serial_list_ports" ∨ (s.connected = true ∧ s.conn.running = true) then
    runTool setup name args s
  else
    let r := tryConnectBroker setup s
    if r.2 then runTool setup name args r.1
    else if r.1.offlineReason ≠ [] then (r.1, .ok (setup.hint r.1.offlineReason))
    else
      (r.1, .ok (setup.hint (ascii "[ERROR] no broker socket " ++ [0xE2, 0x80, 0x94] ++
        ascii " smolmux broker is not running or not reachable")))

inductive StdinRead
  | eof
  | failed
  | calls (requests : List (Bytes × Json))

inductive StdinEvent
  | quiet
  | readable (read : StdinRead)
  | hangup

def handleStdinData (setup : Setup) (read : StdinRead) (s : Server) : Server :=
  match read with
  | .eof => { s.setConn { s.conn with running := false } with stdinClosed := true }
  | .failed => s
  | .calls requests => requests.foldl (fun s call => (dispatchTool setup call.1 call.2 s).1) s

inductive TurnPoll
  | failed
  | interrupted
  | ready (broker : Ready) (stdin : StdinEvent)

structure Turn where
  signal : Bool
  poll : TurnPoll

def meetBroker (setup : Setup) (e : Ready) (s : Server) : Server :=
  if s.connected then
    let s := s.setConn (meet setup.codec screenHooks none e s.conn).1
    if e.hangup then { s with connected := false, offline := true } else s
  else s

def meetStdin (setup : Setup) (stdin : StdinEvent) (s : Server) : Server :=
  match stdin with
  | .quiet => s
  | .readable read => handleStdinData setup read s
  | .hangup => { s.setConn { s.conn with running := false } with stdinClosed := true }

def Server.turn (setup : Setup) (s : Server) (t : Turn) : Server :=
  let s := s.setConn (interrupt t.signal s.conn)
  if s.conn.running = false ∨ s.broken = true then s
  else
    match t.poll with
    | .failed => { s with broken := true }
    | .interrupted => s
    | .ready broker stdin => meetStdin setup stdin (meetBroker setup broker s)

/-- `main`: the first attempt to connect, and the loop runs whatever becomes of it. -/
def serverStart (setup : Setup) (s : Server) : Server :=
  let r := tryConnectBroker setup s
  if r.2 then r.1 else { r.1.setConn { r.1.conn with running := true } with offline := true }

def Server.run (setup : Setup) (s : Server) (turns : List Turn) : Server :=
  turns.foldl (Server.turn setup) (serverStart setup s)

def newServer (sends : List Bool) (waits : List (List Poll)) (mallocs : List Bool)
    (dials : List Dial) : Server where
  session := ⟨brokerConnInit 8192 ⟨[], []⟩, sends, waits, mallocs⟩
  connected := false
  offline := false
  offlineReason := []
  dials := dials
  stdinClosed := false
  broken := false

variable {awaited : Option Bytes} {e : Ready} {polls : List Poll}

section Well
variable {σ : Type} {codec : Codec} {hooks : Hooks σ} {calm excused : Prop} {c : BrokerConn σ}

def Ready.Harmless (e : Ready) : Prop := e.hangup = false ∧ e.pull ≠ .eof

def Poll.Harmless : Poll → Prop
  | .ready e => e.Harmless
  | _ => True

/-- The buffer is sized; in calm weather the flag is cleared for a signal or for a given
excuse only. -/
structure BrokerConn.Well (calm excused : Prop) (c : BrokerConn σ) : Prop where
  sized : c.Sized
  alive : calm → c.running = false → c.signalled = true ∨ excused

theorem well_of_running {d : BrokerConn σ} (h : d.Sized) (hrunning : d.running) :
    d.Well calm excused :=
  ⟨h, fun _ hstopped => absurd (hrunning.symm.trans hstopped) nofun⟩

theorem well_of_excused {d : BrokerConn σ} (h : d.Sized) (hexcuse : excused) :
    d.Well calm excused :=
  ⟨h, fun _ _ => .inr hexcuse⟩

theorem meet_well (hpull : calm → e.pull ≠ .eof) (h : c.Well calm excused) : (meet codec hooks awaited e c).1.Well calm excused := by
  refine ⟨meet_sized awaited e h.sized, fun hcalm => ?_⟩
  unfold meet
  split_ifs
  · refine read_cases ?full ?nothing ?eof ?data
    case full => exact fun _ => h.alive hcalm
    case nothing => exact fun _ _ => h.alive hcalm
    case eof => exact fun _ _ hend => absurd hend (hpull hcalm)
    case data => exact fun _ _ _ _ => h.alive hcalm
  · exact h.alive hcalm

theorem interrupt_well (signal : Bool) (h : c.Well calm excused) :
    (interrupt signal c).Well calm excused := by
  unfold interrupt
  split_ifs
  · exact ⟨h.sized, fun _ _ => .inl rfl⟩
  · exact h

theorem waitAlong_harmless (h : calm → ∀ poll ∈ polls, poll.Harmless) (c : BrokerConn σ) :
    waitAlong codec hooks (fun _ e _ => calm → e.Harmless) awaited polls c := by
  induction polls generalizing c with
  | nil => trivial
  | cons poll polls ih =>
    have hlater := ih fun hcalm p hp => h hcalm p (mem_cons_of_mem _ hp)
    cases poll with
    | timeout => trivial
    | failed => trivial
    | interrupted signal => exact hlater _
    | ready e => exact ⟨fun hcalm => h hcalm _ mem_cons_self, hlater _⟩

theorem wait_well (hpolls : calm → ∀ poll ∈ polls, poll.Harmless) (h : c.Well calm excused) :
    (brokerConnWait codec hooks awaited polls c).1.Well calm excused :=
  wait_keeps (fun _ _ _ _ h hpoll => meet_well (fun hcalm => (hpoll hcalm).2) h)
    (fun _ _ _ _ h hpoll hhangup =>
      have hmet := meet_well (fun hcalm => (hpoll hcalm).2) h
      ⟨hmet.sized, fun hcalm => absurd hhangup (by simp [(hpoll hcalm).1])⟩)
    (fun signal _ h => interrupt_well signal h) awaited polls c h (waitAlong_harmless hpolls c)

theorem wait_sized (h : c.Sized) :
    (brokerConnWait codec hooks awaited polls c).1.Sized :=
  have hstart : c.Well False True := ⟨h, False.elim⟩
  (wait_well False.elim hstart).sized

theorem meet_answer_running :
    (meet codec hooks awaited e c).2.isSome →
      (meet codec hooks awaited e c).1.running = c.running := by
  unfold meet
  split_ifs
  · refine read_cases ?full ?nothing ?eof ?data
    case full => exact fun _ _ => rfl
    case nothing => exact fun _ _ _ => rfl
    case eof => exact fun _ _ _ _ => nofun
    case data => exact fun _ _ _ _ _ => rfl
  · exact nofun

theorem wait_answer_running (h : (brokerConnWait codec hooks awaited polls c).2.isSome) :
    (brokerConnWait codec hooks awaited polls c).1.running := by
  induction polls generalizing c with
  | nil => cases h
  | cons poll polls ih =>
    unfold brokerConnWait at h ⊢
    split_ifs at h ⊢ with hrunning
    · cases h
    have hrun : c.running := by simpa using hrunning
    cases poll with
    | timeout => cases h
    | failed => cases h
    | interrupted signal => exact ih h
    | ready e =>
      dsimp only at h ⊢
      split_ifs at h ⊢ with hanswer hhangup
      · rw [meet_answer_running hanswer, hrun]
      · cases h
      · exact ih h

structure Session.Well (calm excused : Prop) (s : Session σ) : Prop where
  harmless : calm → ∀ polls ∈ s.waits, ∀ poll ∈ polls, poll.Harmless
  conn : s.conn.Well calm excused

theorem handleOp_well (s : Session σ) (op : ToolOp σ) (h : s.Well calm excused) :
    (handleOp codec hooks s op).1.Well calm excused := by
  cases op with
  | genId => exact ⟨h.harmless, h.conn.sized, h.conn.alive⟩
  | send msg => exact ⟨h.harmless, h.conn⟩
  | malloc => exact ⟨h.harmless, h.conn⟩
  | own change => exact ⟨h.harmless, h.conn.sized, h.conn.alive⟩
  | wait awaited timeoutMs =>
    have hpolls : calm → ∀ poll ∈ s.waits.headD [], poll.Harmless := by
      intro hcalm
      cases hwaits : s.waits with
      | nil => exact nofun
      | cons polls rest => exact h.harmless hcalm polls (hwaits ▸ mem_cons_self)
    exact ⟨fun hcalm polls hmem => h.harmless hcalm polls (mem_of_mem_tail hmem),
      wait_well hpolls h.conn⟩

theorem script_well {α : Type} (script : ToolScript σ α) {s : Session σ}
    (h : s.Well calm excused) : (script.run (handleOp codec hooks) s).1.Well calm excused :=
  Script.run_keeps handleOp_well script h

end Well

section Survival
variable {calm : Prop} {setup : Setup} {s : Server}

structure Server.Well (calm : Prop) (s : Server) : Prop where
  session : s.session.Well calm (s.stdinClosed = true)
  unbroken : calm → s.broken = false

theorem init_sized {σ : Type} (user : σ) : (brokerConnInit 8192 user).Sized :=
  (⟨by decide, by decide, by decide⟩ : Fits 0 8192)

theorem newServer_well {sends : List Bool} {waits : List (List Poll)} {mallocs : List Bool}
    {dials : List Dial} (hwaits : calm → ∀ polls ∈ waits, ∀ poll ∈ polls, poll.Harmless) :
    (newServer sends waits mallocs dials).Well calm :=
  ⟨⟨hwaits, well_of_running (init_sized _) rfl⟩, fun _ => rfl⟩

theorem tryConnectBroker_well (h : s.Well calm) : (tryConnectBroker setup s).1.Well calm := by
  have hsized : (redial s).conn.Sized := h.session.conn.sized
  unfold tryConnectBroker
  split
  · exact ⟨⟨h.session.harmless, well_of_running h.session.conn.sized rfl⟩, h.unbroken⟩
  · next hello _ =>
    have hwaited : (brokerConnWait setup.codec screenHooks none hello (redial s).conn).1.Sized :=
      wait_sized hsized
    dsimp only
    cases hreply : (brokerConnWait setup.codec screenHooks none hello (redial s).conn).2 with
    | none => exact ⟨⟨h.session.harmless, well_of_running hwaited rfl⟩, h.unbroken⟩
    | some reply =>
      have hrunning := wait_answer_running (Option.isSome_iff_exists.mpr ⟨reply, hreply⟩)
      dsimp only
      split_ifs
      · exact ⟨⟨h.session.harmless, well_of_running hwaited rfl⟩, h.unbroken⟩
      · exact ⟨script_well _ ⟨h.session.harmless, well_of_running hwaited hrunning⟩, h.unbroken⟩

theorem runTool_well (name : Bytes) (args : Json) (h : s.Well calm) :
    (runTool setup name args s).1.Well calm := by
  unfold runTool
  split_ifs
  · exact h
  · split
    · exact h
    · next tool _ => exact ⟨script_well (tool args) h.session, h.unbroken⟩

theorem dispatchTool_well (name : Bytes) (args : Json) (h : s.Well calm) :
    (dispatchTool setup name args s).1.Well calm := by
  have hdialled : (tryConnectBroker setup s).1.Well calm := tryConnectBroker_well h
  unfold dispatchTool
  dsimp only
  split_ifs
  · exact runTool_well name args h
  · exact runTool_well name args hdialled
  · exact hdialled
  · exact hdialled

theorem handleStdinData_well (read : StdinRead) (h : s.Well calm) :
    (handleStdinData setup read s).Well calm := by
  cases read with
  | eof => exact ⟨⟨h.session.harmless, well_of_excused h.session.conn.sized rfl⟩, h.unbroken⟩
  | failed => exact h
  | calls requests =>
    unfold handleStdinData
    induction requests generalizing s with
    | nil => exact h
    | cons call requests ih => exact ih (dispatchTool_well call.1 call.2 h)

theorem meetBroker_well (hpull : calm → e.pull ≠ .eof) (h : s.Well calm) :
    (meetBroker setup e s).Well calm := by
  unfold meetBroker
  dsimp only
  split_ifs
  · exact ⟨⟨h.session.harmless, meet_well hpull h.session.conn⟩, h.unbroken⟩
  · exact ⟨⟨h.session.harmless, meet_well hpull h.session.conn⟩, h.unbroken⟩
  · exact h

theorem meetStdin_well (stdin : StdinEvent) (h : s.Well calm) :
    (meetStdin setup stdin s).Well calm := by
  cases stdin with
  | quiet => exact h
  | readable read => exact handleStdinData_well read h
  | hangup => exact ⟨⟨h.session.harmless, well_of_excused h.session.conn.sized rfl⟩, h.unbroken⟩

def Turn.Harmless (t : Turn) : Prop :=
  match t.poll with
  | .failed => False
  | .interrupted => True
  | .ready broker _ => broker.pull ≠ .eof

theorem turn_well {t : Turn} (ht : calm → t.Harmless) (h : s.Well calm) :
    (s.turn setup t).Well calm := by
  obtain ⟨signal, poll⟩ := t
  have hsignal : (s.setConn (interrupt signal s.conn)).Well calm :=
    ⟨⟨h.session.harmless, interrupt_well signal h.session.conn⟩, h.unbroken⟩
  unfold Server.turn
  dsimp only
  split_ifs
  · exact hsignal
  · cases poll with
    | failed => exact ⟨hsignal.session, fun hcalm => (ht hcalm).elim⟩
    | interrupted => exact hsignal
    | ready broker stdin => exact meetStdin_well stdin (meetBroker_well ht hsignal)

theorem serverStart_well (h : s.Well calm) : (serverStart setup s).Well calm := by
  have hdialled : (tryConnectBroker setup s).1.Well calm := tryConnectBroker_well h
  unfold serverStart
  dsimp only
  split_ifs
  · exact hdialled
  · exact ⟨⟨hdialled.session.harmless, well_of_running hdialled.session.conn.sized rfl⟩,
      hdialled.unbroken⟩

theorem turns_well {turns : List Turn} (hturns : calm → ∀ t ∈ turns, t.Harmless)
    (h : s.Well calm) : (turns.foldl (Server.turn setup) s).Well calm := by
  induction turns generalizing s with
  | nil => exact h
  | cons t turns ih =>
    exact ih (fun hcalm t ht => hturns hcalm t (mem_cons_of_mem _ ht))
      (turn_well (fun hcalm => hturns hcalm t mem_cons_self) h)

/-- Whatever becomes of the attempts to connect, as long as no read outside the handshake
meets the end of the stream, no wait of a tool sees a hang-up and `poll` works, the main loop
ends for a signal or the end of stdin only. -/
theorem server_outlives_broker (setup : Setup) (sends : List Bool) (waits : List (List Poll))
    (mallocs : List Bool) (dials : List Dial) (turns : List Turn)
    (hwaits : ∀ polls ∈ waits, ∀ poll ∈ polls, poll.Harmless)
    (hturns : ∀ t ∈ turns, t.Harmless) :
    let s := (newServer sends waits mallocs dials).run setup turns
    s.conn.running = false ∨ s.broken = true → s.conn.signalled = true ∨ s.stdinClosed = true := by
  intro s hended
  have hwell : s.Well True :=
    turns_well (fun _ => hturns) (serverStart_well (newServer_well fun _ => hwaits))
  rcases hended with hstopped | hbroken
  · exact hwell.session.conn.alive trivial hstopped
  · exact absurd hbroken (by simp [hwell.unbroken trivial])

def bareSetup : Setup where
  codec := JsonText.textCodec
  profile := ⟨[], [], [], 5000, []⟩
  tool _ := none
  forbidden _ := false
  hint text := text

def stdinTurn (stdin : StdinEvent) : Turn := ⟨false, .ready ⟨[], false, false, .failed, true⟩ stdin⟩

theorem server_outlives_broker_handshake :
    let turns := [stdinTurn (.readable (.calls [(ascii "serial_status", .null)])), stdinTurn .hangup]
    let s := (newServer [] [] [] [.refused [], .up [.ready ⟨[], true, true, .eof, true⟩]]).run
      bareSetup turns
    s.conn.running = false ∧ (s.conn.signalled = true ∨ s.stdinClosed = true) := by
  intro turns s
  have hstopped : s.conn.running = false := by decide +kernel
  have hturns : ∀ t ∈ turns, t.Harmless := by simp [turns, stdinTurn, Turn.Harmless]
  exact ⟨hstopped, server_outlives_broker bareSetup [] [] [] _ turns nofun hturns (.inl hstopped)⟩

def welcomeLine : Bytes :=
  JsonText.textCodec.print (.obj [("type", .str (ascii "welcome"))]) ++ [newline]

/-- An idle server reads the end of the stream of its broker: the main loop ends, with stdin
open and no signal. -/
theorem lost_broker_ends_server :
    let s := (newServer [] [] [] [.up [.ready (arrives welcomeLine false)]]).run bareSetup
      [⟨false, .ready ⟨[], true, true, .eof, true⟩ .quiet⟩]
    s.conn.running = false ∧ s.conn.signalled = false ∧ s.stdinClosed = false := by
  decide +kernel

end Survival

section Reconnect
variable {codec : Codec} {c : BrokerConn Screen}

theorem reused_sound (hsized : c.Sized) (hempty : c.buf = []) : c.reused.Sound codec := by
  refine ⟨?_, ?_, rfl, hsized.capPos, hsized.capMax, hsized.fits⟩
  · simp [BrokerConn.reused, hempty]
  · simp [BrokerConn.reused, hempty]

/-- The state in which a tool call finds the server is one in which some turn ends. With no
bytes left in the buffer there, the lines parsed on the next connection are those of its own
stream, as on a connection that never had another one, and the answer to the hello is the
first message of that stream that can be one. -/
theorem reconnect_parses_own_stream (setup : Setup) (sends : List Bool) (waits : List (List Poll))
    (mallocs : List Bool) (dials : List Dial) (turns : List Turn) (hello : List Poll)
    (ops : List ConnOp) :
    let s := (newServer sends waits mallocs dials).run setup turns
    let c := (redial s).conn.run setup.codec screenHooks (.wait none hello :: ops)
    s.conn.buf = [] →
    runAlong setup.codec screenHooks Kept (.wait none hello :: ops) (redial s).conn →
    c.handled.map (·.line) ++ linesOf c.buf = linesOf c.received ∧
    (∀ (user : Screen) (ops' : List ConnOp),
      let fresh := (brokerConnInit 8192 user).run setup.codec screenHooks ops'
      runAlong setup.codec screenHooks Kept ops' (brokerConnInit 8192 user) →
      fresh.received = c.received →
      c.handled.map (·.line) ++ linesOf c.buf = fresh.handled.map (·.line) ++ linesOf fresh.buf) ∧
    let r := brokerConnWait setup.codec screenHooks none hello (redial s).conn
    r.2 = firstAnswer setup.codec none r.1.received := by
  intro s c hempty hkept
  have hwell : s.Well False :=
    turns_well False.elim (serverStart_well (newServer_well False.elim))
  have hstart : (redial s).conn.Sound setup.codec := reused_sound hwell.session.conn.sized hempty
  have hsound : c.Sound setup.codec := sound_run _ hstart hkept
  refine ⟨hsound.lines, ?_, wait_first hstart hkept.1 rfl⟩
  intro user ops' fresh hkept' hreceived
  have hfresh : fresh.Sound setup.codec :=
    sound_run ops' (sound_init (by decide) (by decide)) hkept'
  rw [hsound.lines, hfresh.lines, hreceived]

theorem reconnect_parses_own_stream_welcome :
    let s := (newServer [] [] [] [.up [.ready (arrives welcomeLine false)]]).run bareSetup
      [⟨false, .ready ⟨[], true, true, .eof, true⟩ .quiet⟩]
    let c := (redial s).conn.run bareSetup.codec screenHooks
      [.wait none [.ready (arrives welcomeLine false)]]
    c.handled.length = 1 ∧ c.handled.map (·.line) ++ linesOf c.buf = linesOf c.received := by
  have hstream := reconnect_parses_own_stream bareSetup [] [] []
    [.up [.ready (arrives welcomeLine false)]] [⟨false, .ready ⟨[], true, true, .eof, true⟩ .quiet⟩]
    [.ready (arrives welcomeLine false)] [] (by decide +kernel)
    ⟨⟨fun _ h => absurd h (by decide +kernel), trivial⟩, trivial⟩
  exact ⟨by decide +kernel, hstream.1⟩

/-- The old stream ends in the middle of a line: the welcome of the next connection is read
as the end of that line, and the handshake fails. -/
theorem half_line_spoils_handshake :
    let cut := welcomeLine ++ welcomeLine.take 8
    let lost := ⟨false, .ready ⟨[], true, true, .eof, true⟩
      (.readable (.calls [(ascii "serial_status", .null)]))⟩
    let s := (newServer [] [] [] [.up [.ready (arrives cut false)],
      .up [.ready (arrives welcomeLine false)]]).run bareSetup [lost]
    let fresh := newServer [] [] [] [.up [.ready (arrives welcomeLine false)]]
    s.conn.received = welcomeLine ∧ s.connected = false ∧
      s.offlineReason = ascii "[ERROR] broker did not answer the hello handshake" ∧
      (tryConnectBroker bareSetup fresh).2 = true := by
  decide +kernel

end Reconnect

end Smolmux.Mcp
