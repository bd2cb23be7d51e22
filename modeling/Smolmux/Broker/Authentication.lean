import Smolmux.Broker.Takeover

/-! The authentication gate. With a token set, a connection from the network is
answered and nothing more until it has sent a hello with that token: no broadcast
reaches it, and its messages change nothing but its own connection. -/

namespace Smolmux.Broker
open Protocol Smolmux.Client Smolmux.Frame List

variable {ρ : Type}

variable (c : Client)

def hideAt (a : Addr) (c : Client) : Option Client := if c.addr = a then none else some c

/-- Only the connection of `c` is touched: the rest of the broker is as it was, and
`c` was heard and answered. -/
structure Confined (c : Client) (b b' : Broker ρ) : Prop where
  rest : { b' with clients := b.clients, queries := b.queries, trace := b.trace } = b
  others : b'.clients.map (hideAt c.addr) = b.clients.map (hideAt c.addr)
  own : ∃ c', b'.clientAt c.addr = some c' ∧ c'.serial = c.serial ∧
    c'.helloReceived = c.helloReceived
  trace : Grows (fun ev => (∃ msg, ev = .dispatched c.serial msg) ∨
    ∃ msg, ev = .sent c.serial false msg) b.trace b'.trace

def confined (c : Client) : Frame (Broker ρ) where
  rel b b' := (∃ d, b.clientAt c.addr = some d ∧ d.serial = c.serial ∧
    d.helloReceived = c.helloReceived) → Confined c b b'
  refl b h := ⟨rfl, rfl, h, .refl ..⟩
  trans := by
    intro b₁ b₂ b₃ h h' hc
    have h₁ := h hc
    have h₂ := h' h₁.own
    refine ⟨?_, h₂.others.trans h₁.others, h₂.own, h₁.trace.trans h₂.trace⟩
    have hrest := congrArg (fun b : Broker ρ =>
      { b with clients := b₁.clients, queries := b₁.queries, trace := b₁.trace }) h₂.rest
    exact hrest.trans h₁.rest

theorem confined_ask {α : Type} (f : Env ρ → Nat → α) : (confined c).Keeps (ask f) :=
  ⟨fun _ _ h => ⟨rfl, rfl, h, .refl ..⟩⟩

theorem confined_updateClient {f : Client → Client} (haddr : ∀ d, (f d).addr = d.addr)
    (hserial : ∀ d, (f d).serial = d.serial) (hhello : ∀ d, (f d).helloReceived = d.helloReceived) :
    (confined c).Keeps (updateClient c.addr f : M ρ Unit) := by
  refine ⟨fun e b hc => ⟨rfl, ?_, ?_, .refl ..⟩⟩
  · change (b.clients.map _).map _ = _
    rw [map_map]
    refine map_congr_left fun d _ => ?_
    by_cases hd : d.addr = c.addr
    · simp [hideAt, hd, haddr]
    · simp [hideAt, hd]
  · obtain ⟨d, hd, hs, hh⟩ := hc
    refine ⟨f d, ?_, (hserial d).trans hs, (hhello d).trans hh⟩
    rw [clientAt_updateClient b c.addr haddr e, hd, Option.map_some,
      if_pos (addr_of_clientAt hd)]

theorem confined_sendToClient (msg : Json) :
    (confined c).Keeps (sendToClient c.addr msg : M ρ Unit) := by
  refine keeps_env fun e => keeps_bind (confined_ask c _) fun mem => ?_
  refine ⟨fun e' b h => ?_⟩
  obtain ⟨d, hd, hserial, hhello⟩ := h
  have hsent : Confined c b (b.noted (.sent d.serial false msg)) :=
    ⟨rfl, rfl, ⟨d, hd, hserial, hhello⟩, ⟨[_], rfl, by simp [hserial]⟩⟩
  have hqueue : (confined c).Keeps (updateClient c.addr fun c =>
      { c with queue := (clientSend e.codec mem c.queue msg).1 } : M ρ Unit) :=
    confined_updateClient c (fun _ => rfl) (fun _ => rfl) fun _ => rfl
  rw [Proc.bind_apply, Proc.get_apply]
  dsimp only
  rw [hd]
  exact (confined c).trans (fun _ => hsent) (hqueue.rel e' _) ⟨d, hd, hserial, hhello⟩

theorem confined_flushClient :
    (confined c).Keeps (flushClient c.addr : M ρ FlushResult) := by
  refine keeps_bind (confined_ask c _) fun results => keeps_get fun b => ?_
  split
  · exact keeps_pure _
  · exact .yields (confined_updateClient c (fun _ => rfl) (fun _ => rfl) fun _ => rfl)

theorem tokenAccepted_eq_false {b : Broker ρ} {c : Client} (hrequires : c.requiresAuth)
    (hset : b.authToken ≠ []) {root : Json} (h : root.getString "token" ≠ some b.authToken) :
    tokenAccepted b c root = false := by
  cases haccepted : tokenAccepted b c root with
  | false => rfl
  | true => exact absurd (token_of_tokenAccepted haccepted hrequires hset) h

theorem confined_refuseHello : (confined c).Keeps (refuseHello c.addr : M ρ Unit) :=
  keeps_bind (confined_sendToClient c _) fun _ => keeps_bind (confined_flushClient c) fun _ =>
    confined_updateClient c (fun _ => rfl) (fun _ => rfl) fun _ => rfl

theorem confined_dispatched {b : Broker ρ} {c : Client} (hc : b.clientAt c.addr = some c)
    (msg : Msg) : Confined c b (b.noted (.dispatched c.serial msg)) :=
  ⟨rfl, rfl, ⟨c, hc, rfl, rfl⟩, ⟨[_], rfl, by simp⟩⟩

theorem confined_of_not_hello {b : Broker ρ} {c : Client} (hc : b.clientAt c.addr = some c)
    (hhello : c.helloReceived = false) {msg : Msg} (hmsg : msg.type ≠ .hello) (e : Env ρ) :
    Confined c b (handleClientMessage c.addr msg e b).2 := by
  refine (confined c).trans (fun _ => confined_dispatched hc msg) ?_ ⟨c, hc, rfl, rfl⟩
  rw [handleClientMessage_some hc, if_pos ⟨hhello, hmsg⟩]
  exact (confined_sendToClient c _).rel e _

theorem confined_handleClientMessage {b : Broker ρ} {c : Client}
    (hc : b.clientAt c.addr = some c) (hhello : c.helloReceived = false)
    (hrequires : c.requiresAuth) (hset : b.authToken ≠ []) {msg : Msg}
    (hmsg : carriesToken b.authToken msg = false) (e : Env ρ) :
    Confined c b (handleClientMessage c.addr msg e b).2 := by
  by_cases htype : msg.type = .hello
  case neg => exact confined_of_not_hello hc hhello htype e
  refine (confined c).trans (fun _ => confined_dispatched hc msg) ?_ ⟨c, hc, rfl, rfl⟩
  rw [handleClientMessage_some hc, if_neg fun h => h.2 htype]
  have htoken : (msg.root.getD .null).getString "token" ≠ some b.authToken := by
    simpa [carriesToken, htype] using hmsg
  have hrun : handleHello c (msg.root.getD .null) e (b.noted (.dispatched c.serial msg)) =
      refuseHello c.addr e (b.noted (.dispatched c.serial msg)) := by
    have hrefused := tokenAccepted_eq_false (b := b.noted (.dispatched c.serial msg)) hrequires hset
      htoken
    simp [handleHello, hhello, hrefused]
  rw [htype, dispatchMessage, hrun]
  exact (confined_refuseHello c).rel e _

/-- The connection of `c` ends: the other clients stay, and no state is changed but
the expects under its id. -/
structure Departs (c : Client) (b b' : Broker ρ) : Prop where
  rest : { b' with clients := b.clients, expect := b.expect, trace := b.trace } = b
  others : b'.clients.Perm (b.clients.filter (·.addr ≠ c.addr))
  expects : b'.expect = Expect.expectCancelClient b.expect c.id
  trace : b'.trace = b.trace ++ [.removed c.serial]

theorem departs_removeClient {b : Broker ρ} (hwf : WellFormed b) {c : Client}
    (hc : b.clientAt c.addr = some c) (hholder : b.takeoverClient ≠ some c.addr) (e : Env ρ) :
    Departs c b (removeClient c.addr e b).2 := by
  rw [removeClient_some hc, if_neg hholder]
  refine ⟨rfl, ?_, rfl, rfl⟩
  rw [← eraseP_addr (keys_addrs b ▸ hwf.addrs)]
  exact dropClient_perm b.clients c.addr

variable {ev : Event}

section Gate

def LetThrough (token : Bytes) (before : List Event) (ev : Event) : Prop :=
  ∀ s m, ev = .sent s true m → .registered s false ∈ before ∨ Authenticated token before s

/-- What holds of a broker with a token in every state. -/
structure Gate (token : Bytes) (b : Broker ρ) : Prop where
  wf : WellFormed b
  authToken : b.authToken = token
  registered : ∀ x ∈ b.idents, .registered x.serial x.requiresAuth ∈ b.trace
  fresh : ∀ s r, .registered s r ∈ b.trace → s < b.registrations
  once : ∀ s r r', .registered s r ∈ b.trace → .registered s r' ∈ b.trace → r = r'
  hello : ∀ x ∈ b.idents, x.requiresAuth = true → x.helloReceived = true →
    Authenticated token b.trace x.serial
  broadcast : EachAfter (LetThrough token) b.trace

def TameEvent (idents : List Ident) (ev : Event) : Prop :=
  (∀ s r, ev ≠ .registered s r) ∧
    ∀ s m, ev = .sent s true m → ∃ x ∈ idents, x.serial = s ∧ x.helloReceived = true

theorem tame_of_calm {idents : List Ident} (h : CalmEvent idents ev) :
    TameEvent idents ev := by
  refine ⟨fun s r heq => ?_, fun s m heq => ?_⟩
  · rw [heq] at h
    exact h
  · rw [heq] at h
    exact h

theorem tame_of_clerical (idents : List Ident) (h : ev.isClerical) :
    TameEvent idents ev := by
  refine ⟨fun s r heq => ?_, fun s m heq => ?_⟩
  · rw [heq] at h
    cases h
  · rw [heq] at h
    cases h

theorem tame_single {idents : List Ident} {b : Broker ρ} (h : TameEvent idents ev) :
    Grows (TameEvent idents) b.trace (b.noted ev).trace := .single h b.trace

def Kept (token : Bytes) (b : Broker ρ) (x' : Ident) : Prop :=
  ∃ x ∈ b.idents, x.serial = x'.serial ∧ x.requiresAuth = x'.requiresAuth ∧
    (x'.helloReceived = true → x.helloReceived = true ∨
      (x'.requiresAuth = true → Authenticated token b.trace x'.serial))

theorem kept_self {token : Bytes} {b : Broker ρ} {x : Ident} (hx : x ∈ b.idents) :
    Kept token b x := ⟨x, hx, rfl, rfl, .inl⟩

variable {token : Bytes} {b b' : Broker ρ}

theorem letThrough_mono (pre more : List Event) (ev : Event) (h : LetThrough token pre ev) :
    LetThrough token (pre ++ more) ev := fun s m heq =>
  (h s m heq).imp (mem_append_left more) fun hauth =>
    hauth.mono (subset_append_left pre more)

theorem Gate.step (h : Gate token b) (hshrink : shrinking.rel b b')
    (htoken : b'.authToken = b.authToken)
    (htrace : Grows (TameEvent b.idents) b.trace b'.trace)
    (hkept : ∀ x' ∈ b'.idents, Kept token b x') : Gate token b' where
  wf := h.wf.shrink hshrink
  authToken := htoken.trans h.authToken
  registered x' hx' := by
    obtain ⟨x, hx, hserial, hrequires, -⟩ := hkept x' hx'
    rw [← hserial, ← hrequires]
    exact htrace.subset (h.registered x hx)
  fresh s r hs := by
    rw [hshrink.2]
    cases htrace.mem_or hs with
    | inl hold => exact h.fresh s r hold
    | inr htame => exact absurd rfl (htame.1 s r)
  once s r r' hr hr' := by
    cases htrace.mem_or hr with
    | inr htame => exact absurd rfl (htame.1 s r)
    | inl hr =>
      cases htrace.mem_or hr' with
      | inr htame => exact absurd rfl (htame.1 s r')
      | inl hr' => exact h.once s r r' hr hr'
  hello x' hx' hrequires hhello := by
    obtain ⟨x, hx, hserial, hsame, hauth⟩ := hkept x' hx'
    cases hauth hhello with
    | inl hold => exact hserial ▸ (h.hello x hx (hsame.trans hrequires) hold).mono htrace.subset
    | inr hnew => exact (hnew hrequires).mono htrace.subset
  broadcast := by
    refine h.broadcast.grow letThrough_mono (htrace.mono fun ev hev s m heq => ?_)
    obtain ⟨x, hx, rfl, hhello⟩ := hev.2 s m heq
    cases hrequires : x.requiresAuth with
    | false => exact .inl (hrequires ▸ h.registered x hx)
    | true => exact .inr (h.hello x hx hrequires hhello)

theorem Gate.calm {P : Event → Prop} (h : Gate token b) (hcalm : Calm P b b') : Gate token b' :=
  h.step (shrinking_of_calm hcalm) hcalm.authToken
    (hcalm.trace.mono fun _ hev => tame_of_calm hev.1) fun _ hx => kept_self (hcalm.idents ▸ hx)

theorem Gate.clerical (h : Gate token b) (hshrink : shrinking.rel b b') (hclerical : Clerical b b')
    (hkept : ∀ x' ∈ b'.idents, Kept token b x') : Gate token b' :=
  h.step hshrink hclerical.authToken
    (hclerical.trace.mono fun _ hev => tame_of_clerical b.idents hev) hkept

theorem Gate.act {e : Env ρ} (hset : token ≠ []) (h : Gate token b) (hact : Act e b b') :
    Gate token b' := by
  have hshrink := shrinking_act hact
  cases hact with
  | deed hwork => exact h.calm hwork.calm
  | tools id params heq => exact heq ▸ h.calm (calm_handleToolsCall id params e b)
  | dispatched c hc msg heq =>
    subst heq
    exact h.step hshrink rfl (tame_single ⟨by simp, by simp⟩) fun x hx => kept_self hx
  | renamed c hc hhello f heq =>
    subst heq
    refine h.clerical hshrink ((clerical_updateClient c.addr _).rel e b) fun x' hx' => ?_
    cases (mem_idents_updateClient h.wf hc e).mp hx' with
    | inr hx => exact kept_self hx.1
    | inl heq =>
      subst heq
      exact ⟨c.ident, mem_map_of_mem (mem_of_clientAt hc), rfl, rfl, .inl⟩
  | admitted c hc hhello hauth role heq =>
    subst heq
    refine h.clerical hshrink ((clerical_acceptHello c.addr role).rel e b) fun x' hx' => ?_
    cases (mem_idents_acceptHello h.wf hc role e).mp hx' with
    | inr hx => exact kept_self hx.1.1
    | inl heq =>
      subst heq
      rw [h.authToken] at hauth
      exact ⟨c.ident, mem_map_of_mem (mem_of_clientAt hc), rfl, rfl, fun _ =>
        .inr fun hrequires => hauth hrequires hset⟩
  | removed a heq =>
    subst heq
    refine h.clerical hshrink ((clerical_removeClient a).rel e b) fun x hx => ?_
    exact kept_self ((mem_idents_removeClient h.wf a e).mp hx).1
  | taken c hc hhello hrole hfree heq =>
    subst heq
    exact h.clerical hshrink (clerical_setTakeover b _) fun x hx => kept_self hx
  | released a heq =>
    subst heq
    exact h.clerical hshrink (clerical_setTakeover b _) fun x hx => kept_self hx

theorem Gate.register (h : Gate token b) (reg : Registration) (e : Env ρ) :
    Gate token (brokerRegisterClient reg e b).2 := by
  have hwf := h.wf.brokerRegisterClient reg e
  cases brokerRegisterClient_cases reg e b with
  | inl hquiet => exact h.calm hquiet
  | inr hnew =>
    obtain ⟨mid, c, hquiet, hclients, haddr, hserial, hhello, hrequires, heq⟩ := hnew
    have hmid : Gate token mid := h.calm hquiet
    have hserial : c.serial = mid.registrations := hserial.trans hquiet.registrations.symm
    rw [heq] at hwf ⊢
    have hmem : ∀ {x}, x ∈ (mid.joined c).idents → x ∈ mid.idents ∨ x = c.ident := by
      intro x hx
      simpa [Broker.idents, Broker.joined, Broker.noted] using hx
    have htrace : ∀ {ev}, ev ∈ mid.trace ++ [.registered c.serial c.requiresAuth] →
        ev ∈ mid.trace ∨ ev = .registered c.serial c.requiresAuth := by
      intro ev hev
      simpa using hev
    refine ⟨hwf, hmid.authToken, fun x hx => ?_, fun s r hs => ?_, fun s r r' hr hr' => ?_,
      fun x hx hreq hsaid => ?_, ?_⟩
    · cases hmem hx with
      | inl hx => exact mem_append_left _ (hmid.registered x hx)
      | inr hx =>
        subst hx
        exact mem_append_right _ (mem_singleton.mpr rfl)
    · change s < mid.registrations + 1
      cases htrace hs with
      | inl hs => exact Nat.lt_succ_of_lt (hmid.fresh s r hs)
      | inr hs =>
        obtain ⟨rfl, -⟩ := Event.registered.inj hs
        omega
    · cases htrace hr with
      | inl hr =>
        cases htrace hr' with
        | inl hr' => exact hmid.once s r r' hr hr'
        | inr hr' =>
          obtain ⟨rfl, -⟩ := Event.registered.inj hr'
          exact absurd hserial (Nat.ne_of_lt (hmid.fresh _ r hr))
      | inr hr =>
        obtain ⟨rfl, rfl⟩ := Event.registered.inj hr
        cases htrace hr' with
        | inl hr' => exact absurd hserial (Nat.ne_of_lt (hmid.fresh _ r' hr'))
        | inr hr' => exact (Event.registered.inj hr').2.symm
    · cases hmem hx with
      | inl hx => exact (hmid.hello x hx hreq hsaid).mono (subset_append_left _ _)
      | inr hx =>
        subst hx
        exact Bool.noConfusion (hhello.symm.trans hsaid)
    · refine hmid.broadcast.grow letThrough_mono (.single (fun s m heq => ?_) mid.trace)
      cases heq

theorem loopFrame_gate (e : Env ρ) (hset : token ≠ []) :
    LoopFrame e (ofInvariant (Gate token)) :=
  DeskFrame.loop
    { act _ _ hact h := h.act hset hact
      register reg := ⟨fun _ h => h.register reg e⟩
      applied _ _ _ _ h := h.step (shrinking.refl _) rfl (tame_single ⟨by simp, by simp⟩)
        fun _ hx => kept_self hx }
    fun _ _ hcalm h => h.calm hcalm

theorem gate_brokerInit (regex : Regex ρ) (cfg : Config) :
    Gate cfg.authToken (brokerInit regex cfg) where
  wf := wellFormed_brokerInit regex cfg
  authToken := rfl
  registered := by simp [brokerInit, Broker.idents]
  fresh := by simp [brokerInit]
  once := by simp [brokerInit]
  hello := by simp [brokerInit, Broker.idents]
  broadcast := .nil _

end Gate

/-- With a token set, a connection that needs it gets no broadcast line before it
has sent a hello with that token. Until then it has not said hello, a message that
is not such a hello touches its own connection only, and so does its end. Whoever has not been
let in, for its token, its role or its version, is not let in by a message that is no hello. -/
theorem authentication_gate (e : Env ρ) (regex : Regex ρ) (cfg : Config)
    (hset : cfg.authToken ≠ []) (steps : List Step) :
    let b := runSteps e (brokerInit regex cfg) steps
    (∀ s, .registered s true ∈ b.trace → ∀ pre msg post,
        b.trace = pre ++ .sent s true msg :: post → Authenticated cfg.authToken pre s) ∧
      (∀ c ∈ b.clients, c.requiresAuth = true →
        ¬Authenticated cfg.authToken b.trace c.serial →
        c.helloReceived = false ∧
          (∀ (e' : Env ρ) (msg : Msg), carriesToken cfg.authToken msg = false →
            Confined c b (handleClientMessage c.addr msg e' b).2) ∧
          ∀ e' : Env ρ, Departs c b (removeClient c.addr e' b).2) ∧
      ∀ c ∈ b.clients, c.helloReceived = false → ∀ (e' : Env ρ) (msg : Msg), msg.type ≠ .hello →
        Confined c b (handleClientMessage c.addr msg e' b).2 := by
  intro b
  have hgate : Gate cfg.authToken b :=
    (loopFrame_gate e hset).runSteps _ steps (gate_brokerInit regex cfg)
  have htoken := hgate.authToken
  obtain ⟨r, -, hr⟩ := ((loopFrame_simulating e).runSteps _ steps (wellFormed_brokerInit regex cfg)).2
    Registry.empty (refines_brokerInit regex cfg)
  refine ⟨fun s hs pre msg post heq => ?_, fun c hc hrequires hauth => ?_,
    fun c hc hhello e' msg hmsg => ?_⟩
  · cases hgate.broadcast pre _ post heq s msg rfl with
    | inl hfree =>
      have hfree : .registered s false ∈ b.trace := by
        rw [heq]
        exact mem_append_left _ hfree
      cases hgate.once s true false hs hfree
    | inr h => exact h
  · have hhello : c.helloReceived = false := by
      cases h : c.helloReceived with
      | false => rfl
      | true => exact absurd (hgate.hello c.ident (mem_map_of_mem hc) hrequires h) hauth
    have hat : b.clientAt c.addr = some c := hgate.wf.clientAt_of_mem hc
    refine ⟨hhello, fun e' msg hmsg => ?_, fun e' => ?_⟩
    · refine confined_handleClientMessage hat hhello hrequires ?_ ?_ e'
      · rw [htoken]
        exact hset
      · rw [htoken]
        exact hmsg
    · exact departs_removeClient hgate.wf hat (hr.holder ▸ hr.not_holder hat hhello) e'
  · exact confined_of_not_hello (hgate.wf.clientAt_of_mem hc) hhello hmsg e'

def guessSteps : List Step :=
  [.event (.tcp [plainReg 1]), .event (.listen (plainReg 2)), .message 2 (helloMsg "a" []),
    .message 1 (helloMsg "b" [("token", .str (ascii "guess"))]),
    .event (.link ⟨true, false, false⟩ [.data (ascii "login: ")])]

theorem authentication_gate_guess :
    let b := runSteps plainEnv (plainInit (ascii "secret")) guessSteps
    ∃ c ∈ b.clients, c.requiresAuth = true ∧ c.helloReceived = false ∧
      Confined c b (handleClientMessage c.addr ⟨.takeover, none⟩ plainEnv b).2 := by
  have hrequires : ∀ c ∈ (runSteps plainEnv (plainInit (ascii "secret")) guessSteps).clients.head?,
      c.requiresAuth = true ∧ ¬Authenticated (ascii "secret")
        (runSteps plainEnv (plainInit (ascii "secret")) guessSteps).trace c.serial := by
    decide +kernel
  have hsome : (runSteps plainEnv (plainInit (ascii "secret")) guessSteps).clients.head?.isSome =
      true := by
    decide +kernel
  obtain ⟨c, hc⟩ := Option.isSome_iff_exists.mp hsome
  have hmem := mem_of_mem_head? hc
  obtain ⟨hreq, hauth⟩ := hrequires c hc
  obtain ⟨hhello, hmessage, -⟩ := (authentication_gate plainEnv plainEnv.regex
    (plainConfig (ascii "secret")) (by decide) guessSteps).2.1 c hmem hreq hauth
  exact ⟨c, hmem, hreq, hhello, hmessage plainEnv ⟨.takeover, none⟩ (by decide)⟩

end Smolmux.Broker
