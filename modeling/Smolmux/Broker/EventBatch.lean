import Smolmux.Broker.Takeover

/-! Events of one `epoll_wait` and the clients they are applied to. An event of a
client carries its address, and the loop only asks whether some client lives there
when its turn comes. As long as no client is registered at the address of an event
that still waits, each event is applied to the client it was reported for. -/

namespace Smolmux.Broker
open Protocol Smolmux.Frame List

variable {ρ : Type}

def Event.misapplied : Event → Bool
  | .applied reported serial => reported ≠ serial
  | _ => false

def reported (b : Broker ρ) : LoopEvent → Bool
  | .client addr serial _ => (addr, serial) ∈ b.keys
  | _ => true

def Turn.reported (b : Broker ρ) (t : Turn) : Bool := t.events.all (Broker.reported b)

def waiting (evs : List LoopEvent) : List Addr :=
  evs.filterMap fun ev =>
    match ev with
    | .client addr _ _ => some addr
    | _ => none

def newAddrs (e : Env ρ) (b : Broker ρ) (ev : LoopEvent) : List Addr :=
  ((handleEvent ev e b).2.keys.filter (b.registrations ≤ ·.2)).map Prod.fst

/-- No event registers a client at the address of one that waits behind it. -/
def noReuse (e : Env ρ) : Broker ρ → List LoopEvent → Bool
  | _, [] => true
  | b, ev :: evs =>
    (newAddrs e b ev).all (· ∉ waiting evs) && noReuse e (handleEvent ev e b).2 evs

def Turn.noReuse (e : Env ρ) (b : Broker ρ) (t : Turn) : Bool :=
  Broker.noReuse e (startTurn e b).2 t.events

def along (e : Env ρ) (P : Broker ρ → Turn → Bool) : Broker ρ → List Turn → Bool
  | _, [] => true
  | b, t :: ts => P b t && along e P (Proc.each step t.steps e b).2 ts

variable {b b' : Broker ρ} (e : Env ρ)

def numbered : Frame (Broker ρ) where
  rel b b' := b.registrations ≤ b'.registrations ∧
    ∀ k ∈ b'.keys, k ∈ b.keys ∨ b.registrations ≤ k.2
  refl b := ⟨Nat.le_refl _, fun _ hk => .inl hk⟩
  trans h h' := by
    refine ⟨h.1.trans h'.1, fun k hk => ?_⟩
    cases h'.2 k hk with
    | inl hk => exact h.2 k hk
    | inr hle => exact .inr (h.1.trans hle)

theorem numbered_of_shrinking (h : shrinking.rel b b') : numbered.rel b b' :=
  ⟨Nat.le_of_eq h.2.symm, fun _ hk => .inl (h.1.subset hk)⟩

theorem deskFrame_numbered : DeskFrame e numbered where
  act _ _ h := numbered_of_shrinking (shrinking_act h)
  register reg := by
    refine ⟨fun b => ?_⟩
    cases brokerRegisterClient_cases reg e b with
    | inl hquiet => exact numbered_of_shrinking (shrinking_of_calm hquiet)
    | inr hnew =>
      obtain ⟨mid, c, hquiet, hclients, -, hserial, -, -, heq⟩ := hnew
      have hregistrations := hquiet.registrations
      rw [heq]
      refine ⟨Nat.le_succ_of_le (Nat.le_of_eq hregistrations.symm), fun k hk => ?_⟩
      have hk : k ∈ b.keys ∨ k = c.ident.key := by
        simpa [Broker.keys, Broker.idents, Broker.joined, Broker.noted, hclients] using hk
      exact hk.imp_right fun hk => Nat.le_of_eq (hserial.symm.trans (congrArg Prod.snd hk.symm))
  applied _ _ _ _ := numbered.refl _

theorem loopFrame_numbered : LoopFrame e numbered :=
  (deskFrame_numbered e).loop fun _ _ h => numbered_of_shrinking (shrinking_of_calm h)

/-- No serial number is given twice: who has an old one was there, at the same address, and
is who it was if it had said hello. -/
theorem serials_name_clients (regex : Regex ρ) (cfg : Config) (steps more : List Step) :
    let b := runSteps e (brokerInit regex cfg) steps
    ∀ c ∈ (runSteps e b more).clients, c.serial < b.registrations →
      ∃ d ∈ b.clients, d.serial = c.serial ∧ d.addr = c.addr ∧
        (d.helloReceived = true → c.ident = d.ident) := by
  intro b c hc hlt
  have hwf : WellFormed b := wellFormed_runSteps e regex cfg steps
  have hmem : c.ident ∈ (runSteps e b more).idents := mem_map_of_mem hc
  obtain ⟨-, -, hlast⟩ := (loopFrame_lasting e).runSteps b more hwf
  obtain ⟨x, hx, hserial, hsame⟩ := hlast c.ident hmem hlt
  obtain hold | hnew := ((loopFrame_numbered e).runSteps b more).2 _ (mem_map_of_mem hmem)
  · obtain ⟨y, hy, hkey⟩ := mem_map.mp hold
    obtain rfl := hwf.ident_eq_of_serial hx hy (hserial.trans (congrArg Prod.snd hkey).symm)
    obtain ⟨d, hd, rfl⟩ := mem_map.mp hx
    exact ⟨d, hd, hserial, congrArg Prod.fst hkey, hsame⟩
  · exact absurd hlt (Nat.not_lt.mpr hnew)

def wellAimed : Frame (Broker ρ) where
  rel b b' := Grows (fun ev : Event => ev.misapplied = false) b.trace b'.trace
  refl b := .refl _ b.trace
  trans h h' := h.trans h'

theorem wellAimed_of_calm {P : Event → Prop} (h : Calm P b b') :
    wellAimed.rel b b' := by
  refine h.trace.mono fun ev hev => ?_
  cases ev with
  | applied reported serial => exact hev.1.elim
  | _ => rfl

theorem wellAimed_of_clerical (h : Clerical b b') : wellAimed.rel b b' := by
  refine h.trace.mono fun ev hev => ?_
  cases ev with
  | applied reported serial => cases hev
  | _ => rfl

theorem wellAimed_act {e : Env ρ} (h : Act e b b') : wellAimed.rel b b' := by
  cases h with
  | deed h => exact wellAimed_of_calm h.calm
  | tools id params h => exact h ▸ wellAimed_of_calm (calm_handleToolsCall id params e b)
  | dispatched c hc msg h => exact h ▸ ⟨[_], rfl, by simp [Event.misapplied]⟩
  | renamed c hc hhello f h =>
    exact h ▸ wellAimed_of_clerical ((clerical_updateClient c.addr _).rel e b)
  | admitted c hc hhello hauth role h =>
    exact h ▸ wellAimed_of_clerical ((clerical_acceptHello c.addr role).rel e b)
  | removed a h => exact h ▸ wellAimed_of_clerical ((clerical_removeClient a).rel e b)
  | taken c hc hhello hrole hfree h => exact h ▸ .refl _ b.trace
  | released a h => exact h ▸ .refl _ b.trace

theorem wellAimed_of_act {α : Type} {e : Env ρ} {p : M ρ α} (h : (act e).KeepsAt e p) :
    wellAimed.KeepsAt e p :=
  h.mono fun _ _ => closure_le wellAimed fun _ _ => wellAimed_act

theorem wellAimed_register (reg : Registration) :
    wellAimed.Keeps (brokerRegisterClient reg : M ρ Unit) := by
  refine ⟨fun e b => ?_⟩
  cases brokerRegisterClient_cases reg e b with
  | inl hquiet => exact wellAimed_of_calm hquiet
  | inr hnew =>
    obtain ⟨mid, c, hquiet, -, -, -, -, -, heq⟩ := hnew
    rw [heq]
    refine (wellAimed_of_calm hquiet).trans ⟨[_], rfl, ?_⟩
    simp [Event.misapplied]

variable {ev : LoopEvent}

def Aimed (b : Broker ρ) (ev : LoopEvent) : Prop :=
  ∀ addr serial input, ev = .client addr serial input → ∀ k ∈ b.keys, k.1 = addr → k.2 = serial

theorem wellAimed_handleClientEvent {addr : Addr} {serial : Nat} {input : ClientInput}
    (h : Aimed b (.client addr serial input)) (e : Env ρ) :
    wellAimed.rel b (handleClientEvent addr serial input e b).2 := by
  cases hc : b.clientAt addr with
  | none =>
    have hrun : handleClientEvent addr serial input e b = ((), b) := by
      simp [handleClientEvent, hc]
    rw [hrun]
    exact wellAimed.refl b
  | some c =>
    have hrun : handleClientEvent addr serial input e b =
        processClientEvent addr input e (b.noted (.applied serial c.serial)) := by
      simp [handleClientEvent, hc, emit]
    have hserial : c.serial = serial :=
      h addr serial input rfl c.ident.key
        (mem_map_of_mem (mem_map_of_mem (mem_of_clientAt hc))) (addr_of_clientAt hc)
    have hnoted : wellAimed.rel b (b.noted (.applied serial c.serial)) :=
      ⟨[_], rfl, by simp [Event.misapplied, hserial]⟩
    rw [hrun]
    exact hnoted.trans ((wellAimed_of_act (act_processClientEvent ..)).rel _)

theorem wellAimed_handleEvent (h : Aimed b ev) (e : Env ρ) :
    wellAimed.rel b (handleEvent ev e b).2 := by
  cases ev with
  | listen reg => exact (wellAimed_register _).rel e b
  | pipe regs => exact (keeps_each regs fun reg _ => wellAimed_register reg).rel e b
  | tcp regs => exact (keeps_each regs fun reg _ => wellAimed_register _).rel e b
  | client addr serial input => exact wellAimed_handleClientEvent h e
  | link flags reads =>
    exact rel_ite (fun _ => wellAimed_of_calm (calm_connecting flags e b)) fun _ =>
      rel_ite (fun _ => wellAimed_of_calm (calm_of_does (linkWork_handleLinkEvent flags reads) b))
        fun _ => wellAimed.refl b
  | _ => exact (wellAimed_of_act (act_handleEvent (by simp) (by simp) (by simp) (by simp) rfl)).rel b

theorem mem_waiting {evs : List LoopEvent} {addr : Addr} {serial : Nat} {input : ClientInput}
    (h : .client addr serial input ∈ evs) : addr ∈ waiting evs :=
  mem_filterMap.mpr ⟨_, h, rfl⟩

theorem Aimed.handleEvent {evs : List LoopEvent} {e : Env ρ}
    (hnew : ∀ a ∈ newAddrs e b ev, a ∉ waiting evs) (h : ∀ ev ∈ evs, Aimed b ev) :
    ∀ ev' ∈ evs, Aimed (handleEvent ev e b).2 ev' := by
  rintro ev' hev' addr serial input rfl k hk haddr
  cases (((loopFrame_numbered e).step (.event ev)).rel b).2 k hk with
  | inl hold => exact h _ hev' addr serial input rfl k hold haddr
  | inr hle =>
    have hmem : k.1 ∈ newAddrs e b ev :=
      mem_map.mpr ⟨k, mem_filter.mpr ⟨hk, by simpa using hle⟩, rfl⟩
    exact absurd (mem_waiting hev') (haddr ▸ hnew k.1 hmem)

theorem wellAimed_batch (evs : List LoopEvent) (hreuse : noReuse e b evs)
    (h : ∀ ev ∈ evs, Aimed b ev) :
    wellAimed.rel b (Proc.each handleEvent evs e b).2 := by
  induction evs generalizing b with
  | nil => exact wellAimed.refl b
  | cons ev evs ih =>
    rw [noReuse, Bool.and_eq_true, all_eq_true] at hreuse
    have hnew : ∀ a ∈ newAddrs e b ev, a ∉ waiting evs := fun a ha => by simpa using hreuse.1 a ha
    have hhead := wellAimed_handleEvent (h ev mem_cons_self) e
    have htail := Aimed.handleEvent hnew fun ev' hev' => h ev' (mem_cons_of_mem ev hev')
    exact hhead.trans (ih hreuse.2 htail)

theorem aimed_of_reported (hwf : WellFormed b) (h : reported b ev) : Aimed b ev := by
  rintro addr serial input rfl k hk haddr
  have hmem : (addr, serial) ∈ b.keys := by simpa [reported] using h
  have hkey := inj_on_of_nodup_map hwf.addrs hk hmem haddr
  rw [hkey]

theorem each_steps (t : Turn) (e : Env ρ) (b : Broker ρ) :
    (Proc.each step t.steps e b).2 =
      (endTurn t.peerGone e (Proc.each handleEvent t.events e (startTurn e b).2).2).2 := by
  have hevents : ∀ (evs : List LoopEvent) (b : Broker ρ),
      (Proc.each step (evs.map .event ++ [.endTurn t.peerGone]) e b).2 =
        (endTurn t.peerGone e (Proc.each handleEvent evs e b).2).2 := by
    intro evs
    induction evs with
    | nil => exact fun b => rfl
    | cons ev evs ih => exact fun b => ih _
  exact hevents t.events _

theorem wellAimed_turn {e : Env ρ} (hwf : WellFormed b) {t : Turn}
    (hreported : t.reported b) (hreuse : t.noReuse e b) :
    wellAimed.rel b (Proc.each step t.steps e b).2 := by
  have hstart : Calm (fun _ => True) b (startTurn e b).2 := calm_of_does deed_startTurn b
  have hkeys : (startTurn e b).2.keys = b.keys := by rw [Broker.keys, hstart.idents, Broker.keys]
  rw [each_steps]
  refine (wellAimed_of_calm hstart).trans ?_
  refine (wellAimed_batch e t.events hreuse fun ev hev => ?_).trans
    ((wellAimed_of_act (act_endTurn t.peerGone)).rel _)
  refine aimed_of_reported (hwf.shrink (shrinking_of_calm hstart)) ?_
  have hev := all_eq_true.mp hreported ev hev
  cases ev with
  | client addr serial input => simpa [reported, hkeys] using hev
  | _ => rfl

theorem wellAimed_brokerLoop (turns : List Turn) (hwf : WellFormed b)
    (hreported : along e (fun b t => t.reported b) b turns)
    (hreuse : along e (fun b t => t.noReuse e b) b turns) :
    wellAimed.rel b (brokerLoop turns e b).2 := by
  induction turns generalizing b with
  | nil => exact wellAimed.refl b
  | cons t ts ih =>
    rw [along, Bool.and_eq_true] at hreported hreuse
    refine rel_ite (fun _ => wellAimed.refl b) fun _ => ?_
    have hwf' := (loopFrame_wellFormed e).runSteps b t.steps hwf
    exact (wellAimed_turn hwf hreported.1 hreuse.1).trans (ih hwf' hreported.2 hreuse.2)

/-- In a run in which no client is registered at the address of a waiting event,
each event is applied to the client that it was reported for. -/
theorem events_well_aimed (e : Env ρ) (regex : Regex ρ) (cfg : Config) (turns : List Turn)
    (hreported : along e (fun b t => t.reported b) (brokerInit regex cfg) turns = true)
    (hreuse : along e (fun b t => t.noReuse e b) (brokerInit regex cfg) turns = true) :
    ∀ ev ∈ (brokerLoop turns e (brokerInit regex cfg)).2.trace, ev.misapplied = false := by
  intro ev hev
  have hgrows := wellAimed_brokerLoop e turns (wellFormed_brokerInit regex cfg) hreported hreuse
  cases hgrows.mem_or hev with
  | inl hold => simp [brokerInit] at hold
  | inr hnew => exact hnew

def lineInput (msg : Json) (hangup : Bool) : ClientInput :=
  ⟨⟨true, false, hangup⟩, fun k =>
    if k = 0 then (msgEncode JsonText.textCodec msg, .data 4096) else ([], .again)⟩

/-- Two clients connect and the first says hello. Then one batch brings the hello
of the second under the same name, a new connection that the allocator puts at
`addr`, and the hangup of the first client. -/
def replaceTurns (addr : Addr) : List Turn :=
  let hello := (helloMsg "a" []).root.getD .null
  let typed := hello.add "type" (.str (ascii "hello"))
  [⟨[.listen (plainReg 1)], fun _ => false⟩, ⟨[.listen (plainReg 2)], fun _ => false⟩,
    ⟨[.client 1 0 (lineInput typed false)], fun _ => false⟩,
    ⟨[.client 2 1 (lineInput typed false), .listen (plainReg addr),
      .client 1 0 ⟨⟨false, false, true⟩, fun _ => ([], .again)⟩], fun _ => false⟩]

theorem events_well_aimed_fresh :
    (∀ ev ∈ (brokerLoop (replaceTurns 3) plainEnv (plainInit [])).2.trace, ev.misapplied = false) ∧
      (brokerLoop (replaceTurns 3) plainEnv (plainInit [])).2.keys = [(2, 1), (3, 2)] :=
  ⟨events_well_aimed plainEnv plainEnv.regex (plainConfig []) (replaceTurns 3)
    (by decide +kernel) (by decide +kernel), by decide +kernel⟩

/-- At the address of the replaced client the new one takes the hangup that was
reported for the other, and is removed. -/
theorem stale_event_misapplied :
    along plainEnv (fun b t => t.reported b) (plainInit []) (replaceTurns 1) = true ∧
      (∃ ev ∈ (brokerLoop (replaceTurns 1) plainEnv (plainInit [])).2.trace,
        ev.misapplied = true) ∧
      (brokerLoop (replaceTurns 1) plainEnv (plainInit [])).2.keys = [(2, 1)] := by
  decide +kernel

end Smolmux.Broker
