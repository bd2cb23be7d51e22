import Smolmux.Broker.Members
import Smolmux.Registry

/-! The clients of the broker refine a registry: clients sit at their addresses,
controllers that have said hello may hold the takeover, and two that have said
hello under one name cannot both stay. A client that has said hello stays as it is
for as long as it is there. -/

namespace Smolmux.Broker
open Protocol List

variable {ρ : Type}

def clientRules : Rules Addr Ident where
  seat := Ident.addr
  eligible x := x.helloReceived = true ∧ x.role = .controller
  clash x y := x.helloReceived = true ∧ y.helloReceived = true ∧ x.name ≠ [] ∧ x.name = y.name
  clash_symm h := ⟨h.2.1, h.1, h.2.2.2 ▸ h.2.2.1, h.2.2.2.symm⟩

/-- The registry has the broker's clients and its takeover. -/
structure Refines (b : Broker ρ) (r : Registry clientRules) : Prop where
  members : ∀ x, x ∈ r.members ↔ x ∈ b.idents
  holder : r.holder = b.takeoverClient

variable {c : Client}

section Simulation

variable {b b' : Broker ρ} {r : Registry clientRules}

theorem Refines.calm {P : Event → Prop} (h : Refines b r) (hcalm : Calm P b b') : Refines b' r :=
  ⟨fun x => by rw [h.members, hcalm.idents], by rw [h.holder, hcalm.takeover]⟩

theorem Refines.not_holder (h : Refines b r) (hc : b.clientAt c.addr = some c)
    (hhello : c.helloReceived = false) : r.holder ≠ some c.addr := by
  intro hholder
  obtain ⟨x, hx, hseat, heligible⟩ := r.holder_eligible c.addr hholder
  have hmem : c.ident ∈ r.members := (h.members _).mpr (mem_map_of_mem (mem_of_clientAt hc))
  have hxc : x = c.ident := r.seat_inj x hx c.ident hmem hseat
  rw [hxc] at heligible
  exact Bool.noConfusion (hhello.symm.trans heligible.1)

theorem Refines.enter (h : Refines b r) {m : Ident} (hhello : m.helloReceived = false)
    (hholder : r.holder ≠ some m.addr)
    (hmem : ∀ x, x ∈ b'.idents ↔ x = m ∨ x ∈ b.idents ∧ x.addr ≠ m.addr)
    (htakeover : b'.takeoverClient = b.takeoverClient) : Refines b' (r.enter m) := by
  have hclash : ∀ x, ¬clientRules.clash x m := fun x hx =>
    Bool.noConfusion (hhello.symm.trans hx.2.1)
  refine ⟨fun x => ?_, ?_⟩
  · rw [hmem, ← h.members]
    constructor
    · rintro (rfl | hx)
      · exact .inl rfl
      · exact .inr ⟨hx.1, hx.2.1⟩
    · rintro (rfl | hx)
      · exact .inl rfl
      · exact .inr ⟨hx.1, hx.2, hclash x⟩
  · rw [r.holder_enter (fun x _ => hclash x) hholder, h.holder, htakeover]

theorem clash_admitted (role : Option Role) {x : Ident} (haddr : x.addr ≠ c.addr) :
    clientRules.clash x (c.admitted role).ident ↔ x.givesWay c.addr c.name := by
  simp [clientRules, Ident.givesWay, Client.admitted, Client.ident, haddr, and_assoc]

theorem Refines.mem_staying (h : Refines b r) (role : Option Role) {x : Ident} :
    x ∈ r.staying (c.admitted role).ident ↔
      (x ∈ b.idents ∧ x.addr ≠ c.addr) ∧ x.givesWay c.addr c.name = false := by
  constructor
  · rintro ⟨hx, haddr, hclash⟩
    have haddr : x.addr ≠ c.addr := haddr
    rw [clash_admitted role haddr] at hclash
    exact ⟨⟨(h.members x).mp hx, haddr⟩, by simpa using hclash⟩
  · rintro ⟨⟨hx, haddr⟩, hway⟩
    refine ⟨(h.members x).mpr hx, haddr, ?_⟩
    rw [clash_admitted role haddr, hway]
    simp

theorem Refines.holder_acceptHello (hwf : WellFormed b) (h : Refines b r)
    (hc : b.clientAt c.addr = some c) (hhello : c.helloReceived = false) (role : Option Role)
    (e : Env ρ) :
    (r.enter (c.admitted role).ident).holder = (acceptHello c.addr role e b).2.takeoverClient := by
  have hevicted := evicted_acceptHello hwf hc role e
  cases hevicted.holder with
  | inl hsame =>
    have hsame : (acceptHello c.addr role e b).2.takeoverClient = r.holder := hsame.trans h.holder.symm
    rw [hsame]
    cases hholder : r.holder with
    | none => exact r.holder_enter_of_leaving fun x _ => by simp [hholder]
    | some t =>
      obtain ⟨y, hy, rfl, -⟩ := r.holder_eligible t hholder
      have hne : y.addr ≠ c.addr := fun heq => h.not_holder hc hhello (heq ▸ hholder)
      have hin : (updateClient c.addr (Client.admitted role) e b).2.HolderIn := by
        intro s hs
        have hs : s = y.addr := Option.some.inj (hs.symm.trans (h.holder.symm.trans hholder))
        rw [hs]
        exact ⟨y, (mem_idents_updateClient hwf hc e).mpr (.inr ⟨(h.members y).mp hy, hne⟩), rfl⟩
      obtain ⟨x, hx, hxy⟩ := hevicted.holderIn hin y.addr (hsame.trans hholder)
      have hseat : r.holder = some (clientRules.seat x) := hholder.trans (congrArg some hxy.symm)
      refine (r.holder_enter_of_staying ((h.mem_staying role).mpr ?_) hseat).trans hholder
      cases (mem_idents_acceptHello hwf hc role e).mp hx with
      | inl heq =>
        rw [heq] at hxy
        exact absurd hxy.symm hne
      | inr hstay => exact hstay
  | inr hnone =>
    obtain ⟨hnone, x, hx, hway, hholder⟩ := hnone
    have hholder : r.holder = some x.addr := h.holder.trans hholder
    rw [hnone]
    refine r.holder_enter_of_leaving fun y hy hseat => ?_
    have hy := (h.mem_staying role).mp hy
    have hxy : x.addr = y.addr := Option.some.inj (hholder.symm.trans hseat)
    cases (mem_idents_updateClient hwf hc e).mp hx with
    | inl heq => exact hy.1.2 (hxy.symm.trans (congrArg Ident.addr heq))
    | inr hmem =>
      rw [hwf.ident_eq_of_addr hmem.1 hy.1.1 hxy, hy.2] at hway
      cases hway

theorem Refines.acceptHello (hwf : WellFormed b) (h : Refines b r)
    (hc : b.clientAt c.addr = some c) (hhello : c.helloReceived = false) (role : Option Role)
    (e : Env ρ) : Refines (acceptHello c.addr role e b).2 (r.enter (c.admitted role).ident) := by
  refine ⟨fun x => ?_, h.holder_acceptHello hwf hc hhello role e⟩
  rw [mem_idents_acceptHello hwf hc role e, ← h.mem_staying role]
  rfl

theorem Refines.leave (hwf : WellFormed b) (h : Refines b r) (a : Addr) (e : Env ρ) :
    Refines (removeClient a e b).2 (r.leave a) := by
  refine ⟨fun x => ?_, ?_⟩
  · rw [mem_idents_removeClient hwf, ← h.members]
    rfl
  · by_cases hholder : r.holder = some a
    · obtain ⟨x, hx, hseat, -⟩ := r.holder_eligible a hholder
      obtain ⟨c, hmem, rfl⟩ := mem_map.mp ((h.members x).mp hx)
      have hc : b.clientAt a = some c := hseat ▸ hwf.clientAt_of_mem hmem
      rw [r.holder_leave_self hholder, removeClient_some hc]
      exact (if_pos (h.holder.symm.trans hholder)).symm
    · rw [r.holder_leave_ne hholder]
      cases hc : b.clientAt a with
      | none => rw [removeClient_none hc, h.holder]
      | some c =>
        rw [removeClient_some hc, h.holder]
        exact (if_neg (h.holder ▸ hholder)).symm

theorem refines_act {e : Env ρ} (hwf : WellFormed b) (h : Refines b r) (hact : Act e b b') :
    ∃ r', Registry.Step r r' ∧ Refines b' r' := by
  cases hact with
  | deed hwork => exact ⟨r, .stay r, h.calm hwork.calm⟩
  | tools id params heq =>
    subst heq
    exact ⟨r, .stay r, h.calm (calm_handleToolsCall id params e b)⟩
  | dispatched c hc msg heq =>
    subst heq
    exact ⟨r, .stay r, h.members, h.holder⟩
  | renamed c hc hhello f heq =>
    subst heq
    refine ⟨r.enter { c.ident with name := f c.name }, .enter r _, ?_⟩
    exact h.enter hhello (h.not_holder hc hhello) (fun x => mem_idents_updateClient hwf hc e) rfl
  | admitted c hc hhello hauth role heq =>
    subst heq
    exact ⟨_, .enter r _, h.acceptHello hwf hc hhello role e⟩
  | removed a heq =>
    subst heq
    exact ⟨_, .leave r a, h.leave hwf a e⟩
  | taken c hc hhello hrole hfree heq =>
    subst heq
    have hmem : c.ident ∈ r.members := (h.members _).mpr (mem_map_of_mem (mem_of_clientAt hc))
    exact ⟨_, .take r c.ident hmem ⟨hhello, hrole⟩ (h.holder ▸ hfree), h.members, rfl⟩
  | released a heq =>
    subst heq
    by_cases ha : b.takeoverClient = some a
    · exact ⟨_, .release r, h.members, (if_pos ha).symm⟩
    · exact ⟨r, .stay r, h.members, h.holder.trans (if_neg ha).symm⟩

theorem refines_register (h : Refines b r) (reg : Registration) (e : Env ρ) :
    ∃ r', (r' = r ∨ ∃ x : Ident, x.helloReceived = false ∧ r' = r.enter x) ∧
      Refines (brokerRegisterClient reg e b).2 r' := by
  cases brokerRegisterClient_cases reg e b with
  | inl hquiet => exact ⟨r, .inl rfl, h.calm hquiet⟩
  | inr hnew =>
    obtain ⟨mid, c, hmid, hclients, haddr, -, hhello, -, heq⟩ := hnew
    have hfree : ∀ x ∈ b.idents, x.addr ≠ c.addr := by
      intro x hx hsame
      obtain ⟨d, hd, rfl⟩ := mem_map.mp hx
      exact freshAddr_not_mem b.clients reg.addr (haddr ▸ mem_map.mpr ⟨d, hd, hsame⟩)
    rw [heq]
    refine ⟨r.enter c.ident, .inr ⟨_, hhello, rfl⟩, h.enter hhello (fun hholder => ?_) (fun x => ?_)
      hmid.takeover⟩
    · obtain ⟨x, hx, hseat, -⟩ := r.holder_eligible _ hholder
      exact hfree x ((h.members x).mp hx) hseat
    · have hidents : (mid.joined c).idents = b.idents ++ [c.ident] := by
        rw [Broker.idents, Broker.idents, ← hclients]
        simp [Broker.joined, Broker.noted]
      rw [hidents, mem_append, mem_singleton]
      constructor
      · rintro (hx | rfl)
        · exact .inr ⟨hx, hfree x hx⟩
        · exact .inl rfl
      · rintro (rfl | hx)
        · exact .inr rfl
        · exact .inl hx.1

/-- What a message of a client may be to the registry: a hello gives the client its name and lets
it in, a takeover and a release are of the floor, and every other message is nothing. -/
inductive Enacts (c : Client) (r : Registry clientRules) : MsgType → Registry clientRules → Prop
  | idle (type : MsgType) : Enacts c r type r
  | named (hhello : c.helloReceived = false) (name : Bytes) :
      Enacts c r .hello (r.enter { c.ident with name := name })
  | hello (hhello : c.helloReceived = false) (name : Bytes) (role : Option Role) :
      Enacts c r .hello ((r.enter { c.ident with name := name }).enter
        ({ c with name := name }.admitted role).ident)
  | takeover (hm : c.ident ∈ r.members) (h : clientRules.eligible c.ident)
      (hfree : r.holder = none ∨ r.holder = some c.addr) : Enacts c r .takeover (r.take c.ident hm h)
  | release (hholder : r.holder = some c.addr) : Enacts c r .release r.release

theorem Refines.plain (h : Refines b r) {α : Type} {p : M ρ α} (hp : plain.Keeps p) (e : Env ρ) :
    Refines (p e b).2 r := h.calm (hp.rel e b).calm

theorem enacts_handleHello (hwf : WellFormed b) (h : Refines b r) (hc : b.clientAt c.addr = some c)
    (root : Json) (e : Env ρ) :
    ∃ r', Enacts c r .hello r' ∧ Refines (handleHello c root e b).2 r' := by
  rw [handleHello, Proc.bind_apply, Proc.get_apply]
  by_cases hhello : c.helloReceived = true
  · rw [if_pos hhello]
    exact ⟨r, .idle _, h.plain (plain_sendError ..) e⟩
  rw [if_neg hhello]
  have hhello : c.helloReceived = false := Bool.eq_false_of_not_eq_true hhello
  by_cases htoken : tokenAccepted b c root = false
  · rw [if_pos htoken]
    exact ⟨r, .idle _, h.plain (plain_refuseHello _) e⟩
  rw [if_neg htoken]
  cases helloRole root with
  | none => exact ⟨r, .idle _, h.plain (plain_sendError ..) e⟩
  | some role =>
    let name := (root.getString "name").elim c.name (stored 64)
    let d := { c with name := name }
    let f : Client → Client := fun c =>
      { c with name := (root.getString "name").elim c.name (stored 64) }
    let b₁ := (updateClient c.addr f e b).2
    have hrenamed : Refines b₁ (r.enter d.ident) :=
      h.enter hhello (h.not_holder hc hhello) (fun x => mem_idents_updateClient hwf hc e) rfl
    have hwf₁ : WellFormed b₁ :=
      hwf.shrink ((shrinking_updateClient (f := f) c.addr fun _ => rfl).rel e b)
    have hd : b₁.clientAt d.addr = some d := by
      rw [clientAt_updateClient (f := f) b c.addr (fun _ => rfl), hc]
      exact congrArg some (if_pos rfl)
    change ∃ r', _ ∧ Refines ((if versionMatches root then acceptHello c.addr role
      else sendError c.addr none "protocol version mismatch") e b₁).2 r'
    split
    · exact ⟨_, .hello hhello name role, hrenamed.acceptHello hwf₁ hd hhello role e⟩
    · exact ⟨_, .named hhello name, hrenamed.plain (plain_sendError ..) e⟩

theorem enacts_handleTakeover (h : Refines b r) (hc : b.clientAt c.addr = some c)
    (hhello : c.helloReceived = true) (root : Json) (e : Env ρ) :
    ∃ r', Enacts c r .takeover r' ∧ Refines (handleTakeover c root e b).2 r' := by
  rw [handleTakeover, Proc.bind_apply, Proc.get_apply]
  by_cases hrole : c.role = .observer
  · rw [if_pos hrole]
    exact ⟨r, .idle _, h.plain (plain_sendError ..) e⟩
  rw [if_neg hrole]
  by_cases hheld : b.takeoverClient.isSome ∧ b.takeoverClient ≠ some c.addr
  · rw [if_pos hheld]
    exact ⟨r, .idle _, h.plain (plain_sendError ..) e⟩
  rw [if_neg hheld]
  have hrole : c.role = .controller := by
    cases hr : c.role with
    | observer => exact absurd hr hrole
    | controller => rfl
  have hfree : r.holder = none ∨ r.holder = some c.addr := by
    rw [h.holder]
    cases ht : b.takeoverClient with
    | none => exact .inl rfl
    | some t => simpa [ht] using hheld
  have hmem : c.ident ∈ r.members := (h.members _).mpr (mem_map_of_mem (mem_of_clientAt hc))
  have htaken : Refines { b with takeoverClient := some c.addr }
      (r.take c.ident hmem ⟨hhello, hrole⟩) := ⟨h.members, rfl⟩
  exact ⟨_, .takeover hmem ⟨hhello, hrole⟩ hfree, htaken.plain (plain_sendToClient ..) e⟩

theorem enacts_handleRelease (h : Refines b r) (c : Client) (root : Json) (e : Env ρ) :
    ∃ r', Enacts c r .release r' ∧ Refines (handleRelease c root e b).2 r' := by
  have hsent : ∀ {r'}, Refines { b with
      takeoverClient := if b.takeoverClient = some c.addr then none else b.takeoverClient } r' →
      Refines (handleRelease c root e b).2 r' := fun h' => h'.plain (plain_sendToClient ..) e
  by_cases hholder : b.takeoverClient = some c.addr
  · exact ⟨_, .release (h.holder.trans hholder), hsent ⟨h.members, (if_pos hholder).symm⟩⟩
  · exact ⟨r, .idle _, hsent ⟨h.members, h.holder.trans (if_neg hholder).symm⟩⟩

theorem enacts_handleClientMessage (hwf : WellFormed b) (h : Refines b r)
    (hc : b.clientAt c.addr = some c) (msg : Msg) (e : Env ρ) :
    ∃ r', Enacts c r msg.type r' ∧ Refines (handleClientMessage c.addr msg e b).2 r' := by
  have h₁ : Refines (b.noted (.dispatched c.serial msg)) r := ⟨h.members, h.holder⟩
  have hwf₁ : WellFormed (b.noted (.dispatched c.serial msg)) := hwf.shrink (shrinking.refl _)
  have hc₁ : (b.noted (.dispatched c.serial msg)).clientAt c.addr = some c := hc
  rw [handleClientMessage_some hc]
  by_cases hrefused : c.helloReceived = false ∧ msg.type ≠ .hello
  · rw [if_pos hrefused]
    exact ⟨r, .idle _, h₁.plain (plain_sendError ..) e⟩
  rw [if_neg hrefused]
  by_cases hhello : msg.type = .hello
  · rw [hhello]
    exact enacts_handleHello hwf₁ h₁ hc₁ _ e
  have hsaid : c.helloReceived = true := by simpa [hhello] using hrefused
  by_cases htakeover : msg.type = .takeover
  · rw [htakeover]
    exact enacts_handleTakeover h₁ hc₁ hsaid _ e
  by_cases hrelease : msg.type = .release
  · rw [hrelease]
    exact enacts_handleRelease h₁ c _ e
  have hcalm := Frame.closure_le ⟨Calm fun _ => True, .refl _, .trans⟩ (fun _ _ => Work.calm)
    (deed_dispatchMessage hhello htakeover hrelease (ident_mem hc₁) (msg.root.getD .null) e)
  exact ⟨r, .idle _, h₁.calm hcalm⟩

end Simulation

def simulating : Frame (Broker ρ) where
  rel b b' := WellFormed b → WellFormed b' ∧ ∀ r, Refines b r →
    ∃ r', Relation.ReflTransGen Registry.Step r r' ∧ Refines b' r'
  refl b hwf := ⟨hwf, fun r h => ⟨r, .refl, h⟩⟩
  trans h h' hwf := by
    refine ⟨(h' (h hwf).1).1, fun r hr => ?_⟩
    obtain ⟨r₁, hsteps, hr₁⟩ := (h hwf).2 r hr
    obtain ⟨r₂, hsteps', hr₂⟩ := (h' (h hwf).1).2 r₁ hr₁
    exact ⟨r₂, hsteps.trans hsteps', hr₂⟩

variable (e : Env ρ)

theorem deskFrame_simulating : DeskFrame e simulating where
  act b b' h hwf := by
    refine ⟨hwf.shrink (shrinking_act h), fun r hr => ?_⟩
    obtain ⟨r', hstep, hr'⟩ := refines_act hwf hr h
    exact ⟨r', .single hstep, hr'⟩
  register reg := by
    refine ⟨fun b hwf => ⟨hwf.brokerRegisterClient reg e, fun r hr => ?_⟩⟩
    obtain ⟨r', rfl | ⟨x, -, rfl⟩, hr'⟩ := refines_register hr reg e
    · exact ⟨_, .refl, hr'⟩
    · exact ⟨_, .single (.enter r x), hr'⟩
  applied b c reported hc hwf := ⟨hwf.shrink (shrinking.refl _), fun r hr =>
    ⟨r, .refl, hr.members, hr.holder⟩⟩

theorem loopFrame_simulating : LoopFrame e simulating :=
  (deskFrame_simulating e).loop fun _ _ h hwf =>
    ⟨hwf.shrink (shrinking_of_calm h), fun r hr => ⟨r, .refl, hr.calm h⟩⟩

section Lasting

def lasting : Frame (Broker ρ) where
  rel b b' := WellFormed b → WellFormed b' ∧ b.registrations ≤ b'.registrations ∧
    ∀ x' ∈ b'.idents, x'.serial < b.registrations →
      ∃ x ∈ b.idents, x.serial = x'.serial ∧ (x.helloReceived = true → x' = x)
  refl b hwf := ⟨hwf, Nat.le_refl _, fun x hx _ => ⟨x, hx, rfl, fun _ => rfl⟩⟩
  trans h h' hwf := by
    obtain ⟨hwf₁, hle₁, hlast₁⟩ := h hwf
    obtain ⟨hwf₂, hle₂, hlast₂⟩ := h' hwf₁
    refine ⟨hwf₂, hle₁.trans hle₂, fun x₂ hx₂ hlt => ?_⟩
    obtain ⟨x₁, hx₁, hserial₁, hsame₁⟩ := hlast₂ x₂ hx₂ (lt_of_lt_of_le hlt hle₁)
    obtain ⟨x, hx, hserial, hsame⟩ := hlast₁ x₁ hx₁ (hserial₁ ▸ hlt)
    refine ⟨x, hx, hserial.trans hserial₁, fun hhello => ?_⟩
    have h₁ := hsame hhello
    rw [hsame₁ (h₁ ▸ hhello), h₁]

variable {b b' : Broker ρ}

theorem lasting_of_mem (hshrink : shrinking.rel b b')
    (h : WellFormed b → ∀ x' ∈ b'.idents,
      ∃ x ∈ b.idents, x.serial = x'.serial ∧ (x.helloReceived → x' = x)) :
    lasting.rel b b' := fun hwf =>
  ⟨hwf.shrink hshrink, Nat.le_of_eq hshrink.2.symm, fun x' hx' _ => h hwf x' hx'⟩

theorem lasting_of_subset (hshrink : shrinking.rel b b')
    (h : WellFormed b → ∀ x ∈ b'.idents, x ∈ b.idents) : lasting.rel b b' :=
  lasting_of_mem hshrink fun hwf x hx => ⟨x, h hwf x hx, rfl, fun _ => rfl⟩

theorem lasting_of_calm {P : Event → Prop} (h : Calm P b b') : lasting.rel b b' :=
  lasting_of_subset (shrinking_of_calm h) fun _ _ hx => h.idents ▸ hx

theorem lasting_act {e : Env ρ} (h : Act e b b') : lasting.rel b b' := by
  have hshrink := shrinking_act h
  cases h with
  | deed h => exact lasting_of_calm h.calm
  | tools id params h => exact h ▸ lasting_of_calm (calm_handleToolsCall id params e b)
  | dispatched c hc msg h => exact lasting_of_subset hshrink fun _ x hx => by subst h; exact hx
  | renamed c hc hhello f h =>
    subst h
    refine lasting_of_mem hshrink fun hwf x' hx' => ?_
    cases (mem_idents_updateClient hwf hc e).mp hx' with
    | inl heq =>
      refine ⟨c.ident, mem_map_of_mem (mem_of_clientAt hc), by rw [heq]; rfl, fun hx => ?_⟩
      exact Bool.noConfusion (hhello.symm.trans hx)
    | inr hx => exact ⟨x', hx.1, rfl, fun _ => rfl⟩
  | admitted c hc hhello hauth role h =>
    subst h
    refine lasting_of_mem hshrink fun hwf x' hx' => ?_
    cases (mem_idents_acceptHello hwf hc role e).mp hx' with
    | inl heq =>
      refine ⟨c.ident, mem_map_of_mem (mem_of_clientAt hc), by rw [heq]; rfl, fun hx => ?_⟩
      exact Bool.noConfusion (hhello.symm.trans hx)
    | inr hx => exact ⟨x', hx.1.1, rfl, fun _ => rfl⟩
  | removed a h =>
    subst h
    exact lasting_of_subset hshrink fun hwf x hx => ((mem_idents_removeClient hwf a e).mp hx).1
  | taken c hc hhello hrole hfree h =>
    exact lasting_of_subset hshrink fun _ x hx => by subst h; exact hx
  | released a h => exact lasting_of_subset hshrink fun _ x hx => by subst h; exact hx

theorem deskFrame_lasting : DeskFrame e lasting where
  act _ _ h := lasting_act h
  register reg := by
    refine ⟨fun b => ?_⟩
    cases brokerRegisterClient_cases reg e b with
    | inl hquiet => exact lasting_of_calm hquiet
    | inr hnew =>
      obtain ⟨mid, c, hmid, hclients, -, hserial, -, -, heq⟩ := hnew
      intro hwf
      refine ⟨hwf.brokerRegisterClient reg e, ?_, fun x' hx' hlt => ?_⟩
      · rw [heq]
        exact Nat.le_succ_of_le (Nat.le_of_eq hmid.registrations.symm)
      · rw [heq] at hx'
        obtain ⟨d, hd, rfl⟩ := mem_map.mp hx'
        cases mem_append.mp hd with
        | inl hd => exact ⟨d.ident, mem_map_of_mem (hclients ▸ hd), rfl, fun _ => rfl⟩
        | inr hd =>
          have hdc : d = c := mem_singleton.mp hd
          rw [hdc] at hlt
          exact absurd hserial (Nat.ne_of_lt hlt)
  applied b c reported hc := lasting_of_subset (shrinking.refl _) fun _ _ hx => hx

theorem loopFrame_lasting : LoopFrame e lasting :=
  (deskFrame_lasting e).loop fun _ _ => lasting_of_calm

end Lasting

theorem wellFormed_brokerInit (regex : Regex ρ) (cfg : Config) :
    WellFormed (brokerInit regex cfg) := ⟨nodup_nil, nodup_nil, by simp [Broker.keys,
  Broker.idents, brokerInit]⟩

theorem refines_brokerInit (regex : Regex ρ) (cfg : Config) :
    Refines (brokerInit regex cfg) Registry.empty :=
  ⟨fun x => by simp [Registry.empty, Broker.idents, brokerInit], rfl⟩

theorem wellFormed_runSteps (regex : Regex ρ) (cfg : Config) (steps : List Step) :
    WellFormed (runSteps e (brokerInit regex cfg) steps) :=
  (loopFrame_wellFormed e).runSteps _ steps (wellFormed_brokerInit regex cfg)

/-- In every state of every run the takeover is nobody's or that of a controller
who is there and has said hello; no two clients that have said hello have one name;
and who has said hello keeps its role. -/
theorem takeover_names_roles (e : Env ρ) (regex : Regex ρ) (cfg : Config)
    (steps more : List Step) :
    let b := runSteps e (brokerInit regex cfg) steps
    (∀ t, b.takeoverClient = some t → ∃ c ∈ b.clients, c.addr = t ∧ c.helloReceived = true ∧
        c.role = .controller) ∧
      (∀ c ∈ b.clients, ∀ d ∈ b.clients, c.helloReceived = true → d.helloReceived = true →
        c.name ≠ [] → c.name = d.name → c = d) ∧
      ∀ c ∈ b.clients, c.helloReceived = true → ∀ d ∈ (runSteps e b more).clients,
        d.serial = c.serial → d.helloReceived = true ∧ d.role = c.role := by
  intro b
  have hwf : WellFormed b := wellFormed_runSteps e regex cfg steps
  obtain ⟨r, -, hr⟩ := ((loopFrame_simulating e).runSteps _ steps (wellFormed_brokerInit regex cfg)).2
    Registry.empty (refines_brokerInit regex cfg)
  refine ⟨fun t ht => ?_, fun c hc d hd hhello hhello' hname hsame => ?_,
    fun c hc hhello d hd hserial => ?_⟩
  · obtain ⟨x, hx, hseat, heligible⟩ := r.holder_eligible t (hr.holder.trans ht)
    obtain ⟨c, hc, rfl⟩ := mem_map.mp ((hr.members x).mp hx)
    exact ⟨c, hc, hseat, heligible⟩
  · have hmem : ∀ c ∈ b.clients, c.ident ∈ r.members := fun c hc =>
      (hr.members _).mpr (mem_map_of_mem hc)
    have heq := r.apart c.ident (hmem c hc) d.ident (hmem d hd) ⟨hhello, hhello', hname, hsame⟩
    exact hwf.eq_of_addr hc hd (congrArg Ident.addr heq)
  · obtain ⟨-, -, hlast⟩ := (loopFrame_lasting e).runSteps b more hwf
    have hmem : c.ident ∈ b.idents := mem_map_of_mem hc
    have hlt : d.ident.serial < b.registrations := by
      change d.serial < _
      rw [hserial]
      exact hwf.fresh _ (mem_map_of_mem hmem)
    obtain ⟨x, hx, hxd, hsame⟩ := hlast d.ident (mem_map_of_mem hd) hlt
    have hxc : x = c.ident := hwf.ident_eq_of_serial hx hmem (hxd.trans hserial)
    have hdc : d.ident = c.ident := (hsame (hxc ▸ hhello)).trans hxc
    have hhellos := congrArg Ident.helloReceived hdc
    exact ⟨hhellos.trans hhello, congrArg Ident.role hdc⟩

def helloMsg (name : String) (fields : List (String × Json)) : Msg :=
  ⟨.hello, some (.obj ([("name", .str (ascii name)), ("role", .str (ascii "controller")),
    ("protocol_version", .num protocolVersion)] ++ fields))⟩

def plainReg (addr : Addr) : Registration := ⟨addr, true, 0, false, 0⟩

def replacedSteps : List Step :=
  [.event (.listen (plainReg 1)), .event (.listen (plainReg 2)), .message 1 (helloMsg "a" []),
    .message 1 ⟨.takeover, none⟩, .message 2 (helloMsg "a" []), .message 2 ⟨.takeover, none⟩]

theorem takeover_names_roles_replaced :
    (runSteps plainEnv (plainInit []) replacedSteps).takeoverClient = some 2 ∧
      ∃ c ∈ (runSteps plainEnv (plainInit []) replacedSteps).clients, c.addr = 2 ∧
        c.helloReceived = true ∧ c.role = .controller :=
  have h : (runSteps plainEnv (plainInit []) replacedSteps).takeoverClient = some 2 := by
    decide +kernel
  ⟨h, (takeover_names_roles plainEnv plainEnv.regex (plainConfig []) replacedSteps []).1 2 h⟩

end Smolmux.Broker
