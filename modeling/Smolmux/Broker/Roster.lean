import Smolmux.Broker.Account

/-! The ids of the clients. They are numbered, and the counter has 32 bits, so that no two
clients have one id as long as it has not come round. -/

namespace Smolmux.Broker
open Smolmux.Frame List

variable {ρ : Type}

def clientIdText (n : Nat) : Bytes := stored 32 (ascii "client-" ++ decimal n)

theorem clientIdText_eq {n : Nat} (h : n < 2 ^ 32) :
    clientIdText n = ascii "client-" ++ decimal n := by
  have hlength : (decimal n).length ≤ 10 := length_decimal_le (by decide) (by omega)
  have hhead : (ascii "client-").length = 7 := by decide
  exact stored_fits (by rw [length_append, hhead]; omega)

theorem clientIdText_inj {m n : Nat} (hm : m < 2 ^ 32) (hn : n < 2 ^ 32)
    (h : clientIdText m = clientIdText n) : m = n := by
  rw [clientIdText_eq hm, clientIdText_eq hn] at h
  exact decimal_injective (append_cancel_left h)

theorem clientIdText_ne_mcp (n : Nat) : clientIdText n ≠ mcpClientId := by
  intro h
  have hhead := congrArg List.head? h
  cases hhead

/-- Clients are apart, and their ids are texts of different numbers that have been drawn. -/
structure Roster (b : Broker ρ) : Prop where
  wf : WellFormed b
  number : b.nextClientNum = b.attempts % 2 ^ 32
  ids : ∀ x ∈ b.idents, ∃ n < b.attempts, x.id = clientIdText n
  apart : (b.idents.map Ident.id).Nodup

namespace Roster

variable {b b' : Broker ρ}

theorem eq_of_id (h : Roster b) {x y : Ident} (hx : x ∈ b.idents) (hy : y ∈ b.idents)
    (hid : x.id = y.id) : x = y := inj_on_of_nodup_map h.apart hx hy hid

theorem id_ne_mcp (h : Roster b) {x : Ident} (hx : x ∈ b.idents) : x.id ≠ mcpClientId := by
  obtain ⟨n, -, hid⟩ := h.ids x hx
  exact hid ▸ clientIdText_ne_mcp n

theorem stored_id (h : Roster b) {x : Ident} (hx : x ∈ b.idents) : stored 32 x.id = x.id := by
  obtain ⟨n, -, hid⟩ := h.ids x hx
  rw [hid, clientIdText, stored_stored]

theorem of_idents (h : Roster b) (hidents : b'.idents = b.idents)
    (hregistrations : b'.registrations = b.registrations)
    (hnumbers : b'.nextClientNum = b.nextClientNum ∧ b'.attempts = b.attempts) : Roster b' := by
  refine ⟨h.wf.shrink ⟨?_, hregistrations⟩, ?_, ?_, ?_⟩
  · rw [Broker.keys, hidents, Broker.keys]
  · rw [hnumbers.1, hnumbers.2, h.number]
  · rw [hidents, hnumbers.2]
    exact h.ids
  · rw [hidents]
    exact h.apart

theorem updateClient (h : Roster b) (a : Addr) {f : Client → Client}
    (hf : ∀ c, (f c).ident.key = c.ident.key ∧ (f c).id = c.id) (e : Env ρ) :
    Roster (Broker.updateClient a f e b).2 := by
  have hids : (Broker.updateClient a f e b).2.idents.map Ident.id = b.idents.map Ident.id := by
    change ((b.clients.map _).map _).map _ = _
    rw [Broker.idents, map_map, map_map, map_map]
    refine map_congr_left fun c _ => ?_
    simp only [Function.comp_apply]
    split_ifs
    · exact (hf c).2
    · rfl
  refine ⟨h.wf.shrink ((shrinking_updateClient a fun c => (hf c).1).rel e b), h.number,
    fun x hx => ?_, hids ▸ h.apart⟩
  have hmem := mem_map_of_mem (f := Ident.id) hx
  rw [hids] at hmem
  obtain ⟨y, hy, hid⟩ := mem_map.mp hmem
  exact hid ▸ h.ids y hy

theorem removeClient (h : Roster b) (a : Addr) (e : Env ρ) :
    Roster (Broker.removeClient a e b).2 := by
  have hnumbers := ((clerical_removeClient a).rel e b).numbers
  refine ⟨h.wf.shrink ((shrinking_removeClient a).rel e b), ?_, fun x hx => ?_, ?_⟩
  · rw [hnumbers.1, hnumbers.2, h.number]
  · rw [hnumbers.2]
    exact h.ids x ((mem_idents_removeClient h.wf a e).mp hx).1
  · rw [Broker.idents, clients_removeClient]
    obtain ⟨clients, hperm, hsub⟩ := dropClient_subperm b.clients a
    have hfewer := (hsub.map Client.ident).map Ident.id
    exact ((hperm.map Client.ident).map Ident.id).nodup_iff.mp (hfewer.nodup h.apart)

theorem register (h : Roster b) (reg : Registration) (e : Env ρ)
    (hattempts : (brokerRegisterClient reg e b).2.attempts ≤ 2 ^ 32) :
    Roster (brokerRegisterClient reg e b).2 := by
  have hwf := h.wf.brokerRegisterClient reg e
  obtain heq | heq | heq := brokerRegisterClient_eq reg e b
  · rw [heq]
    exact h
  all_goals
    rw [heq] at hwf hattempts ⊢
    have hlt : b.attempts < 2 ^ 32 := hattempts
    have hnumber : b.nextClientNum = b.attempts := h.number.trans (Nat.mod_eq_of_lt hlt)
    have hnext : (b.nextClientNum + 1) % 2 ^ 32 = (b.attempts + 1) % 2 ^ 32 := by rw [hnumber]
  · refine ⟨hwf, hnext, fun x hx => ?_, h.apart⟩
    obtain ⟨n, hn, hid⟩ := h.ids x hx
    exact ⟨n, Nat.lt_succ_of_lt hn, hid⟩
  · let c := clientNew (freshAddr b.clients reg.addr) b.registrations b.nextClientNum reg
      (e.mono b.queries)
    have hid : c.id = clientIdText b.attempts := congrArg clientIdText hnumber
    have hidents : (Broker.joined { b.drawn with queries := b.queries + 1 } c).idents =
        b.idents ++ [c.ident] := map_append
    refine ⟨hwf, hnext, fun x hx => ?_, ?_⟩
    · rw [hidents] at hx
      cases mem_append.mp hx with
      | inl hx =>
        obtain ⟨n, hn, hid⟩ := h.ids x hx
        exact ⟨n, Nat.lt_succ_of_lt hn, hid⟩
      | inr hx =>
        rw [mem_singleton.mp hx]
        exact ⟨b.attempts, Nat.lt_succ_self _, hid⟩
    · rw [hidents, map_append, map_singleton, ← concat_eq_append, nodup_concat]
      refine ⟨fun hmem => ?_, h.apart⟩
      obtain ⟨x, hx, heq⟩ := mem_map.mp hmem
      obtain ⟨n, hn, hxid⟩ := h.ids x hx
      have hsame : clientIdText n = clientIdText b.attempts := hxid.symm.trans (heq.trans hid)
      exact absurd (clientIdText_inj (hn.trans hlt) hlt hsame) (Nat.ne_of_lt hn)

theorem init (regex : Regex ρ) (cfg : Config) : Roster (brokerInit regex cfg) :=
  ⟨⟨nodup_nil, nodup_nil, forall_mem_nil _⟩, rfl, forall_mem_nil _,
    nodup_nil⟩

end Roster

theorem expect_of_apart {S : Sector → Bool} (h : Apart S (only .expect)) : S .expect = false := by
  by_contra hS
  cases h .expect (Bool.eq_true_of_not_eq_false hS)

section Loop

variable {F : Frame (Broker ρ)} {e : Env ρ} {T : Sector → Bool}
  (hmoves : ∀ (S : Sector → Bool) (b b' : Broker ρ), Apart S T → Moves S b b' → F.rel b b')

include hmoves

theorem rel_op (op : Op) {b : Broker ρ}
    (hop : ¬ Apart op.touches T → F.rel b (op.run e b)) : F.rel b (op.run e b) := by
  by_cases hapart : Apart op.touches T
  · exact hmoves _ _ _ hapart (moves_run op e b)
  · exact hop hapart

theorem rel_of_work {P : Op → Bool}
    (hop : ∀ (op : Op) (b : Broker ρ), P op → ¬ Apart op.touches T → op.Ready b →
      F.rel b (op.run e b))
    {b b' : Broker ρ} (h : Work plain P e b b') : F.rel b b' := by
  cases h with
  | step h => exact hmoves _ b b' apart_none h
  | op op hP hready h =>
    subst h
    exact rel_op hmoves op fun hapart => hop op b hP hapart hready

variable
  (hnoted : ∀ (b : Broker ρ) (ev : Event), ev.sector = none → F.rel b (b.noted ev))
  (hregister : ∀ reg, F.KeepsAt e (brokerRegisterClient reg))
  (hupdate : ∀ (a : Addr) (f : Client → Client),
    (∀ c, (f c).ident.key = c.ident.key ∧ (f c).id = c.id) → F.KeepsAt e (updateClient a f))
  (hremove : ∀ a, F.KeepsAt e (removeClient a))
  (htakeover : ∀ (b : Broker ρ) (holder : Option Addr), F.rel b { b with takeoverClient := holder })

include hnoted hregister hupdate hremove htakeover

/-- A rule about clients and some sectors is kept in every turn when each change of the
clients, the calls of tools and the other operations that touch the sectors keep it. -/
theorem turnFrame_of_tools
    (htools : ∀ id params (b : Broker ρ), F.rel b (handleToolsCall id params e b).2)
    (hop : ∀ (op : Op) (b : Broker ρ), op ≠ .stopFlood → op.byTool = false →
      ¬ Apart op.touches T → op.Ready b → F.rel b (op.run e b)) :
    TurnFrame e F := by
  have hplain : ∀ b b', plain.rel b b' → F.rel b b' := fun b b' h =>
    hmoves _ b b' apart_none h
  have hdeed : ∀ b b', Work plain Op.isDeed e b b' → F.rel b b' := by
    refine fun b b' => rel_of_work hmoves fun op b hP => hop op b ?_ ?_
    · rintro rfl
      cases hP
    · simpa using (Bool.and_eq_true_iff.mp hP).2
  have hreplace : ∀ a name i, F.KeepsAt e (replaceOlder a name i) := by
    intro a name i
    induction i with
    | zero => exact keepsAt_pure _
    | succ i ih =>
      refine keepsAt_bind (keepsAt_get fun b => ?_) fun _ => ih
      split
      · exact keepsAt_if fun _ => hremove _
      · exact keepsAt_pure _
  have hadmits : ∀ a role, F.KeepsAt e (acceptHello a role) := by
    intro a role
    refine keepsAt_bind (hupdate a (Client.admitted role) fun _ => ⟨rfl, rfl⟩) fun _ =>
      keepsAt_get fun b => ?_
    split
    · exact keepsAt_pure _
    · exact keepsAt_bind (keepsAt_when fun _ => hreplace ..) fun _ =>
        ⟨fun b => hplain _ _ ((plain_sendToClient ..).rel e b)⟩
  exact
    { act := fun b b' h => by
        cases h with
        | deed h => exact hdeed b b' h
        | tools id params h => exact h ▸ htools id params b
        | dispatched c hc msg h => exact h ▸ hnoted b _ rfl
        | renamed c hc hhello f h =>
          exact h ▸ (hupdate c.addr (fun c => { c with name := f c.name }) fun _ => ⟨rfl, rfl⟩).rel b
        | admitted c hc hhello hauth role h => exact h ▸ (hadmits c.addr role).rel b
        | removed a h => exact h ▸ (hremove a).rel b
        | taken c hc hhello hrole hfree h => exact h ▸ htakeover b _
        | released a h => exact h ▸ htakeover b _
      register := hregister
      applied := fun b c reported hc => hnoted b _ rfl
      connecting := fun flags b hconnecting hsuspended =>
        rel_op hmoves (.connecting flags) fun hapart =>
          hop (.connecting flags) b (by simp) rfl hapart ⟨hconnecting, hsuspended⟩
      record := fun buf ts => ⟨fun b => rel_op hmoves (.record buf ts) fun hapart =>
        hop (.record buf ts) b (by simp) rfl hapart trivial⟩ }

theorem turnFrame_of_clients
    (hop : ∀ (op : Op) (b : Broker ρ), op ≠ .stopFlood → ¬ Apart op.touches T → op.Ready b →
      F.rel b (op.run e b)) :
    TurnFrame e F := by
  refine turnFrame_of_tools hmoves hnoted hregister hupdate hremove htakeover ?_
    fun op b hstop _ => hop op b hstop
  refine rel_handleToolsCall fun b b' => rel_of_work hmoves fun op b hP => hop op b ?_
  rintro rfl
  cases hP

end Loop

end Smolmux.Broker
