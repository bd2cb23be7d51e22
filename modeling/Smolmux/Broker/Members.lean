import Smolmux.Broker.Acts
import Mathlib.Data.List.Nodup

/-! Who the clients are after each act. No two clients live at one address or have
one serial number; acts never add a client, and a hello makes exactly the older
clients of its name go. -/

namespace Smolmux.Broker
open Protocol Smolmux.Frame List

variable {ρ α : Type}

def Ident.key (c : Ident) : Addr × Nat := (c.addr, c.serial)

def keys (b : Broker ρ) : List (Addr × Nat) := b.idents.map Ident.key

/-- Addresses and serial numbers tell clients apart, and serial numbers are never
used again. -/
structure WellFormed (b : Broker ρ) : Prop where
  addrs : (b.keys.map Prod.fst).Nodup
  serials : (b.keys.map Prod.snd).Nodup
  fresh : ∀ k ∈ b.keys, k.2 < b.registrations

def shrinking : Frame (Broker ρ) where
  rel b b' := b'.keys.Subperm b.keys ∧ b'.registrations = b.registrations
  refl b := ⟨List.Subperm.refl _, rfl⟩
  trans h h' := ⟨h'.1.trans h.1, h'.2.trans h.2⟩

theorem nodup_map_of_subperm {β γ : Type} {f : β → γ} {xs ys : List β} (h : xs.Subperm ys)
    (hys : (ys.map f).Nodup) : (xs.map f).Nodup := by
  obtain ⟨zs, hperm, hsub⟩ := h
  exact (hperm.map f).nodup_iff.mp ((hsub.map f).nodup hys)

variable {b' : Broker ρ}

theorem WellFormed.shrink {b : Broker ρ} (hwf : WellFormed b) (h : shrinking.rel b b') :
    WellFormed b' where
  addrs := nodup_map_of_subperm h.1 hwf.addrs
  serials := nodup_map_of_subperm h.1 hwf.serials
  fresh k hk := h.2.symm ▸ hwf.fresh k (h.1.subset hk)

variable {f : Client → Client} {c : Client} (clients : List Client) (a : Addr)

theorem shrinking_of_calm {P : Event → Prop} {b : Broker ρ} (h : Calm P b b') :
    shrinking.rel b b' := by
  refine ⟨?_, h.registrations⟩
  rw [Broker.keys, Broker.keys, h.idents]

theorem shrinking_of_plain {p : M ρ α} (h : plain.Keeps p) : shrinking.Keeps p :=
  h.mono fun _ _ hp => shrinking_of_calm hp.calm

theorem keys_updateClient (b : Broker ρ) (a : Addr) (hf : ∀ c, (f c).ident.key = c.ident.key)
    (e : Env ρ) :
    (updateClient a f e b).2.keys = b.keys := by
  change ((b.clients.map _).map _).map _ = _
  rw [Broker.keys, Broker.idents, map_map, map_map, map_map]
  refine map_congr_left fun c _ => ?_
  simp only [Function.comp_apply]
  split_ifs
  · exact hf c
  · rfl

theorem shrinking_updateClient (hf : ∀ c, (f c).ident.key = c.ident.key) : shrinking.Keeps (updateClient a f : M ρ Unit) := by
  refine ⟨fun e b => ⟨?_, rfl⟩⟩
  rw [keys_updateClient b a hf e]

theorem dropClient_subperm :
    (dropClient clients a).Subperm clients := by
  unfold dropClient
  cases hi : clients.findIdx? (·.addr == a) with
  | none => exact List.Subperm.refl _
  | some i =>
    have hlt : i < clients.length := (findIdx?_eq_some_iff_getElem.mp hi).1
    exact (swapRemove_perm hlt).subperm.trans (eraseIdx_sublist clients i).subperm

theorem removeClient_none {b : Broker ρ} {a : Addr} (h : b.clientAt a = none) (e : Env ρ) :
    removeClient a e b = ((), b) := by
  simp [removeClient, h]

theorem removeClient_some {b : Broker ρ} {a : Addr} (h : b.clientAt a = some c) (e : Env ρ) :
    (removeClient a e b).2 = Broker.noted
      { b with
        expect := Expect.expectCancelClient b.expect c.id
        takeoverClient := if b.takeoverClient = some a then none else b.takeoverClient
        clients := dropClient b.clients a }
      (.removed c.serial) := by
  simp [removeClient, h, emit]

theorem shrinking_removeClient : shrinking.Keeps (removeClient a : M ρ Unit) := by
  refine ⟨fun e b => ?_⟩
  cases h : b.clientAt a with
  | none =>
    rw [removeClient_none h]
    exact shrinking.refl b
  | some c =>
    rw [removeClient_some h]
    obtain ⟨clients, hperm, hsub⟩ := dropClient_subperm b.clients a
    have hkeys := (hsub.map Client.ident).map Ident.key
    exact ⟨⟨_, (hperm.map Client.ident).map Ident.key, hkeys⟩, rfl⟩

theorem shrinking_replaceAt (name : Bytes) (i : Nat) :
    shrinking.Keeps (replaceAt a name i : M ρ Unit) := by
  refine keeps_get fun b => ?_
  split
  · exact keeps_if fun _ => shrinking_removeClient _
  · exact keeps_pure _

theorem shrinking_replaceOlder (name : Bytes) (i : Nat) :
    shrinking.Keeps (replaceOlder a name i : M ρ Unit) := by
  induction i with
  | zero => exact keeps_pure _
  | succ i ih => exact keeps_bind (shrinking_replaceAt a name i) fun _ => ih

theorem shrinking_welcome : shrinking.Keeps (welcome a : M ρ Unit) := by
  refine keeps_get fun b => ?_
  split
  · exact keeps_pure _
  · exact keeps_bind (keeps_when fun _ => shrinking_replaceOlder ..) fun _ =>
      shrinking_of_plain (plain_sendToClient ..)

theorem shrinking_acceptHello (role : Option Role) :
    shrinking.Keeps (acceptHello a role : M ρ Unit) :=
  keeps_bind (shrinking_updateClient a fun _ => rfl) fun _ => shrinking_welcome a

theorem shrinking_act {e : Env ρ} {b : Broker ρ} (h : Act e b b') : shrinking.rel b b' := by
  cases h with
  | deed h => exact shrinking_of_calm h.calm
  | tools id params h => exact h ▸ shrinking_of_calm (calm_handleToolsCall id params e b)
  | dispatched c hc msg h =>
    subst h
    exact shrinking.refl _
  | renamed c hc hhello f h =>
    subst h
    exact (shrinking_updateClient c.addr (f := fun c => { c with name := f c.name })
      fun _ => rfl).rel e b
  | admitted c hc hhello hauth role h =>
    subst h
    exact (shrinking_acceptHello c.addr role).rel e b
  | removed a h =>
    subst h
    exact (shrinking_removeClient a).rel e b
  | taken c hc hhello hrole hfree h =>
    subst h
    exact shrinking.refl _
  | released a h =>
    subst h
    exact shrinking.refl _

def Event.isClerical : Event → Bool
  | .removed _ | .sent _ false _ => true
  | _ => false

/-- Work on the table of clients: the token stays, no sector is touched but the
expects of clients that go, and only removals and answers are noted. -/
structure Clerical (b b' : Broker ρ) : Prop where
  part : ∀ s, s ≠ .expect → b'.part s = b.part s
  expects : b'.expect.requests.Subperm b.expect.requests ∧ b'.expect.next = b.expect.next
  numbers : b'.nextClientNum = b.nextClientNum ∧ b'.attempts = b.attempts
  forward : b.queries ≤ b'.queries
  authToken : b'.authToken = b.authToken
  trace : Grows (fun ev => ev.isClerical = true) b.trace b'.trace

def clerical : Frame (Broker ρ) where
  rel := Clerical
  refl _ := ⟨fun _ _ => rfl, ⟨.refl _, rfl⟩, ⟨rfl, rfl⟩, Nat.le_refl _, rfl, .refl ..⟩
  trans h h' := ⟨fun s hs => (h'.part s hs).trans (h.part s hs),
    ⟨h'.expects.1.trans h.expects.1, h'.expects.2.trans h.expects.2⟩,
    ⟨h'.numbers.1.trans h.numbers.1, h'.numbers.2.trans h.numbers.2⟩, h.forward.trans h'.forward,
    h'.authToken.trans h.authToken, h.trace.trans h'.trace⟩

theorem clerical_updateClient (f : Client → Client) :
    clerical.Keeps (updateClient a f : M ρ Unit) :=
  ⟨fun _ _ => ⟨fun s _ => by cases s <;> rfl, ⟨.refl _, rfl⟩, ⟨rfl, rfl⟩, Nat.le_refl _, rfl,
    .refl ..⟩⟩

theorem clerical_setTakeover (b : Broker ρ) (holder : Option Addr) :
    Clerical b { b with takeoverClient := holder } :=
  ⟨fun s _ => by cases s <;> rfl, ⟨.refl _, rfl⟩, ⟨rfl, rfl⟩, Nat.le_refl _, rfl, .refl ..⟩

theorem clerical_removeClient : clerical.Keeps (removeClient a : M ρ Unit) := by
  refine ⟨fun e b => ?_⟩
  cases h : b.clientAt a with
  | none =>
    rw [removeClient_none h]
    exact clerical.refl b
  | some c =>
    rw [removeClient_some h]
    refine ⟨fun s hs => ?_, ⟨sweep_subperm .., rfl⟩, ⟨rfl, rfl⟩, Nat.le_refl _, rfl,
      ⟨[.removed c.serial], rfl, ?_⟩⟩
    swap
    · simp [Event.isClerical]
    cases s with
    | expect => exact absurd rfl hs
    | _ => rfl

theorem clerical_replaceOlder (name : Bytes) (i : Nat) :
    clerical.Keeps (replaceOlder a name i : M ρ Unit) := by
  induction i with
  | zero => exact keeps_pure _
  | succ i ih =>
    refine keeps_bind (keeps_get fun b => ?_) fun _ => ih
    split
    · exact keeps_if fun _ => clerical_removeClient _
    · exact keeps_pure _

theorem clerical_sendToClient (msg : Json) :
    clerical.Keeps (sendToClient a msg : M ρ Unit) := by
  have hasked : ∀ b : Broker ρ, Clerical b { b with queries := b.queries + 1 } := fun b =>
    ⟨fun s _ => by cases s <;> rfl, ⟨.refl _, rfl⟩, ⟨rfl, rfl⟩, Nat.le_succ _, rfl, .refl ..⟩
  refine keeps_env fun e => keeps_bind ⟨fun _ b => hasked b⟩ fun mem =>
    keeps_get fun b => ?_
  split
  · exact keeps_pure _
  · next c hc =>
    refine keeps_bind ⟨fun _ b => ⟨fun s _ => by cases s <;> rfl, ⟨.refl _, rfl⟩, ⟨rfl, rfl⟩,
      Nat.le_refl _, rfl, ⟨[.sent c.serial false msg], rfl, ?_⟩⟩⟩ fun _ => clerical_updateClient a _
    simp [Event.isClerical]

theorem clerical_acceptHello (role : Option Role) :
    clerical.Keeps (acceptHello a role : M ρ Unit) := by
  refine keeps_bind (clerical_updateClient a _) fun _ => keeps_get fun b => ?_
  split
  · exact keeps_pure _
  · exact keeps_bind (keeps_when fun _ => clerical_replaceOlder ..) fun _ =>
      clerical_sendToClient ..

theorem keys_addrs (b : Broker ρ) : b.keys.map Prod.fst = b.clients.map Client.addr := by
  simp [Broker.keys, Broker.idents, Ident.key, Client.ident, Function.comp_def]

theorem le_foldr_max {xs : List Nat} {x : Nat} (hx : x ∈ xs) : x ≤ xs.foldr max 0 := by
  induction xs with
  | nil => simp at hx
  | cons y ys ih =>
    rw [foldr_cons]
    cases mem_cons.mp hx with
    | inl hxy => omega
    | inr hxs => exact le_trans (ih hxs) (Nat.le_max_right ..)

theorem freshAddr_not_mem :
    freshAddr clients a ∉ clients.map Client.addr := by
  unfold freshAddr
  split_ifs with h
  · intro hmem
    have := le_foldr_max hmem
    omega
  · intro hmem
    obtain ⟨c, hc, haddr⟩ := mem_map.mp hmem
    exact h (any_eq_true.mpr ⟨c, hc, by simpa using haddr⟩)

def drawn (b : Broker ρ) : Broker ρ :=
  { b with nextClientNum := (b.nextClientNum + 1) % 2 ^ 32, attempts := b.attempts + 1 }

def joined (b : Broker ρ) (c : Client) : Broker ρ :=
  Broker.noted { b with clients := b.clients ++ [c], registrations := b.registrations + 1 }
    (.registered c.serial c.requiresAuth)

theorem brokerRegisterClient_eq (reg : Registration) (e : Env ρ) (b : Broker ρ) :
    (brokerRegisterClient reg e b).2 = b ∨ (brokerRegisterClient reg e b).2 = b.drawn ∨
      (brokerRegisterClient reg e b).2 = Broker.joined { b.drawn with queries := b.queries + 1 }
        (clientNew (freshAddr b.clients reg.addr) b.registrations b.nextClientNum reg
          (e.mono b.queries)) := by
  by_cases hcap : b.clientCap ≤ b.clients.length
  · exact .inl (by simp [brokerRegisterClient, hcap])
  · by_cases hmem : reg.mem = false ∨ reg.epollRc < 0
    · refine .inr (.inl ?_)
      simp [brokerRegisterClient, hcap, hmem, Broker.drawn]
    · refine .inr (.inr ?_)
      simp [brokerRegisterClient, hcap, hmem, nowMonotonic, ask, emit, Broker.drawn, Broker.joined]

theorem brokerRegisterClient_cases (reg : Registration) (e : Env ρ) (b : Broker ρ) :
    Calm (fun _ => True) b (brokerRegisterClient reg e b).2 ∨
      ∃ (mid : Broker ρ) (c : Client), Calm (fun _ => True) b mid ∧ mid.clients = b.clients ∧
        c.addr = freshAddr b.clients reg.addr ∧ c.serial = b.registrations ∧
        c.helloReceived = false ∧ c.requiresAuth = reg.requiresAuth ∧
        (brokerRegisterClient reg e b).2 = mid.joined c := by
  have hdrawn : ∀ n, Calm (fun _ => True) b { b.drawn with queries := n } := fun _ =>
    ⟨rfl, rfl, rfl, rfl, .refl ..⟩
  obtain h | h | h := brokerRegisterClient_eq reg e b
  · exact .inl (h.symm ▸ .refl _ b)
  · exact .inl (h.symm ▸ hdrawn b.queries)
  · exact .inr ⟨_, _, hdrawn _, rfl, rfl, rfl, rfl, rfl, h⟩

theorem WellFormed.register {b : Broker ρ} (hwf : WellFormed b)
    (haddr : c.addr ∉ b.clients.map Client.addr) (hserial : c.serial = b.registrations)
    (hclients : b'.clients = b.clients ++ [c]) (hreg : b'.registrations = b.registrations + 1) : WellFormed b' := by
  have hkeys : b'.keys = b.keys ++ [(c.addr, c.serial)] := by
    rw [Broker.keys, Broker.idents, hclients]
    simp [Broker.keys, Broker.idents, Ident.key, Client.ident]
  have haddrs : b.keys.map Prod.fst = b.clients.map Client.addr := keys_addrs b
  refine ⟨?_, ?_, ?_⟩
  · rw [hkeys, map_append, map_singleton, ← concat_eq_append, nodup_concat]
    exact ⟨haddrs ▸ haddr, hwf.addrs⟩
  · rw [hkeys, map_append, map_singleton, ← concat_eq_append, nodup_concat]
    refine ⟨fun hmem => ?_, hwf.serials⟩
    obtain ⟨k, hk, hks⟩ := mem_map.mp hmem
    have := hwf.fresh k hk
    omega
  · intro k hk
    rw [hkeys] at hk
    cases mem_append.mp hk with
    | inl h =>
      have := hwf.fresh k h
      omega
    | inr h =>
      rw [mem_singleton] at h
      subst h
      rw [hreg, hserial]
      exact Nat.lt_succ_self _

theorem WellFormed.brokerRegisterClient {b : Broker ρ} (hwf : WellFormed b) (reg : Registration)
    (e : Env ρ) : WellFormed (brokerRegisterClient reg e b).2 := by
  cases brokerRegisterClient_cases reg e b with
  | inl h => exact hwf.shrink (shrinking_of_calm h)
  | inr h =>
    obtain ⟨mid, c, hmid, hclients, haddr, hserial, -, -, heq⟩ := h
    rw [heq]
    refine hwf.register (c := c) ?_ hserial ?_ ?_
    · rw [haddr]
      exact freshAddr_not_mem _ _
    · rw [← hclients]
      rfl
    · exact congrArg (· + 1) hmid.registrations

variable {x : Ident}

section Membership

variable {b : Broker ρ}

theorem WellFormed.eq_of_addr (hwf : WellFormed b) {d : Client} (hc : c ∈ b.clients)
    (hd : d ∈ b.clients) (h : c.addr = d.addr) : c = d :=
  inj_on_of_nodup_map (keys_addrs b ▸ hwf.addrs) hc hd h

theorem WellFormed.ident_eq_of_addr (hwf : WellFormed b) {y : Ident} (hx : x ∈ b.idents)
    (hy : y ∈ b.idents) (h : x.addr = y.addr) : x = y := by
  obtain ⟨c, hc, rfl⟩ := mem_map.mp hx
  obtain ⟨d, hd, rfl⟩ := mem_map.mp hy
  rw [hwf.eq_of_addr hc hd h]

theorem WellFormed.ident_eq_of_serial (hwf : WellFormed b) {y : Ident} (hx : x ∈ b.idents)
    (hy : y ∈ b.idents) (h : x.serial = y.serial) : x = y := by
  have hserials : (b.idents.map Ident.serial).Nodup := by
    simpa [Broker.keys, Ident.key, Function.comp_def] using hwf.serials
  exact inj_on_of_nodup_map hserials hx hy h

theorem WellFormed.clientAt_of_mem (hwf : WellFormed b) (hc : c ∈ b.clients) :
    b.clientAt c.addr = some c := by
  cases h : b.clientAt c.addr with
  | none =>
    have := find?_eq_none.mp h c hc
    simp at this
  | some d => rw [hwf.eq_of_addr (mem_of_clientAt h) hc (addr_of_clientAt h)]

theorem mem_idents_updateClient (hwf : WellFormed b) (hc : b.clientAt c.addr = some c) (e : Env ρ) :
    x ∈ (updateClient c.addr f e b).2.idents ↔
      x = (f c).ident ∨ x ∈ b.idents ∧ x.addr ≠ c.addr := by
  have hidents : (updateClient c.addr f e b).2.idents =
      b.clients.map fun d => (if d.addr = c.addr then f d else d).ident := by
    simp [Broker.idents, updateClient, Function.comp_def]
  rw [hidents, mem_map]
  constructor
  · rintro ⟨d, hd, rfl⟩
    split_ifs with h
    · rw [hwf.eq_of_addr hd (mem_of_clientAt hc) h]
      exact .inl rfl
    · exact .inr ⟨mem_map_of_mem hd, h⟩
  · rintro (rfl | ⟨hx, haddr⟩)
    · exact ⟨c, mem_of_clientAt hc, by rw [if_pos rfl]⟩
    · obtain ⟨d, hd, rfl⟩ := mem_map.mp hx
      have haddr : d.addr ≠ c.addr := haddr
      exact ⟨d, hd, by rw [if_neg haddr]⟩

theorem dropClient_perm :
    (dropClient clients a).Perm (clients.eraseP (·.addr == a)) := by
  rw [eraseP_eq_eraseIdx]
  unfold dropClient
  cases hi : clients.findIdx? (·.addr == a) with
  | none => exact List.Perm.refl _
  | some i => exact swapRemove_perm (findIdx?_eq_some_iff_getElem.mp hi).1

theorem eraseP_addr {clients : List Client} (h : (clients.map Client.addr).Nodup) (a : Addr) :
    clients.eraseP (·.addr == a) = clients.filter (·.addr ≠ a) := by
  induction clients with
  | nil => rfl
  | cons d ds ih =>
    rw [map_cons, nodup_cons] at h
    by_cases hd : d.addr = a
    · have hkeep : ∀ c ∈ ds, c.addr ≠ a := fun c hc heq =>
        h.1 (mem_map.mpr ⟨c, hc, heq.trans hd.symm⟩)
      rw [eraseP_cons_of_pos (by simpa using hd), filter_cons_of_neg (by simpa using hd)]
      exact (filter_eq_self.mpr fun c hc => by simpa using hkeep c hc).symm
    · rw [eraseP_cons_of_neg (by simpa using hd), filter_cons_of_pos (by simpa using hd),
        ih h.2]

theorem mem_dropClient {clients : List Client} (h : (clients.map Client.addr).Nodup) {a : Addr} : c ∈ dropClient clients a ↔ c ∈ clients ∧ c.addr ≠ a := by
  rw [(dropClient_perm clients a).mem_iff, eraseP_addr h, mem_filter, decide_eq_true_iff]

theorem clients_removeClient (b : Broker ρ) (a : Addr) (e : Env ρ) :
    (removeClient a e b).2.clients = dropClient b.clients a := by
  cases h : b.clientAt a with
  | some c =>
    rw [removeClient_some h]
    rfl
  | none =>
    have hnone : b.clients.findIdx? (·.addr == a) = none := by
      rw [findIdx?_eq_none_iff]
      intro c hc
      simpa using find?_eq_none.mp h c hc
    rw [removeClient_none h, dropClient, hnone]

theorem mem_idents_removeClient (hwf : WellFormed b) (a : Addr) (e : Env ρ) :
    x ∈ (removeClient a e b).2.idents ↔ x ∈ b.idents ∧ x.addr ≠ a := by
  have haddrs : (b.clients.map Client.addr).Nodup := keys_addrs b ▸ hwf.addrs
  rw [Broker.idents, clients_removeClient, Broker.idents, mem_map, mem_map]
  constructor
  · rintro ⟨c, hc, rfl⟩
    rw [mem_dropClient haddrs] at hc
    exact ⟨⟨c, hc.1, rfl⟩, hc.2⟩
  · rintro ⟨⟨c, hc, rfl⟩, haddr⟩
    exact ⟨c, (mem_dropClient haddrs).mpr ⟨hc, haddr⟩, rfl⟩

end Membership

variable {name : Bytes}

def Ident.givesWay (a : Addr) (name : Bytes) (x : Ident) : Bool :=
  x.addr ≠ a && x.helloReceived && x.name ≠ [] && x.name == name

def HolderIn (b : Broker ρ) : Prop :=
  ∀ t, b.takeoverClient = some t → ∃ x ∈ b.idents, x.addr = t

structure Evicted (a : Addr) (name : Bytes) (b b' : Broker ρ) : Prop where
  sub : ∀ x ∈ b'.idents, x ∈ b.idents
  stay : ∀ x ∈ b.idents, x.givesWay a name = false → x ∈ b'.idents
  holder : b'.takeoverClient = b.takeoverClient ∨ b'.takeoverClient = none ∧
    ∃ x ∈ b.idents, x.givesWay a name = true ∧ b.takeoverClient = some x.addr
  holderIn : b.HolderIn → b'.HolderIn

theorem Evicted.refl (name : Bytes) (b : Broker ρ) : Evicted a name b b :=
  ⟨fun _ h => h, fun _ h _ => h, .inl rfl, id⟩

theorem Evicted.trans {a : Addr} {b₁ b₂ b₃ : Broker ρ} (h : Evicted a name b₁ b₂)
    (h' : Evicted a name b₂ b₃) : Evicted a name b₁ b₃ where
  sub x hx := h.sub x (h'.sub x hx)
  stay x hx hstay := h'.stay x (h.stay x hx hstay) hstay
  holder := by
    cases h'.holder with
    | inl heq =>
      rw [heq]
      exact h.holder
    | inr hnone =>
      obtain ⟨hnone, x, hx, hway, hx'⟩ := hnone
      cases h.holder with
      | inl heq => exact .inr ⟨hnone, x, h.sub x hx, hway, heq ▸ hx'⟩
      | inr hother => exact .inr ⟨hnone, hother.2⟩
  holderIn hin := h'.holderIn (h.holderIn hin)

theorem evicted_removeClient {b : Broker ρ} (hwf : WellFormed b) {a : Addr} {old : Client}
    (hold : old ∈ b.clients) (hway : giveWay a name old) (e : Env ρ) :
    Evicted a name b (removeClient old.addr e b).2 where
  sub x hx := ((mem_idents_removeClient hwf old.addr e).mp hx).1
  stay x hx hstay := by
    refine (mem_idents_removeClient hwf old.addr e).mpr ⟨hx, fun haddr => ?_⟩
    have hx := hwf.ident_eq_of_addr hx (mem_map_of_mem hold) haddr
    rw [hx] at hstay
    exact Bool.noConfusion (hstay.symm.trans hway)
  holder := by
    rw [removeClient_some (hwf.clientAt_of_mem hold)]
    by_cases h : b.takeoverClient = some old.addr
    · exact .inr ⟨if_pos h, old.ident, mem_map_of_mem hold, hway, h⟩
    · exact .inl (if_neg h)
  holderIn hin := by
    intro t ht
    rw [removeClient_some (hwf.clientAt_of_mem hold)] at ht
    by_cases h : b.takeoverClient = some old.addr
    · exact absurd ((if_pos h).symm.trans ht) (by simp)
    · have ht := (if_neg h).symm.trans ht
      obtain ⟨x, hx, rfl⟩ := hin t ht
      exact ⟨x, (mem_idents_removeClient hwf old.addr e).mpr ⟨hx, fun haddr => h (haddr ▸ ht)⟩, rfl⟩

theorem evicted_replaceAt {b : Broker ρ} (hwf : WellFormed b) (a : Addr) (name : Bytes) (i : Nat)
    (e : Env ρ) : Evicted a name b (replaceAt a name i e b).2 := by
  rw [replaceAt, Proc.bind_apply, Proc.get_apply]
  dsimp only
  cases hi : b.clients[i]? with
  | none => exact .refl a name b
  | some old =>
    have hold : old ∈ b.clients := mem_of_getElem? hi
    dsimp only
    rw [Proc.ite_apply]
    split_ifs with hway
    · exact evicted_removeClient hwf hold hway e
    · exact .refl a name b

theorem evicted_replaceOlder {b : Broker ρ} (hwf : WellFormed b) (a : Addr) (name : Bytes) (i : Nat)
    (e : Env ρ) : Evicted a name b (replaceOlder a name i e b).2 := by
  induction i generalizing b with
  | zero => exact .refl a name b
  | succ i ih =>
    have hstep := (shrinking_replaceAt a name i).rel e b
    exact (evicted_replaceAt hwf a name i e).trans (ih (hwf.shrink hstep))

theorem settled_replaceAt {b : Broker ρ} (hwf : WellFormed b) {a : Addr} {i : Nat}
    (h : ∀ c ∈ b.clients.drop (i + 1), giveWay a name c = false) (e : Env ρ) :
    ∀ c ∈ (replaceAt a name i e b).2.clients.drop i, giveWay a name c = false := by
  rw [replaceAt, Proc.bind_apply, Proc.get_apply]
  dsimp only
  cases hi : b.clients[i]? with
  | none =>
    have hlen : b.clients.length ≤ i := List.getElem?_eq_none_iff.mp hi
    intro c hc
    change c ∈ b.clients.drop i at hc
    rw [drop_eq_nil_of_le hlen] at hc
    simp at hc
  | some old =>
    obtain ⟨hlt, rfl⟩ := List.getElem?_eq_some_iff.mp hi
    dsimp only
    rw [Proc.ite_apply]
    split_ifs with hway
    · have hfind : b.clients.findIdx? (·.addr == b.clients[i].addr) = some i := by
        rw [findIdx?_eq_some_iff_getElem]
        refine ⟨hlt, by simp, fun j hj hsame => ?_⟩
        have haddrs : (b.clients.map Client.addr).Nodup := keys_addrs b ▸ hwf.addrs
        have hne := pairwise_iff_getElem.mp (pairwise_map.mp haddrs) j i (by omega) hlt hj
        exact hne (by simpa using hsame)
      rw [clients_removeClient, dropClient, hfind]
      intro c hc
      exact h c ((drop_swapRemove_perm hlt).mem_iff.mp hc)
    · intro c hc
      change c ∈ b.clients.drop i at hc
      rw [drop_eq_getElem_cons hlt] at hc
      cases mem_cons.mp hc with
      | inl heq =>
        rw [heq]
        simpa using hway
      | inr hrest => exact h c hrest

theorem settled_replaceOlder {b : Broker ρ} (hwf : WellFormed b) {a : Addr} {i : Nat}
    (h : ∀ c ∈ b.clients.drop i, giveWay a name c = false) (e : Env ρ) :
    ∀ c ∈ (replaceOlder a name i e b).2.clients, giveWay a name c = false := by
  induction i generalizing b with
  | zero => exact fun c hc => h c hc
  | succ i ih =>
    exact ih (hwf.shrink ((shrinking_replaceAt a name i).rel e b)) (settled_replaceAt hwf h e)

theorem evicted_of_calm {P : Event → Prop} {b : Broker ρ} (h : Calm P b b') (a : Addr)
    (name : Bytes) : Evicted a name b b' where
  sub x hx := h.idents ▸ hx
  stay x hx _ := h.idents.symm ▸ hx
  holder := .inl h.takeover
  holderIn hin t ht := h.idents.symm ▸ hin t (h.takeover ▸ ht)

theorem givesWay_nil (x : Ident) : x.givesWay a [] = false := by
  cases h : x.name <;> simp [Ident.givesWay, h]

theorem evicted_welcome {b : Broker ρ} (hwf : WellFormed b) (hc : b.clientAt c.addr = some c)
    (e : Env ρ) :
    Evicted c.addr c.name b (welcome c.addr e b).2 ∧
      ∀ x ∈ (welcome c.addr e b).2.idents, x.givesWay c.addr c.name = false := by
  have hrun : welcome c.addr e b = sendToClient c.addr
      (msgWelcome brokerVersion b.port b.baudrate c.role.text) e
      (Proc.when (c.name ≠ []) (replaceOlder c.addr c.name b.clients.length) e b).2 := by
    simp [welcome, hc]
  have hsend := ((plain_sendToClient c.addr (msgWelcome brokerVersion b.port b.baudrate
    c.role.text)).rel e
      (Proc.when (c.name ≠ []) (replaceOlder c.addr c.name b.clients.length) e b).2).calm
  rw [hrun]
  by_cases hname : c.name = []
  · have hwhen : (Proc.when (c.name ≠ []) (replaceOlder c.addr c.name b.clients.length) e b).2 = b := by
      simp [Proc.when, hname]
    rw [hwhen] at hsend ⊢
    refine ⟨evicted_of_calm hsend .., fun x _ => ?_⟩
    rw [hname]
    exact givesWay_nil c.addr x
  · have hwhen : (Proc.when (c.name ≠ []) (replaceOlder c.addr c.name b.clients.length) e b).2 =
        (replaceOlder c.addr c.name b.clients.length e b).2 := by
      simp [Proc.when, hname]
    rw [hwhen] at hsend ⊢
    refine ⟨(evicted_replaceOlder hwf ..).trans (evicted_of_calm hsend ..), fun x hx => ?_⟩
    rw [hsend.idents] at hx
    obtain ⟨d, hd, rfl⟩ := mem_map.mp hx
    exact settled_replaceOlder hwf (by simp) e d hd

theorem mem_idents_welcome {b : Broker ρ} (hwf : WellFormed b) (hc : b.clientAt c.addr = some c)
    (e : Env ρ) :
    x ∈ (welcome c.addr e b).2.idents ↔ x ∈ b.idents ∧ x.givesWay c.addr c.name = false := by
  obtain ⟨hevicted, hsettled⟩ := evicted_welcome hwf hc e
  constructor
  · intro hx
    exact ⟨hevicted.sub x hx, hsettled x hx⟩
  · intro hx
    exact hevicted.stay x hx.1 hx.2

theorem clientAt_admitted {b : Broker ρ} (hc : b.clientAt c.addr = some c) (role : Option Role)
    (e : Env ρ) :
    (updateClient c.addr (Client.admitted role) e b).2.clientAt c.addr =
      some (c.admitted role) := by
  have h := clientAt_updateClient b c.addr (f := Client.admitted role) (fun _ => rfl) e c.addr
  rw [h, hc]
  simp

theorem WellFormed.admitted {b : Broker ρ} (hwf : WellFormed b) (a : Addr) (role : Option Role)
    (e : Env ρ) : WellFormed (updateClient a (Client.admitted role) e b).2 :=
  hwf.shrink ((shrinking_updateClient a (f := Client.admitted role) fun _ => rfl).rel e b)

theorem evicted_acceptHello {b : Broker ρ} (hwf : WellFormed b) (hc : b.clientAt c.addr = some c)
    (role : Option Role) (e : Env ρ) :
    Evicted c.addr c.name (updateClient c.addr (Client.admitted role) e b).2
      (acceptHello c.addr role e b).2 :=
  (evicted_welcome (c := c.admitted role) (hwf.admitted c.addr role e)
    (clientAt_admitted hc role e) e).1

theorem mem_idents_acceptHello {b : Broker ρ} (hwf : WellFormed b)
    (hc : b.clientAt c.addr = some c) (role : Option Role) (e : Env ρ) :
    x ∈ (acceptHello c.addr role e b).2.idents ↔ x = (c.admitted role).ident ∨
      (x ∈ b.idents ∧ x.addr ≠ c.addr) ∧ x.givesWay c.addr c.name = false := by
  have hwelcome := mem_idents_welcome (c := c.admitted role) (x := x) (hwf.admitted c.addr role e)
    (clientAt_admitted hc role e) e
  have hself : (c.admitted role).ident.givesWay c.addr c.name = false := by
    simp [Ident.givesWay, Client.admitted, Client.ident]
  refine hwelcome.trans ?_
  rw [mem_idents_updateClient hwf hc]
  constructor
  · rintro ⟨rfl | hx, hway⟩
    · exact .inl rfl
    · exact .inr ⟨hx, hway⟩
  · rintro (rfl | hx)
    · exact ⟨.inl rfl, hself⟩
    · exact ⟨.inr hx.1, hx.2⟩

theorem loopFrame_wellFormed (e : Env ρ) : LoopFrame e (ofInvariant WellFormed) :=
  DeskFrame.loop
    { act _ _ h hwf := hwf.shrink (shrinking_act h)
      register reg := ⟨fun _ hwf => hwf.brokerRegisterClient reg e⟩
      applied _ _ _ _ hwf := hwf.shrink (shrinking.refl _) }
    fun _ _ h hwf => hwf.shrink (shrinking_of_calm h)

end Smolmux.Broker
