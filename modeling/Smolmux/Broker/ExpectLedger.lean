import Smolmux.Broker.ExpectFlags
import Smolmux.Broker.Letters
import Smolmux.Broker.Roster
import Smolmux.Promises

/-! Every expect that is accepted is a promise of one result. It is kept when the table is
collected; it is given up without a result when the port is suspended, when another request
withdraws an expect of the same id, when its client goes, and when a call of the MCP sink
finds no slot. -/

namespace Smolmux.Broker
open Protocol Expect List

variable {ρ : Type}

/-- What is promised: a result under a number, to a client or to the MCP sink. -/
structure ExpectCard where
  ticket : Nat
  owner : Option Nat
  id : Bytes
  deadline : Rat

def cardOf (req : ExpectRequest ρ) : ExpectCard := ⟨req.ticket, req.owner, req.id, req.deadline⟩

def Event.excuses (owner : Option Nat) (id : Bytes) : Event → Bool
  | .resume (.interrupted _) => true
  | .expect (.withdrawn _ withdrawn) => withdrawn == id
  | .removed serial => owner == some serial
  | .mcp .full => owner == none
  | _ => false

def Event.isLate (deadline : Rat) : Event → Bool
  | .expect (.collected now count) => decide (deadline ≤ now) && decide (count < 16)
  | _ => false

def expectPromises : Promises Event ExpectCard (Option Nat) where
  made
    | .expect (.added ticket owner id deadline) => some ⟨ticket, owner, id, deadline⟩
    | _ => none
  kept
    | .expect (.result ticket owner _ _) => some (ticket, owner)
    | _ => none
  number := ExpectCard.ticket
  owner := ExpectCard.owner
  excuses c ev := ev.excuses c.owner c.id
  late c ev := ev.isLate c.deadline

def Houses (b : Broker ρ) (clientId : Bytes) : Option Nat → Prop
  | none => clientId = mcpClientId ∧ b.mcp.isSome = true
  | some serial => ∃ x ∈ b.idents, x.serial = serial ∧ x.id = clientId

variable {owner : Option Nat}

theorem Houses.congr {b b' : Broker ρ} (hidents : b'.idents = b.idents)
    (hsink : b'.mcp.isSome = b.mcp.isSome) {clientId : Bytes} (h : b.Houses clientId owner) : b'.Houses clientId owner := by
  cases owner with
  | none => exact ⟨h.1, hsink.trans h.2⟩
  | some serial =>
    unfold Broker.Houses
    rw [hidents]
    exact h

def Sends (ticket serial : Nat) (matched aborted : Bool) (after : List Event) : Prop :=
  ∃ (r : ExpectResult) (rest : List Event),
    (r.ticket = ticket ∧ r.isMatched = matched ∧ r.aborted = aborted) ∧
    after = .reply (.expect ticket) (expectResultMsg r) ::
      .sent serial false (expectResultMsg r) :: rest

/-- Every result for a client goes out at once, in a message to that client. -/
def Handed (trace : List Event) : Prop :=
  ∀ before ticket serial matched aborted after,
    trace = before ++ .expect (.result ticket (some serial) matched aborted) :: after →
    Sends ticket serial matched aborted after

theorem Handed.append {t u : List Event} (ht : Handed t) (hu : Handed u) : Handed (t ++ u) := by
  intro before ticket serial matched aborted after heq
  obtain ⟨mid, hold, rfl⟩ | ⟨mid, -, hnew⟩ := split_append heq
  · obtain ⟨r, rest, hr, rfl⟩ := ht before ticket serial matched aborted mid hold
    exact ⟨r, rest ++ u, hr, rfl⟩
  · exact hu mid ticket serial matched aborted after hnew

def labelOf (req : ExpectRequest ρ) : ExpectCard × Bytes := (cardOf req, req.clientId)

/-- The books about expects; `owed` are those that have left the table and whose results are
still to be delivered. -/
structure Books (owed : List (ExpectRequest ρ)) (b : Broker ρ) : Prop where
  roster : Roster b
  ledger : expectPromises.Ledger (owed.map cardOf) (b.expect.requests.map cardOf) b.expect.next
    b.trace
  homes : ∀ req ∈ owed ++ b.expect.requests, b.Houses req.clientId req.owner
  handed : Handed b.trace

def Event.isAside : Event → Bool
  | .expect (.added ..) | .expect (.result ..) | .expect (.collected ..) => false
  | _ => true

variable {ev : Event}

theorem untold_of_isAside (h : ev.isAside) :
    (expectPromises.made ev = none ∧ expectPromises.kept ev = none) ∧
      ∀ c, expectPromises.late c ev = false := by
  cases ev with
  | expect note =>
    cases note with
    | withdrawn => exact ⟨⟨rfl, rfl⟩, fun _ => rfl⟩
    | _ => cases h
  | _ => exact ⟨⟨rfl, rfl⟩, fun _ => rfl⟩

theorem isAside_of_sector (h : ev.sector ≠ some .expect) : ev.isAside := by
  cases ev with
  | expect note => exact absurd rfl h
  | _ => rfl

theorem handed_of_kept {evs : List Event} (h : ∀ ev ∈ evs, expectPromises.kept ev = none) :
    Handed evs := by
  rintro before ticket serial matched aborted after rfl
  cases h _ (mem_append_right _ mem_cons_self)

theorem handed_of_isAside {evs : List Event} (h : ∀ ev ∈ evs, ev.isAside) : Handed evs :=
  handed_of_kept fun ev hev => (untold_of_isAside (h ev hev)).1.2

theorem handed_cons {evs : List Event} {ticket : Nat} {matched aborted : Bool}
    (hevs : ∀ ev ∈ evs, ev.isAside)
    (h : ∀ serial, owner = some serial → Sends ticket serial matched aborted evs) :
    Handed (.expect (.result ticket owner matched aborted) :: evs) := by
  intro before ticket' serial matched' aborted' after heq
  cases before with
  | nil =>
    cases heq
    exact h serial rfl
  | cons _ before =>
    obtain ⟨-, rfl⟩ := cons.inj heq
    cases hevs _ (mem_append_right _ mem_cons_self)

theorem deliverExpectResult_other {r : ExpectResult} {b : Broker ρ} (hmcp : r.clientId ≠ mcpClientId)
    {e : Env ρ} : (deliverExpectResult r e b).2 = (deliverExpectResult.toOwner r b e b).2 := by
  rw [deliverExpectResult, Proc.bind_apply, Proc.get_apply]
  cases b.mcp with
  | none => rfl
  | some mcp => simp only [if_neg hmcp]

theorem deliverExpectResult_toOwner {r : ExpectResult} {b : Broker ρ} {c : Client}
    (hmcp : r.clientId ≠ mcpClientId) (hfind : b.clients.find? (·.id == r.clientId) = some c)
    (e : Env ρ) :
    (deliverExpectResult r e b).2 = (sendToClient c.addr (expectResultMsg r) e
      ((b.noted (.expect (.result r.ticket (some c.serial) r.isMatched r.aborted))).noted
        (.reply (.expect r.ticket) (expectResultMsg r)))).2 := by
  rw [deliverExpectResult_other hmcp, deliverExpectResult.toOwner, hfind]
  rfl

namespace Books

variable {owed : List (ExpectRequest ρ)} {b b' : Broker ρ} {req : ExpectRequest ρ}

variable {evs : List Event}

/-- Something happens aside: expects may go when they are excused, the others keep what is
known of them, and whoever they are for is still there. -/
theorem aside (h : Books owed b) (hroster : Roster b') (htrace : b'.trace = b.trace ++ evs)
    (hevs : ∀ ev ∈ evs, ev.isAside) (hnext : b'.expect.next = b.expect.next)
    (hsub : (b'.expect.requests.map cardOf).Subperm (b.expect.requests.map cardOf))
    (hgone : ∀ c ∈ b.expect.requests.map cardOf, c ∈ b'.expect.requests.map cardOf ∨
      expectPromises.Excused c (b.trace ++ evs))
    (hhomes : ∀ req ∈ owed ++ b'.expect.requests, b'.Houses req.clientId req.owner) :
    Books owed b' := by
  refine ⟨hroster, ?_, hhomes, ?_⟩
  · rw [htrace, hnext]
    refine h.ledger.drop (fun ev hev => (untold_of_isAside (hevs ev hev)).1) (List.Subset.refl _)
      ((subperm_append_left _).mpr hsub) (fun c _ ev hev => (untold_of_isAside (hevs ev hev)).2 c) ?_
    exact fun c hc => (hgone c hc).imp_left (mem_append_right _)
  · rw [htrace]
    exact h.handed.append (handed_of_isAside hevs)

theorem still (h : Books owed b) (hroster : Roster b') (htrace : b'.trace = b.trace ++ evs)
    (hevs : ∀ ev ∈ evs, ev.isAside) (hnext : b'.expect.next = b.expect.next)
    (hlabels : b'.expect.requests.map labelOf = b.expect.requests.map labelOf)
    (hhouses : ∀ clientId owner, b.Houses clientId owner → b'.Houses clientId owner) :
    Books owed b' := by
  have hcards : b'.expect.requests.map cardOf = b.expect.requests.map cardOf := by
    have hfst := congrArg (List.map Prod.fst) hlabels
    rwa [map_map, map_map] at hfst
  refine h.aside hroster htrace hevs hnext (hcards ▸ .refl _) (fun c hc => .inl (hcards ▸ hc))
    fun req hreq => ?_
  cases mem_append.mp hreq with
  | inl hreq => exact hhouses _ _ (h.homes req (mem_append_left _ hreq))
  | inr hreq =>
    have hlabel : labelOf req ∈ b.expect.requests.map labelOf := hlabels ▸ mem_map_of_mem hreq
    obtain ⟨old, hold, heq⟩ := mem_map.mp hlabel
    have hclient : old.clientId = req.clientId := congrArg Prod.snd heq
    have howner : old.owner = req.owner := congrArg (ExpectCard.owner ∘ Prod.fst) heq
    rw [← hclient, ← howner]
    exact hhouses _ _ (h.homes old (mem_append_right _ hold))

theorem noted (h : Books owed b) {ev : Event} (hev : ev.isAside) : Books owed (b.noted ev) := by
  have htrace : (b.noted ev).trace = b.trace ++ [ev] := rfl
  exact h.still (h.roster.of_idents rfl rfl ⟨rfl, rfl⟩) htrace (by simpa using hev) rfl rfl
    fun _ _ hhouse => hhouse.congr rfl rfl

theorem relabelled (h : Books owed b) (queries : Nat) (eng : ExpectEngine ρ)
    (hnext : eng.next = b.expect.next)
    (hlabels : eng.requests.map labelOf = b.expect.requests.map labelOf) :
    Books owed { b with queries := queries, expect := eng } :=
  h.still (h.roster.of_idents rfl rfl ⟨rfl, rfl⟩) (append_nil _).symm (forall_mem_nil _)
    hnext hlabels fun _ _ hhouse => hhouse.congr rfl rfl

theorem moves (h : Books owed b) {S : Sector → Bool} (hS : S .expect = false)
    (hmoves : Moves S b b') : Books owed b' := by
  obtain ⟨evs, htrace, hevs⟩ := hmoves.calm.trace
  have hexpect : b'.expect = b.expect := hmoves.part .expect hS
  refine h.still (h.roster.of_idents hmoves.calm.idents hmoves.calm.registrations hmoves.numbers)
    htrace (fun ev hev => isAside_of_sector fun hsector => ?_) (hexpect ▸ rfl) (hexpect ▸ rfl)
    fun _ _ hhouse => hhouse.congr hmoves.calm.idents hmoves.sink
  have htouched := (hevs ev hev).2 .expect hsector
  rw [hS] at htouched
  cases htouched

theorem register (h : Books [] b) (reg : Registration) (e : Env ρ)
    (hattempts : (brokerRegisterClient reg e b).2.attempts ≤ 2 ^ 32) :
    Books [] (brokerRegisterClient reg e b).2 := by
  have hroster := h.roster.register reg e hattempts
  obtain heq | heq | heq := brokerRegisterClient_eq reg e b
  · rw [heq]
    exact h
  · rw [heq] at hroster ⊢
    exact h.still hroster (append_nil _).symm (forall_mem_nil _) rfl rfl
      fun _ _ hhouse => hhouse.congr rfl rfl
  · rw [heq] at hroster ⊢
    refine h.still hroster rfl (by simp [Event.isAside]) rfl rfl fun clientId owner hhouse => ?_
    cases owner with
    | none => exact hhouse
    | some serial =>
      obtain ⟨x, hx, hsame⟩ := hhouse
      refine ⟨x, ?_, hsame⟩
      rw [Broker.idents, Broker.joined, Broker.noted, map_append]
      exact mem_append_left _ hx

theorem updateClient (h : Books [] b) (a : Addr) {f : Client → Client}
    (hf : ∀ c, (f c).ident.key = c.ident.key ∧ (f c).id = c.id) (e : Env ρ) :
    Books [] (Broker.updateClient a f e b).2 := by
  refine h.still (h.roster.updateClient a hf e) (append_nil _).symm
    (forall_mem_nil _) rfl rfl fun clientId owner hhouse => ?_
  cases owner with
  | none => exact hhouse
  | some serial =>
    obtain ⟨x, hx, hserial, hid⟩ := hhouse
    obtain ⟨c, hc, rfl⟩ := mem_map.mp hx
    have hmem : (if c.addr = a then f c else c) ∈ (Broker.updateClient a f e b).2.clients :=
      mem_map.mpr ⟨c, hc, rfl⟩
    refine ⟨_, mem_map_of_mem hmem, ?_, ?_⟩
    · split_ifs
      · exact (congrArg Prod.snd (hf c).1).trans hserial
      · exact hserial
    · split_ifs
      · exact (hf c).2.trans hid
      · exact hid

theorem excused (hevs : ∀ ev ∈ evs, ev.isAside) {ev : Event} (hev : ev ∈ evs)
    (hexcuses : ev.excuses req.owner req.id) (trace : List Event) :
    expectPromises.Excused (cardOf req) (trace ++ evs) :=
  Promises.excused_append (fun ev hev => (untold_of_isAside (hevs ev hev)).1.1) hev hexcuses

theorem owner_of_id (h : Books [] b) (hreq : req ∈ b.expect.requests) {x : Ident}
    (hx : x ∈ b.idents) (hid : req.clientId = x.id) : req.owner = some x.serial := by
  have hhouse := h.homes req hreq
  cases howner : req.owner with
  | none =>
    rw [howner] at hhouse
    exact absurd (hid.symm.trans hhouse.1) (h.roster.id_ne_mcp hx)
  | some serial =>
    rw [howner] at hhouse
    obtain ⟨y, hy, hserial, hyid⟩ := hhouse
    rw [← hserial, h.roster.eq_of_id hy hx (hyid.trans hid)]

theorem owner_of_mcp (h : Books [] b) (hreq : req ∈ b.expect.requests)
    (hid : req.clientId = mcpClientId) : req.owner = none := by
  have hhouse := h.homes req hreq
  cases howner : req.owner with
  | none => rfl
  | some serial =>
    rw [howner] at hhouse
    obtain ⟨y, hy, -, hyid⟩ := hhouse
    exact absurd (hyid.trans hid) (h.roster.id_ne_mcp hy)

theorem sweep (h : Books [] b) (hroster : Roster b') (htrace : b'.trace = b.trace ++ evs)
    (hevs : ∀ ev ∈ evs, ev.isAside) (hnext : b'.expect.next = b.expect.next)
    {gone : ExpectRequest ρ → Bool}
    (hrequests : b'.expect.requests = Smolmux.sweep gone b.expect.requests)
    (hgone : ∀ req ∈ b.expect.requests, gone req →
      expectPromises.Excused (cardOf req) (b.trace ++ evs))
    (hhomes : ∀ req ∈ b.expect.requests, gone req = false → b'.Houses req.clientId req.owner) :
    Books [] b' := by
  refine h.aside hroster htrace hevs hnext ?_ (fun c hc => ?_) fun req hreq => ?_
  · rw [hrequests]
    obtain ⟨kept, hperm, hsub⟩ := sweep_subperm gone b.expect.requests
    exact ⟨kept.map cardOf, hperm.map cardOf, hsub.map cardOf⟩
  · obtain ⟨req, hreq, rfl⟩ := mem_map.mp hc
    cases hreqgone : gone req with
    | true => exact .inr (hgone req hreq hreqgone)
    | false =>
      rw [hrequests]
      exact .inl (mem_map_of_mem (mem_sweep.mpr ⟨hreq, hreqgone⟩))
  · rw [hrequests] at hreq
    obtain ⟨hreq, hkept⟩ := mem_sweep.mp hreq
    exact hhomes req hreq hkept

theorem removeClient (h : Books [] b) (a : Addr) (e : Env ρ) :
    Books [] (Broker.removeClient a e b).2 := by
  have hroster := h.roster.removeClient a e
  cases hc : b.clientAt a with
  | none =>
    rw [removeClient_none hc]
    exact h
  | some c =>
    have hmem : c.ident ∈ b.idents := ident_mem hc
    have hidents : ∀ {x : Ident}, x ∈ (Broker.removeClient a e b).2.idents ↔
        x ∈ b.idents ∧ x.addr ≠ a := mem_idents_removeClient h.roster.wf a e
    rw [removeClient_some hc] at hroster hidents ⊢
    have haside : ∀ ev ∈ [Event.removed c.serial], ev.isAside := by simp [Event.isAside]
    refine h.sweep hroster rfl haside rfl rfl (fun req hreq hgone => ?_) fun req hreq hkept => ?_
    · refine excused haside mem_cons_self ?_ _
      have hid : req.clientId = c.ident.id := eq_of_beq hgone
      rw [h.owner_of_id hreq hmem hid]
      exact beq_self_eq_true _
    · have hhouse := h.homes req hreq
      cases howner : req.owner with
      | none =>
        rw [howner] at hhouse
        exact hhouse
      | some serial =>
        rw [howner] at hhouse
        obtain ⟨x, hx, hserial, hid⟩ := hhouse
        refine ⟨x, hidents.mpr ⟨hx, fun haddr => ?_⟩, hserial, hid⟩
        -- the client that goes has another id
        have hsame : x = c.ident :=
          h.roster.wf.ident_eq_of_addr hx hmem (haddr.trans (addr_of_clientAt hc).symm)
        have hid : req.clientId = c.id := hid.symm.trans (hsame ▸ rfl)
        exact absurd hid (ne_of_beq_false hkept)

theorem cancelExpect (h : Books [] b) (id : Bytes) (e : Env ρ) :
    Books [] (Broker.cancelExpect id e b).2 := by
  let ev : Event := .expect (.withdrawn (b.expect.next - 1) id)
  have haside : ∀ x ∈ [ev], x.isAside := by simp [ev, Event.isAside]
  have htrace : (Broker.cancelExpect id e b).2.trace = b.trace ++ [ev] := rfl
  refine h.sweep (h.roster.of_idents rfl rfl ⟨rfl, rfl⟩) htrace haside rfl rfl
    (fun req hreq hgone => excused haside mem_cons_self ?_ _)
    fun req hreq _ => (h.homes req hreq).congr rfl rfl
  have hid : req.id = id := eq_of_beq hgone
  exact hid ▸ beq_self_eq_true _

theorem cancelMcpExpects (h : Books [] b) (hfull : b.trace.getLast? = some (.mcp .full)) :
    Books [] { b with expect := expectCancelClient b.expect mcpClientId } := by
  obtain ⟨told, htold⟩ := getLast?_eq_some_iff.mp hfull
  refine h.sweep (h.roster.of_idents rfl rfl ⟨rfl, rfl⟩) (append_nil _).symm
    (forall_mem_nil _) rfl rfl (fun req hreq hgone => ?_)
    fun req hreq _ => (h.homes req hreq).congr rfl rfl
  -- there was no slot after the promise was made
  rw [append_nil, htold]
  refine excused (by simp [Event.isAside]) mem_cons_self ?_ _
  rw [h.owner_of_mcp hreq (eq_of_beq hgone)]
  rfl

theorem linkSuspend (h : Books [] b) (e : Env ρ) : Books [] (Broker.linkSuspend e b).2 := by
  have h₁ : Books [] (unwatchLink e b).2 :=
    h.moves (S := (· == .wire)) rfl ((moves_unwatchLink rfl).rel e b)
  generalize hb₁ : (unwatchLink e b).2 = b₁ at h₁
  let b₂ : Broker ρ :=
    { b₁.noted (.resume (.interrupted b₁.pendingResumeAck)) with
      expect := expectCancelAll b₁.expect
      suspended := true
      linkConnecting := false }
  have h₂ : Books [] b₂ := by
    have haside : ∀ ev ∈ [Event.resume (.interrupted b₁.pendingResumeAck)], ev.isAside := by
      simp [Event.isAside]
    refine h₁.aside (h₁.roster.of_idents rfl rfl ⟨rfl, rfl⟩) rfl haside rfl nil_subperm
      (fun c hc => .inr ?_) (forall_mem_nil _)
    obtain ⟨req, hreq, rfl⟩ := mem_map.mp hc
    exact excused haside mem_cons_self rfl _
  have heq : (Broker.linkSuspend e b).2 = (callLink .closeLink e b₂).2 := by
    rw [Broker.linkSuspend, Proc.bind_apply, hb₁]
    rfl
  rw [heq]
  exact h₂.moves (S := (· == .wire)) rfl ((moves_callLink _ rfl).rel e b₂)

theorem houses_of_ready (h : Books [] b) {id pattern clientId : Bytes} {timeoutS : Rat}
    {owner : Option Nat} (hready : (Op.addExpect id pattern timeoutS clientId owner).Ready b) :
    b.Houses (stored 32 clientId) owner := by
  cases owner with
  | none =>
    obtain ⟨rfl, hsink⟩ := hready
    exact ⟨rfl, hsink⟩
  | some serial =>
    obtain ⟨x, hx, rfl, hserial⟩ := hready
    exact ⟨x, hx, hserial, (h.roster.stored_id hx).symm⟩

theorem addExpect (h : Books [] b) {id pattern clientId : Bytes} {timeoutS : Rat}
    {owner : Option Nat} (hready : (Op.addExpect id pattern timeoutS clientId owner).Ready b)
    (e : Env ρ) : Books [] (Broker.addExpect id pattern timeoutS clientId owner e b).2 := by
  have hhouse := h.houses_of_ready hready
  have hadds := addsExpect_addExpect id pattern timeoutS clientId owner e b
  generalize Broker.addExpect id pattern timeoutS clientId owner e b = r at hadds ⊢
  cases hadds with
  | refused hrequests hnext err => exact h.relabelled _ _ hnext (hrequests ▸ rfl)
  | @added eng deadline _ compiled hrequests hnext =>
    refine noted ?_ rfl
    let ev : Event := .expect (.added b.expect.next owner (stored 64 id) deadline)
    let c : ExpectCard := ⟨b.expect.next, owner, stored 64 id, deadline⟩
    have hcards : eng.requests.map cardOf = b.expect.requests.map cardOf ++ [c] := by
      rw [hrequests, map_append]
      rfl
    refine ⟨h.roster.of_idents rfl rfl ⟨rfl, rfl⟩, ?_, fun req hreq => ?_, ?_⟩
    · change expectPromises.Ledger [] (eng.requests.map cardOf) eng.next (b.trace ++ [ev])
      rw [hcards, hnext]
      exact h.ledger.make ⟨rfl, rfl⟩ rfl fun _ _ => rfl
    · change req ∈ eng.requests at hreq
      rw [hrequests] at hreq
      cases mem_append.mp hreq with
      | inl hreq => exact (h.homes req hreq).congr rfl rfl
      | inr hreq =>
        rw [mem_singleton.mp hreq]
        exact hhouse.congr rfl rfl
    · have hkept : ∀ x ∈ [ev], expectPromises.kept x = none := by simp [ev, expectPromises]
      exact h.handed.append (handed_of_kept hkept)

theorem collected (h : Books [] b) {done left : List (ExpectRequest ρ)} {now : Rat}
    (hperm : (done ++ left).Perm b.expect.requests)
    (hleft : done.length < 16 → ∀ req ∈ left, requestDone now req = false) :
    Books done (b.collected now done.length left) := by
  let ev : Event := .expect (.collected now done.length)
  have hquiet : ∀ x ∈ [ev], expectPromises.made x = none ∧ expectPromises.kept x = none := by
    simp [ev, expectPromises]
  have hcards := hperm.map cardOf
  rw [map_append] at hcards
  refine ⟨h.roster.of_idents rfl rfl ⟨rfl, rfl⟩, h.ledger.drop hquiet (List.nil_subset _)
    hcards.subperm (fun c hc x hx => ?_) fun c hc => .inl (hcards.mem_iff.mpr hc),
    fun req hreq => (h.homes req (hperm.mem_iff.mp hreq)).congr rfl rfl,
    h.handed.append (handed_of_kept fun x hx => (hquiet x hx).2)⟩
  rw [mem_singleton.mp hx]
  obtain ⟨req, hreq, rfl⟩ := mem_map.mp hc
  change (decide (req.deadline ≤ now) && decide (done.length < 16)) = false
  by_cases hroom : done.length < 16
  · have hwaits := hleft hroom req hreq
    simp only [requestDone, Bool.or_eq_false_iff] at hwaits
    rw [hwaits.2, Bool.false_and]
  · simp [hroom]

theorem pay (h : Books (req :: owed) b) (hroster : Roster b') {matched aborted : Bool}
    (htrace : b'.trace = b.trace ++ .expect (.result req.ticket req.owner matched aborted) :: evs)
    (hevs : ∀ ev ∈ evs, ev.isAside) (hexpect : b'.expect = b.expect)
    (hidents : b'.idents = b.idents) (hsink : b'.mcp.isSome = b.mcp.isSome)
    (hhanded : ∀ serial, req.owner = some serial → Sends req.ticket serial matched aborted evs) :
    Books owed b' := by
  refine ⟨hroster, ?_, fun x hx => ?_, ?_⟩
  · have hkept : expectPromises.Ledger (owed.map cardOf) (b.expect.requests.map cardOf)
        b.expect.next (b.trace ++ [.expect (.result req.ticket req.owner matched aborted)]) :=
      h.ledger.keep ⟨rfl, rfl⟩ fun _ _ => rfl
    rw [htrace, hexpect, append_cons]
    exact hkept.quiet (fun ev hev => (untold_of_isAside (hevs ev hev)).1)
      fun c _ ev hev => (untold_of_isAside (hevs ev hev)).2 c
  · rw [hexpect] at hx
    exact (h.homes x (mem_cons_of_mem _ hx)).congr hidents hsink
  · rw [htrace]
    exact h.handed.append (handed_cons hevs hhanded)

theorem deliverToSink (h : Books (req :: owed) b) (howner : req.owner = none) (e : Env ρ) :
    Books owed (deliverExpectResult (resultOf req) e b).2 := by
  obtain ⟨hid, hsink⟩ : b.Houses req.clientId none := howner ▸ h.homes req mem_cons_self
  obtain ⟨mcp, hmcp⟩ := Option.isSome_iff_exists.mp hsink
  have hclient : (resultOf req).clientId = mcpClientId := congrArg (stored 32) hid
  let b₁ := b.noted (.expect (.result req.ticket none req.matched req.aborted))
  have h₁ : Books owed b₁ := by
    have htrace : b₁.trace = b.trace ++
        [.expect (.result req.ticket req.owner req.matched req.aborted)] := by rw [howner]; rfl
    refine h.pay (h.roster.of_idents rfl rfl ⟨rfl, rfl⟩) htrace (forall_mem_nil _) rfl rfl rfl
      fun serial hserial => ?_
    cases howner.symm.trans hserial
  have heq : (deliverExpectResult (resultOf req) e b).2 =
      (mcpOnExpectResult mcp (resultOf req) e b₁).2 := by
    rw [deliverExpectResult, Proc.bind_apply, Proc.get_apply, hmcp]
    simp only [if_pos hclient]
    rfl
  rw [heq]
  exact h₁.moves (S := (· == .calls)) rfl ((moves_mcpOnExpectResult rfl ..).rel e b₁)

theorem deliverToClient (h : Books (req :: owed) b) {serial : Nat} (howner : req.owner = some serial)
    (e : Env ρ) : Books owed (deliverExpectResult (resultOf req) e b).2 := by
  obtain ⟨x, hx, hserial, hid⟩ : b.Houses req.clientId (some serial) :=
    howner ▸ h.homes req mem_cons_self
  have hclient : (resultOf req).clientId = x.id :=
    (congrArg (stored 32) hid.symm).trans (h.roster.stored_id hx)
  obtain ⟨c, hc, hfind⟩ : ∃ c, c.ident = x ∧
      b.clients.find? (·.id == (resultOf req).clientId) = some c := by
    cases hfound : b.clients.find? (·.id == (resultOf req).clientId) with
    | none =>
      obtain ⟨c, hc, rfl⟩ := mem_map.mp hx
      have hother : ¬ c.id = (resultOf req).clientId := by
        simpa using find?_eq_none.mp hfound c hc
      exact absurd hclient.symm hother
    | some c =>
      have hcid : c.id = (resultOf req).clientId := by simpa using find?_some hfound
      have hmem : c.ident ∈ b.idents := mem_map_of_mem (mem_of_find?_eq_some hfound)
      exact ⟨c, h.roster.eq_of_id hmem hx (hcid.trans hclient), rfl⟩
  have hcserial : c.serial = serial := (congrArg Ident.serial hc).trans hserial
  have hmem := mem_of_find?_eq_some hfind
  rw [deliverExpectResult_toOwner (hclient ▸ h.roster.id_ne_mcp hx) hfind e]
  let msg := expectResultMsg (resultOf req)
  let b₁ := (b.noted (.expect (.result req.ticket (some c.serial) req.matched req.aborted))).noted
    (.reply (.expect req.ticket) msg)
  have hat : b₁.clientAt c.addr = some c := h.roster.wf.clientAt_of_mem hmem
  have hplain : plain.rel b₁ (sendToClient c.addr msg e b₁).2 :=
    (plain_sendToClient c.addr msg).rel e b₁
  have htrace : (sendToClient c.addr msg e b₁).2.trace = b.trace ++
      [.expect (.result req.ticket req.owner req.matched req.aborted),
        .reply (.expect req.ticket) msg, .sent c.serial false msg] := by
    rw [trace_sendToClient hat msg e, howner, ← hcserial]
    simp [b₁, Broker.noted]
  refine h.pay (h.roster.of_idents hplain.calm.idents hplain.calm.registrations hplain.numbers)
    htrace (by simp [Event.isAside]) (hplain.part .expect rfl) hplain.calm.idents hplain.sink
    fun serial' hserial' => ?_
  cases howner.symm.trans hserial'
  exact ⟨resultOf req, [], ⟨rfl, rfl, rfl⟩, by rw [hcserial]⟩

theorem deliver (h : Books (req :: owed) b) (e : Env ρ) :
    Books owed (deliverExpectResult (resultOf req) e b).2 := by
  cases howner : req.owner with
  | none => exact h.deliverToSink howner e
  | some serial => exact h.deliverToClient howner e

theorem deliverAll (h : Books owed b) (e : Env ρ) :
    Books [] (Proc.each deliverExpectResult (owed.map resultOf) e b).2 := by
  induction owed generalizing b with
  | nil => exact h
  | cons req owed ih => exact ih (h.deliver e)

theorem processExpectResults (h : Books [] b) (e : Env ρ) :
    Books [] (Broker.processExpectResults e b).2 := by
  obtain ⟨done, hperm, hleft, heq⟩ := processExpectResults_eq e b
  rw [heq]
  exact (h.collected hperm hleft).deliverAll e

theorem mapped (h : Books [] b) {f : ExpectRequest ρ → ExpectRequest ρ}
    (hf : ∀ req, labelOf (f req) = labelOf req) :
    Books [] { b with expect := { b.expect with requests := b.expect.requests.map f } } := by
  have hlabels : (b.expect.requests.map f).map labelOf = b.expect.requests.map labelOf := by
    rw [map_map]
    exact map_congr_left fun req _ => hf req
  exact h.relabelled b.queries { b.expect with requests := b.expect.requests.map f } rfl hlabels

theorem label_feedRequest (regex : Regex ρ) (data : Bytes) (req : ExpectRequest ρ) :
    labelOf (feedRequest regex data req) = labelOf req := by
  unfold feedRequest
  split <;> rfl

theorem label_abortRequest (reason patternName : Bytes) (req : ExpectRequest ρ) :
    labelOf (abortRequest reason patternName req) = labelOf req := by
  unfold abortRequest
  split <;> rfl

theorem run (h : Books [] b) (op : Op) (hready : op.Ready b) (e : Env ρ) :
    Books [] (op.run e b) := by
  by_cases htouches : op.touches .expect = false
  · exact h.moves htouches (moves_run op e b)
  · cases op with
    | addExpect id pattern timeoutS clientId owner => exact h.addExpect hready e
    | cancelExpect id owner => exact h.cancelExpect id e
    | cancelMcpExpects => exact h.cancelMcpExpects hready
    | feedExpects buf => exact h.mapped (label_feedRequest e.regex buf)
    | endExpects reason patternName =>
      exact (h.mapped (label_abortRequest reason patternName)).processExpectResults e
    | collectExpects => exact h.processExpectResults e
    | suspend => exact (h.moves rfl ((moves_stallDisarm (S := (· == .boot)) rfl).rel e b)).linkSuspend e
    | _ => exact absurd rfl htouches

end Books

def booking : Frame (Broker ρ) where
  rel b b' := b.attempts ≤ b'.attempts ∧ (b'.attempts ≤ 2 ^ 32 → Books [] b → Books [] b')
  refl _ := ⟨Nat.le_refl _, fun _ h => h⟩
  trans h h' := ⟨h.1.trans h'.1, fun hbound hb => h'.2 hbound (h.2 (h'.1.trans hbound) hb)⟩

theorem booking_of_books {b b' : Broker ρ} (hattempts : b'.attempts = b.attempts)
    (h : Books [] b → Books [] b') : booking.rel b b' := ⟨Nat.le_of_eq hattempts.symm, fun _ => h⟩

theorem booking_of_moves {S : Sector → Bool} (hS : S .expect = false) {b b' : Broker ρ}
    (h : Moves S b b') : booking.rel b b' := booking_of_books h.numbers.2 fun hb => hb.moves hS h

theorem booking_register (reg : Registration) (e : Env ρ) :
    booking.KeepsAt e (brokerRegisterClient reg) := by
  refine ⟨fun b => ⟨?_, fun hbound hb => hb.register reg e hbound⟩⟩
  obtain heq | heq | heq := brokerRegisterClient_eq reg e b
  · rw [heq]
  · rw [heq]
    exact Nat.le_succ _
  · rw [heq]
    exact Nat.le_succ _

theorem booking_removeClient (a : Addr) (e : Env ρ) : booking.KeepsAt e (removeClient a) := by
  refine ⟨fun b => booking_of_books ?_ fun hb => hb.removeClient a e⟩
  cases hc : b.clientAt a with
  | none => rw [removeClient_none hc]
  | some c =>
    rw [removeClient_some hc]
    rfl

theorem loopFrame_booking (e : Env ρ) : LoopFrame e booking where
  toTurnFrame := turnFrame_of_clients
    (fun S b b' hapart hmoves => booking_of_moves (expect_of_apart hapart) hmoves)
    (fun b ev hev => booking_of_books rfl fun hb => hb.noted (isAside_of_sector (hev ▸ nofun)))
    (fun reg => booking_register reg e)
    (fun a f hf => ⟨fun b => booking_of_books rfl fun hb => hb.updateClient a hf e⟩)
    (fun a => booking_removeClient a e)
    (fun b holder => booking_of_books rfl fun hb => hb.still (hb.roster.of_idents rfl rfl ⟨rfl, rfl⟩)
      (append_nil _).symm (forall_mem_nil _) rfl rfl fun _ _ hhouse => hhouse.congr rfl rfl)
    fun op b _ _ hready => booking_of_books (moves_run op e b).numbers.2 fun hb => hb.run op hready e
  stop := ⟨fun b => booking_of_moves (S := (· == .flood)) rfl ((moves_updateFlood rfl _).rel e b)⟩
  replug b := booking_of_moves rfl (moves_replugged b)

theorem books_init (regex : Regex ρ) (cfg : Config) : Books [] (brokerInit regex cfg) where
  roster := Roster.init regex cfg
  ledger := Promises.Ledger.empty
  homes := forall_mem_nil _
  handed := handed_of_kept (forall_mem_nil _)

theorem books_run (e : Env ρ) (regex : Regex ρ) (cfg : Config) (steps : List Step)
    (h : (runSteps e (brokerInit regex cfg) steps).attempts ≤ 2 ^ 32) :
    Books [] (runSteps e (brokerInit regex cfg) steps) :=
  ((loopFrame_booking e).runSteps _ steps).2 h (books_init regex cfg)

def Event.isResultOf (ticket : Nat) : Event → Bool
  | .expect (.result told _ _ _) => told == ticket
  | _ => false

variable {ticket : Nat}

theorem kept_of_isResultOf (h : ev.isResultOf ticket) :
    ∃ owner, expectPromises.kept ev = some (ticket, owner) := by
  unfold Event.isResultOf at h
  split at h
  · exact ⟨_, by rw [← eq_of_beq h]; rfl⟩
  · cases h

theorem result_of_kept (h : expectPromises.kept ev = some (ticket, owner)) :
    ∃ matched aborted, ev = .expect (.result ticket owner matched aborted) := by
  simp only [expectPromises] at h
  split at h
  · cases h
    exact ⟨_, _, rfl⟩
  · cases h

theorem Books.result_apart {owed : List (ExpectRequest ρ)} {b : Broker ρ} (h : Books owed b)
    {before after : List Event} {matched aborted : Bool}
    (htrace : b.trace = before ++ .expect (.result ticket owner matched aborted) :: after) :
    ∀ ev ∈ before ++ after, ev.isResultOf ticket = false := by
  intro ev hev
  by_contra hresult
  obtain ⟨other, hkept⟩ := kept_of_isResultOf (Bool.eq_true_of_not_eq_false hresult)
  exact (htrace ▸ h.ledger).kept_apart rfl ev hev _ hkept rfl

/-- An expect that is accepted and not given up has exactly one result once a collection of
the table that ran out of expects was made after its deadline. The result is for the one that
asked, and a client is sent it in a message at once. -/
theorem expect_has_one_result (e : Env ρ) (regex : Regex ρ) (cfg : Config) (steps : List Step)
    {before after : List Event} {ticket : Nat} {owner : Option Nat} {id : Bytes} {deadline : Rat}
    (hclients : (runSteps e (brokerInit regex cfg) steps).attempts ≤ 2 ^ 32)
    (htrace : (runSteps e (brokerInit regex cfg) steps).trace =
      before ++ .expect (.added ticket owner id deadline) :: after)
    (hexcused : ∀ ev ∈ after, ev.excuses owner id = false)
    (hlate : ∃ ev ∈ after, ev.isLate deadline = true) :
    ∃ told matched aborted rest,
      after = told ++ .expect (.result ticket owner matched aborted) :: rest ∧
      (∀ ev ∈ before ++ told ++ rest, ev.isResultOf ticket = false) ∧
      ∀ serial, owner = some serial → ∃ (r : ExpectResult) (later : List Event),
        (r.ticket = ticket ∧ r.isMatched = matched ∧ r.aborted = aborted) ∧
        rest = .reply (.expect ticket) (expectResultMsg r) ::
          .sent serial false (expectResultMsg r) :: later := by
  have hbooks := books_run e regex cfg steps hclients
  generalize runSteps e (brokerInit regex cfg) steps = b at hclients htrace hbooks
  have hmade : expectPromises.made (.expect (.added ticket owner id deadline)) =
      some ⟨ticket, owner, id, deadline⟩ := rfl
  obtain ⟨ev, hev, hkept⟩ : ∃ ev ∈ after, expectPromises.kept ev = some (ticket, owner) :=
    (htrace ▸ hbooks.ledger).kept_of_late hmade hexcused hlate
  obtain ⟨matched, aborted, rfl⟩ := result_of_kept hkept
  obtain ⟨told, rest, rfl⟩ := append_of_mem hev
  have hsplit : b.trace = (before ++ .expect (.added ticket owner id deadline) :: told) ++
      .expect (.result ticket owner matched aborted) :: rest := by
    simp [htrace]
  refine ⟨told, matched, aborted, rest, rfl, fun ev hev => ?_, ?_⟩
  · refine hbooks.result_apart hsplit ev ?_
    simp only [append_assoc, mem_append] at hev ⊢
    exact hev.imp_right fun h => h.imp_left (mem_cons_of_mem _)
  · rintro serial rfl
    exact hbooks.handed _ ticket serial matched aborted rest hsplit

theorem added_of_made {c : ExpectCard} (h : expectPromises.made ev = some c) :
    ev = .expect (.added c.ticket c.owner c.id c.deadline) := by
  simp only [expectPromises] at h
  split at h
  · cases h
    rfl
  · cases h

def acceptedThen (p : ExpectCard → List Event → Bool) : List Event → Bool
  | [] => false
  | ev :: evs => (expectPromises.made ev).any (p · evs) || acceptedThen p evs

theorem exists_of_acceptedThen {p : ExpectCard → List Event → Bool} {t : List Event}
    (h : acceptedThen p t) :
    ∃ before c after, t = before ++ .expect (.added c.ticket c.owner c.id c.deadline) :: after ∧
      p c after := by
  induction t with
  | nil => cases h
  | cons ev evs ih =>
    rw [acceptedThen, Bool.or_eq_true] at h
    cases h with
    | inl h =>
      cases hmade : expectPromises.made ev with
      | none =>
        rw [hmade] at h
        cases h
      | some c =>
        rw [hmade] at h
        exact ⟨[], c, evs, by rw [added_of_made hmade]; rfl, h⟩
    | inr h =>
      obtain ⟨before, c, after, rfl, hp⟩ := ih h
      exact ⟨ev :: before, c, after, rfl, hp⟩

def waitMsg : Msg :=
  ⟨.listenExpect, some (.obj [("id", .str (ascii "boot")), ("pattern", .str (ascii "login:")),
    ("timeout_ms", .num 100)])⟩

def waitSteps (steps : List Step) : List Step :=
  [.event (.listen (plainReg 1)), .message 1 (helloMsg "a" []), .message 1 waitMsg] ++ steps

/-- While the numbers of clients have not come round, no two clients have one id, and every
expect that waits is for a client that is there under the id, or for the sink. -/
theorem expects_have_homes (e : Env ρ) (regex : Regex ρ) (cfg : Config) (steps : List Step)
    (h : (runSteps e (brokerInit regex cfg) steps).attempts ≤ 2 ^ 32) :
    let b := runSteps e (brokerInit regex cfg) steps
    (∀ c ∈ b.clients, ∀ d ∈ b.clients, c.id = d.id → c = d) ∧
      ∀ req ∈ b.expect.requests, b.Houses req.clientId req.owner := by
  have hbooks := books_run e regex cfg steps h
  refine ⟨fun c hc d hd hid => ?_, hbooks.homes⟩
  have hsame := hbooks.roster.eq_of_id (mem_map_of_mem hc) (mem_map_of_mem hd) hid
  exact hbooks.roster.wf.eq_of_addr hc hd (congrArg Ident.addr hsame)

theorem expects_have_homes_waiting :
    let b := runSteps wordEnv (brokerInit wordRegex (plainConfig [])) (waitSteps [])
    b.expect.requests.length = 1 ∧ ∀ req ∈ b.expect.requests, b.Houses req.clientId req.owner :=
  ⟨by decide +kernel, (expects_have_homes wordEnv wordRegex _ _ (by decide +kernel)).2⟩

def ExpectCard.isOverdue (c : ExpectCard) (after : List Event) : Bool :=
  after.all (fun ev => !ev.excuses c.owner c.id) && after.any (·.isLate c.deadline)

theorem expect_has_one_result_timeout :
    let b := runSteps wordEnv (brokerInit wordRegex (plainConfig [])) (waitSteps [.startTurn])
    ∃ (before : List Event) (c : ExpectCard) (after : List Event),
      b.trace = before ++ .expect (.added c.ticket c.owner c.id c.deadline) :: after ∧
      ∃ told matched aborted rest,
        after = told ++ .expect (.result c.ticket c.owner matched aborted) :: rest ∧
        ∀ ev ∈ before ++ told ++ rest, ev.isResultOf c.ticket = false := by
  intro b
  have hoverdue : acceptedThen ExpectCard.isOverdue b.trace = true := by decide +kernel
  obtain ⟨before, c, after, htrace, hoverdue⟩ := exists_of_acceptedThen hoverdue
  simp only [ExpectCard.isOverdue, Bool.and_eq_true, all_eq_true, any_eq_true,
    Bool.not_eq_true'] at hoverdue
  obtain ⟨told, matched, aborted, rest, hafter, honce, -⟩ :=
    expect_has_one_result wordEnv wordRegex (plainConfig []) (waitSteps [.startTurn])
      (by decide +kernel) htrace hoverdue.1 hoverdue.2
  exact ⟨before, c, after, htrace, told, matched, aborted, rest, hafter, honce⟩

/-- A client waits for a login when the port is suspended: it stays connected, its time goes
by, and it is told nothing. -/
theorem suspended_expect_has_no_result :
    let b := runSteps wordEnv (brokerInit wordRegex (plainConfig []))
      (waitSteps [.message 1 ⟨.suspend, none⟩, .startTurn, .message 1 ⟨.resume, none⟩, .startTurn])
    ∃ (before : List Event) (c : ExpectCard) (after : List Event),
      b.trace = before ++ .expect (.added c.ticket c.owner c.id c.deadline) :: after ∧
      (∃ x ∈ b.idents, c.owner = some x.serial) ∧ c.deadline < wordEnv.mono b.queries ∧
      b.expect.requests = [] ∧ ∀ ev ∈ b.trace, ev.isResultOf c.ticket = false := by
  intro b
  let forgotten : ExpectCard → List Event → Bool := fun c _ =>
    b.idents.any (fun x => c.owner == some x.serial) && decide (c.deadline < wordEnv.mono b.queries) &&
      b.trace.all fun ev => !ev.isResultOf c.ticket
  have hforgotten : acceptedThen forgotten b.trace = true := by decide +kernel
  have hempty : b.expect.requests.isEmpty = true := by decide +kernel
  obtain ⟨before, c, after, htrace, h⟩ := exists_of_acceptedThen hforgotten
  simp only [forgotten, Bool.and_eq_true, any_eq_true, decide_eq_true_eq, all_eq_true,
    Bool.not_eq_true', beq_iff_eq] at h
  exact ⟨before, c, after, htrace, h.1.1, h.1.2, List.isEmpty_iff.mp hempty, h.2⟩

end Smolmux.Broker
