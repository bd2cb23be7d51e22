import Smolmux.Broker.ExpectMachine
import Smolmux.Broker.FloodLedger
import Smolmux.Broker.ResumeLedger

/-! Replies that come later carry the id of their request. The id of a request waits in
the table of expects, in the slot of the history or with the resume, as it does with a
break or a flood in progress; each slot keeps what fits into 64 bytes of it. -/

namespace Smolmux.Broker
open Protocol List

variable {ρ : Type}

variable {p : HistoryPending} {id : Option Bytes} {ticket : Nat}

section Pins

def keptBy : Option BreakDone → Option Bytes
  | some (.pin ctx) => some (ctx.msgId.getD [])
  | _ => none

def Pins (m : BreakMachine) (mails : List Letter) : Prop :=
  Desk .pin m.next (fun t x => t = m.current ∧ keptBy m.done = some x) mails

theorem pin_injective : Function.Injective Waiting.pin := fun _ _ h => Waiting.pin.inj h

variable {next : Nat} {slot : Nat → Bytes → Prop} {done : Option BreakDone} {evs : List Event}
  {m m' : BreakMachine} {mails : List Letter}

theorem pinReply_id (id : Option Bytes) (rc : Int) :
    (pinReply id rc).getString "id" = some (id.getD []) := by
  unfold pinReply
  split_ifs
  · rfl
  · rfl

theorem desk_ends (h : Desk .pin next slot mails) (hends : BreakMachine.Ends ticket done evs)
    (hslot : ∀ x, keptBy done = some x → slot ticket x) :
    Desk .pin next slot (mails ++ evs.filterMap Event.mail) := by
  cases hends with
  | silent | told => exact (append_nil mails).symm ▸ h
  | answered ctx rc =>
    exact h.answer (hslot _ rfl) (named_of_agrees fun _ => pinReply_id ctx.msgId rc)

theorem Pins.asks (h : Pins m mails) (done : Option BreakDone) :
    Desk .pin (m.next + 1)
      (fun t x => t = m.current ∧ keptBy m.done = some x ∨ t = m.next ∧ keptBy done = some x)
      (mails ++ (BreakMachine.asks m.next done).filterMap Event.mail) := by
  match done with
  | none | some (.mcpBreak ..) | some (.mcpReset ..) =>
    exact (append_nil mails).symm ▸ h.mono (Nat.le_succ _) fun _ _ hx => hx.resolve_right nofun
  | some (.pin ctx) =>
    refine h.ask pin_injective fun t x hx => hx.imp_right ?_
    rintro ⟨rfl, hkept⟩
    refine ⟨rfl, fun text htext => ?_⟩
    rw [keptBy, ctx.cut, htext] at hkept
    exact (Option.some.inj hkept).symm

theorem pins_served {rc : Int}
    (h : Desk .pin m.next
      (fun t x => t = m.current ∧ keptBy m.done = some x ∨ t = ticket ∧ keptBy done = some x) mails)
    (hserved : BreakMachine.Served ticket done m rc evs m') :
    Pins m' (mails ++ evs.filterMap Event.mail) := by
  cases hserved with
  | refused timer =>
    exact (append_nil mails).symm ▸ h.mono (Nat.le_refl _) fun _ _ hx => .inl hx
  | refusedHeld pin rc hidle hidle' hnext hdone =>
    refine (append_nil mails).symm ▸ h.mono (Nat.le_of_eq hnext.symm) fun t x hx => .inl ?_
    obtain hnone | ⟨hcurrent, hdone⟩ := hdone
    · rw [hnone] at hx
      cases hx.2
    · rwa [hcurrent, hdone] at hx
  | atOnce hidle hends =>
    exact (desk_ends h hends fun _ hx => .inr ⟨rfl, hx⟩).mono (Nat.le_refl _) fun _ _ hx => .inl hx
  | held pin hidle hnext hdone =>
    refine (append_nil mails).symm ▸ h.mono (Nat.le_of_eq hnext.symm) fun t x hx => .inr ?_
    exact ⟨hx.1, hdone ▸ hx.2⟩

theorem released_mail (ticket : Nat) (pin : Bytes) (rcs : List Int) :
    (rcs.map (Event.deasserted ticket pin)).filterMap Event.mail = [] := by
  rw [filterMap_map]
  exact filterMap_eq_nil_iff.mpr fun _ _ => rfl

theorem Pins.ends (h : Pins m mails) (hends : BreakMachine.Ends m.current m.done evs) :
    Pins m.ended (mails ++ evs.filterMap Event.mail) :=
  (desk_ends h hends fun _ hx => ⟨rfl, hx⟩).mono (Nat.le_refl _) fun _ _ hx => nomatch hx.2

theorem Pins.step (h : Pins m mails) (hstep : BreakMachine.Step m evs m') :
    Pins m' (mails ++ evs.filterMap Event.mail) := by
  cases hstep with
  | stay | dropTimer => exact (append_nil mails).symm ▸ h
  | @request _ done rc evs hserved =>
    have hlast : [if rc = 0 then Event.accepted m.next done.isSome else .rejected m.next].filterMap
        Event.mail = [] := by
      split_ifs
      · rfl
      · rfl
    rw [filterMap_cons_none rfl, filterMap_append, filterMap_append, hlast, append_nil,
      ← append_assoc]
    exact pins_served (h.asks done) hserved
  | release hheld rc rcs =>
    rw [released_mail, append_nil]
    exact h
  | finish hheld rc rcs hends =>
    rw [filterMap_append, released_mail, nil_append]
    exact h.ends hends
  | follow hdelay hends => exact h.ends hends

end Pins

section Floods

def FloodMail (fl : Flood ρ) (mails : List Letter) : Prop :=
  Desk .flood fl.next (fun t x => fl.active = true ∧ t = fl.current ∧ x = fl.msgId) mails

theorem flood_injective : Function.Injective Waiting.flood := fun _ _ h => Waiting.flood.inj h

variable {fl fl' : Flood ρ} {mails : List Letter}

theorem FloodMail.idle (h : FloodMail fl mails) (hnext : fl'.next = fl.next)
    (hidle : fl'.active = false) : FloodMail fl' mails :=
  h.mono (Nat.le_of_eq hnext.symm) fun _ _ hx => absurd (hidle.symm.trans hx.1) Bool.false_ne_true

theorem releases_mail (fl : Flood ρ) (rc : Int) : (fl.releases rc).filterMap Event.mail = [] := by
  unfold Flood.releases
  split_ifs
  · rfl
  · rfl

theorem FloodMail.report (h : FloodMail fl mails) (fl' : Flood ρ) (hactive : fl.active = true)
    (hsame : fl'.next = fl.next ∧ fl'.current = fl.current ∧ fl'.msgId = fl.msgId)
    (hidle : fl'.active = false) (isMatched : Bool) (reason : String) (now : Rat) :
    FloodMail fl' (mails ++ (fl'.reports isMatched reason now).filterMap Event.mail) := by
  have hanswer : FloodMail fl
      (mails ++ [.reply (.flood fl.current) (fl'.resultMsg isMatched reason now)]) := by
    refine h.answer ⟨hactive, rfl, rfl⟩ (named_of_agrees fun hne => ?_)
    rw [Flood.resultMsg, hsame.2.2, if_neg (hne rfl)]
    rfl
  rw [← hsame.2.1] at hanswer
  exact hanswer.idle hsame.1 hidle

theorem FloodMail.ask (h : FloodMail fl mails) {regex : Regex ρ} {r : FloodRequest} {rc : Int}
    {evs : List Event}
    (hreq : Flood.Requested regex r fl.next { fl with next := fl.next + 1 } rc evs fl') :
    FloodMail fl' (mails ++ [.asked (.flood fl.next) r.msgId]) := by
  cases hreq with
  | refused timer => exact Slots.ask h flood_injective fun _ _ hx => .inl hx
  | failed hidle hactive hkept | failedHeld pin value rc hidle hactive hkept =>
    unfold FloodMail
    rw [hkept.2.1]
    exact Slots.ask h flood_injective fun _ _ hx => absurd (hactive.symm.trans hx.1) Bool.false_ne_true
  | begun hidle hcompile hactive hseek hkey hid hevs =>
    unfold FloodMail
    rw [hkey.2.2, hkey.2.1, hid]
    refine Slots.ask h flood_injective fun t x hx => .inr ?_
    obtain ⟨-, rfl, rfl⟩ := hx
    exact ⟨rfl, agrees_stored r.msgId⟩

theorem requested_mail {regex : Regex ρ} {r : FloodRequest} {rc : Int} {evs : List Event}
    (h : Flood.Requested regex r ticket fl rc evs fl') : evs.filterMap Event.mail = [] := by
  cases h with
  | refused | failed | failedHeld => rfl
  | begun hidle hcompile hactive hseek hkey hid hevs =>
    rw [hevs]
    split_ifs
    · rfl
    · rfl

theorem FloodMail.step (h : FloodMail fl mails) {regex : Regex ρ} {evs : List Event}
    (hstep : Flood.Step regex fl evs fl') : FloodMail fl' (mails ++ evs.filterMap Event.mail) := by
  cases hstep with
  | count | skip | feed => exact (append_nil mails).symm ▸ h
  | release rc hactive =>
    rw [releases_mail, append_nil]
    exact h
  | finish rc hactive =>
    rw [filterMap_append, releases_mail, nil_append]
    exact h.report fl.ended hactive ⟨rfl, rfl, rfl⟩ rfl ..
  | @hit buf rc reason now hactive hbuf hfinds =>
    rw [filterMap_cons_none rfl, filterMap_append, releases_mail, nil_append]
    exact h.report (fl.fed regex buf).ended hactive ⟨rfl, rfl, rfl⟩ rfl ..
  | request r hreq =>
    change FloodMail fl' (mails ++ .asked (.flood fl.next) r.msgId :: (_ ++ _ : List Event).filterMap _)
    rw [filterMap_append, requested_mail hreq]
    exact h.ask hreq

end Floods

section Pages

open History

def PageMail (slot : HistoryPending × Nat) (mails : List Letter) : Prop :=
  Desk .history (slot.2 + 1)
    (fun t x => slot.1.active = true ∧ t = slot.2 ∧ x = slot.1.msgId) mails

theorem history_injective : Function.Injective Waiting.history :=
  fun _ _ h => Waiting.history.inj h

theorem encodeChunks_msgId (left bytes : Nat) (p : HistoryPending) :
    (encodeChunks left bytes p).msgId = p.msgId ∧ (encodeChunks left bytes p).active = p.active := by
  induction left generalizing bytes p with
  | zero => exact ⟨rfl, rfl⟩
  | succ left ih =>
    unfold encodeChunks
    split
    · exact ⟨rfl, rfl⟩
    · split_ifs
      · exact ⟨rfl, rfl⟩
      · exact ⟨rfl, rfl⟩
      · exact ih _ _

theorem pendingResponse_id (p : HistoryPending) :
    (pendingResponse p).getString "id" = some p.msgId := by
  have hfirst : (msgHistoryResponse p.msgId p.responseArr).getString "id" = some p.msgId := rfl
  have hsecond : (if p.truncated then (msgHistoryResponse p.msgId p.responseArr).add "truncated"
      (.bool true) else msgHistoryResponse p.msgId p.responseArr).getString "id" = some p.msgId :=
    Json.getString_ite (Json.getString_add hfirst ..) hfirst
  exact Json.getString_ite
    (Json.getString_add (Json.getString_add (Json.getString_add hsecond ..) ..) ..) hsecond

/-- A request takes the slot with its id, or leaves no page in it that was not there. -/
inductive Slotted (p : HistoryPending) (id : Option Bytes) : HistoryPending × Option Json → Prop
  | taken {q : HistoryPending} (hid : q.msgId = stored 64 (id.getD [])) : Slotted p id (q, none)
  | refused (answer : Json) : Slotted p id (p, some answer)
  | empty (answer : Json) : Slotted p id (historyPendingClear, some answer)

theorem slotted_handleHistoryRequest (mem : HistoryAlloc) (undef : Rat → Nat)
    (rb : RingBuffer.Ring Rat) (p : HistoryPending) (clientId : Bytes) (root : Json) :
    Slotted p (root.getString "id")
      (History.handleHistoryRequest mem undef rb p clientId root) := by
  unfold History.handleHistoryRequest requestCursor requestSuffix
  dsimp only
  split
  · exact .refused _
  · split
    -- by a cursor or by a suffix
    all_goals
      split
      · exact .empty _
      · split
        · exact .empty _
        · exact .taken rfl

theorem PageMail.ask {q : HistoryPending} {mails : List Letter} (h : PageMail (p, ticket) mails)
    (hid : q.msgId = stored 64 (id.getD [])) :
    PageMail (q, ticket + 1) (mails ++ [.asked (.history (ticket + 1)) id]) := by
  refine Slots.ask h history_injective fun t x hx => .inr ?_
  obtain ⟨-, rfl, rfl⟩ := hx
  exact ⟨rfl, hid ▸ agrees_stored id⟩

theorem PageMail.clear {mails : List Letter} (h : PageMail (p, ticket) mails) :
    PageMail (historyPendingClear, ticket) mails :=
  h.mono (Nat.le_refl _) fun _ _ hx => absurd hx.1 Bool.false_ne_true

theorem PageMail.reply {mails : List Letter} (h : PageMail (p, ticket) mails)
    (hactive : p.active) :
    PageMail (historyPendingClear, ticket)
      (mails ++ [.reply (.history ticket) (pendingResponse p)]) :=
  PageMail.clear (h.answer ⟨hactive, rfl, rfl⟩
    (named_of_agrees fun _ => pendingResponse_id p))

theorem PageMail.encoded {mails : List Letter} (h : PageMail (p, ticket) mails) (left bytes : Nat) :
    PageMail (encodeChunks left bytes p, ticket) mails := by
  obtain ⟨hmsgId, hactive⟩ := encodeChunks_msgId left bytes p
  refine h.mono (Nat.le_refl _) fun t x hslot => ?_
  exact ⟨hactive ▸ hslot.1, hslot.2.1, hslot.2.2.trans hmsgId⟩

abbrev PagesMail (e : Env ρ) (p : M ρ Unit) (mails : List Letter) (slot : HistoryPending × Nat) :
    Prop :=
  Reports (only .pages) (Broker.part · .pages) e p
    (fun _ evs slot' => PageMail slot' (mails ++ evs.filterMap Event.mail)) slot

variable {e : Env ρ} {mails : List Letter} {slot : HistoryPending × Nat}

theorem pagesMail_plain {q : M ρ Unit} (hq : plain.Keeps q) (h : PageMail slot mails) :
    PagesMail e q mails slot :=
  reports_moves (fun _ _ hstill => hstill.part .pages rfl) apart_none hq fun _ =>
    (append_nil mails).symm ▸ h

theorem pagesMail_historyAnswer (c : Client) {r : HistoryPending × Option Json}
    (hslot : Slotted p id r) (h : PageMail (p, ticket) mails) :
    PagesMail e (historyAnswer c id r.2) mails (r.1, ticket) := by
  cases hslot with
  | taken hid =>
    refine tells_get fun b hb => tells_bind (reports_modify (fun _ => rfl) fun b' hb' => ?_)
    obtain ⟨rfl, rfl⟩ := Prod.mk.inj hb
    obtain ⟨hq, -⟩ := Prod.mk.inj hb'
    exact reports_emit (fun _ => rfl) rfl (h.ask (hq ▸ hid))
  | refused answer => exact pagesMail_plain (plain_sendToClient c.addr answer) h
  | empty answer => exact pagesMail_plain (plain_sendToClient c.addr answer) h.clear

theorem pagesMail_askHistory (c : Client) (root : Json) (h : PageMail slot mails) :
    PagesMail e (handleHistoryRequest c root) mails slot := by
  refine tells_env (tells_bind (reports_moves (fun _ _ hstill => hstill.part .pages rfl) apart_none
    (plain_ask _) fun mem => tells_get fun b hb => tells_bind
      (reports_modify (fun _ => rfl) fun b' hb' => ?_)))
  subst hb
  have hticket : b'.historyTicket = b.historyTicket := congrArg Prod.snd hb'
  change PagesMail e _ mails (_, b'.historyTicket)
  rw [hticket]
  exact pagesMail_historyAnswer c (slotted_handleHistoryRequest ..) h

theorem pagesMail_sendPage (h : PageMail (p, ticket) mails) (hactive : p.active) (id : Bytes) :
    PagesMail e (sendPage (some (id, pendingResponse p))) mails (historyPendingClear, ticket) := by
  refine tells_get fun b hb => ?_
  obtain ⟨-, rfl⟩ := Prod.mk.inj hb
  split
  · exact tells_pure ((append_nil mails).symm ▸ h.clear)
  · exact tells_bind (reports_emit (fun _ => rfl) rfl (reports_moves
      (fun _ _ hstill => hstill.part .pages rfl) apart_none (plain_sendToClient ..) fun _ =>
        h.reply hactive))

/-- The slot that waits is encoded further, and given up or answered when there is no more. -/
inductive Encoded (p : HistoryPending) : HistoryPending × Option (Bytes × Json) → Prop
  | idle : Encoded p (p, none)
  | more (left bytes : Nat) : Encoded p (encodeChunks left bytes p, none)
  | lost : Encoded p (historyPendingClear, none)
  | full (left bytes : Nat) (id : Bytes) (hactive : p.active = true) :
      Encoded p (historyPendingClear, some (id, pendingResponse (encodeChunks left bytes p)))

theorem encoded_processHistoryPending (p : HistoryPending) (ids : List Bytes) :
    Encoded p (processHistoryPending p ids) := by
  unfold processHistoryPending
  dsimp only
  split_ifs with hactive
  · exact .more ..
  · cases ids.find? _ with
    | none => exact .lost
    | some id => exact .full _ _ id hactive
  · exact .idle

theorem pagesMail_sent {r : HistoryPending × Option (Bytes × Json)} (hr : Encoded p r)
    (h : PageMail (p, ticket) mails) : PagesMail e (sendPage r.2) mails (r.1, ticket) := by
  cases hr with
  | idle => exact tells_pure ((append_nil mails).symm ▸ h)
  | more left bytes => exact tells_pure ((append_nil mails).symm ▸ h.encoded left bytes)
  | lost => exact tells_pure ((append_nil mails).symm ▸ h.clear)
  | full left bytes id hactive =>
    exact pagesMail_sendPage (h.encoded left bytes) ((encodeChunks_msgId ..).2.trans hactive) id

theorem pagesMail_processHistory (h : PageMail slot mails) :
    PagesMail e processHistory mails slot := by
  refine tells_get fun b hb => tells_bind (reports_modify (fun _ => rfl) fun b' hb' => ?_)
  subst hb
  have hticket : b'.historyTicket = b.historyTicket := congrArg Prod.snd hb'
  change PagesMail e _ mails (_, b'.historyTicket)
  rw [hticket]
  exact pagesMail_sent (encoded_processHistoryPending ..) h

end Pages

section Expects

open Expect

def heldBy (reqs : List (ExpectRequest ρ)) (t : Nat) (x : Bytes) : Prop :=
  ∃ req ∈ reqs, req.ticket = t ∧ req.id = x

def ExpectMail (eng : ExpectEngine ρ) (mails : List Letter) : Prop :=
  Desk .expect eng.next (heldBy eng.requests) mails

theorem expect_injective : Function.Injective Waiting.expect := fun _ _ h => Waiting.expect.inj h

variable {eng eng' : ExpectEngine ρ} {reqs : List (ExpectRequest ρ)} {evs : List Event}
  {mails : List Letter}

theorem expectResult_id (id : Bytes) (isMatched : Bool) (data pattern : Bytes) (aborted : Bool)
    (reason abortPattern : Bytes) :
    (msgExpectResultEx id isMatched data pattern aborted reason abortPattern).getString "id" =
      some id := by
  -- the id comes first, and nothing that is added hides it
  have hid : ((makeMsg "expect_result").add "id" (.str id)).getString "id" = some id := rfl
  have hdata := Json.getString_add (Json.getString_add (Json.getString_add hid "matched"
    (.bool isMatched)) "data" (.str (Base64.base64Encode (data.take maxExpectResultBytes)))) "pattern"
      (.str pattern)
  have hcut := Json.getString_ite (c := maxExpectResultBytes < data.length)
    (Json.getString_add hdata "truncated" (.bool true)) hdata
  have haborted := Json.getString_add hcut "aborted" (.bool true)
  have hreason := Json.getString_ite (c := reason = []) haborted
    (Json.getString_add haborted "abort_reason" (.str reason))
  exact Json.getString_ite (Json.getString_ite hreason
    (Json.getString_add hreason "abort_pattern" (.str abortPattern))) hcut

theorem desk_delivers {next : Nat} {slot : Nat → Bytes → Prop} (h : Desk .expect next slot mails)
    (hevs : Delivers reqs evs) (hslot : ∀ req ∈ reqs, slot req.ticket req.id) :
    Desk .expect next slot (mails ++ evs.filterMap Event.mail) := by
  induction hevs generalizing mails with
  | nil => exact (append_nil mails).symm ▸ h
  | lost req _ ih | sink req _ ih => exact ih h (forall_mem_cons.mp hslot).2
  | client req serial _ ih =>
    obtain ⟨hreq, hreqs⟩ := forall_mem_cons.mp hslot
    refine append_cons .. ▸ ih (h.answer hreq fun id hid => ?_) hreqs
    refine named_of_agrees (fun _ => expectResult_id (stored 64 req.id) ..) id fun text htext => ?_
    rw [hid text htext, stored_stored]

theorem heldBy_map {f : ExpectRequest ρ → ExpectRequest ρ}
    (hf : ∀ req, (f req).ticket = req.ticket ∧ (f req).id = req.id) {t : Nat} {x : Bytes}
    (h : heldBy (reqs.map f) t x) : heldBy reqs t x := by
  obtain ⟨_, hreq, rfl, rfl⟩ := h
  obtain ⟨req, hmem, rfl⟩ := mem_map.mp hreq
  exact ⟨req, hmem, (hf req).1.symm, (hf req).2.symm⟩

theorem feedRequest_id (regex : Regex ρ) (data : Bytes) (req : ExpectRequest ρ) :
    (feedRequest regex data req).ticket = req.ticket ∧ (feedRequest regex data req).id = req.id := by
  unfold feedRequest
  split
  · exact ⟨rfl, rfl⟩
  · exact ⟨rfl, rfl⟩

theorem abortRequest_id (reason patternName : Bytes) (req : ExpectRequest ρ) :
    (abortRequest reason patternName req).ticket = req.ticket ∧
      (abortRequest reason patternName req).id = req.id := by
  unfold abortRequest
  split
  · exact ⟨rfl, rfl⟩
  · exact ⟨rfl, rfl⟩

theorem ExpectMail.step (h : ExpectMail eng mails) (hstep : TableStep eng evs eng') :
    ExpectMail eng' (mails ++ evs.filterMap Event.mail) := by
  have hfewer : ∀ {reqs' : List (ExpectRequest ρ)} {t x}, reqs' ⊆ eng.requests → heldBy reqs' t x →
      heldBy eng.requests t x := fun hsub ⟨req, hreq, hheld⟩ => ⟨req, hsub hreq, hheld⟩
  cases hstep with
  | fewer hnext hsub =>
    exact (append_nil mails).symm ▸ h.mono (Nat.le_of_eq hnext.symm) fun _ _ => hfewer hsub.subset
  | withdraw id =>
    exact (append_nil mails).symm ▸ h.mono (Nat.le_refl _) fun _ _ => hfewer (sweep_subperm ..).subset
  | add compiled hrequests hnext =>
    unfold ExpectMail
    rw [hnext, hrequests]
    refine h.ask expect_injective ?_
    rintro t x ⟨req, hreq, rfl, rfl⟩
    cases mem_append.mp hreq with
    | inl hreq => exact .inl ⟨req, hreq, rfl, rfl⟩
    | inr hreq =>
      rw [mem_singleton.mp hreq]
      exact .inr ⟨rfl, agrees_stored _⟩
  | feed regex buf =>
    exact (append_nil mails).symm ▸ h.mono (Nat.le_refl _) fun _ _ =>
      heldBy_map (feedRequest_id regex buf)
  | @collect reqs done evs now hreqs hperm hevs =>
    have hready : Desk .expect eng.next (heldBy reqs) mails := by
      refine h.mono (Nat.le_refl _) fun t x hx => ?_
      obtain rfl | ⟨reason, patternName, rfl⟩ := hreqs
      · exact hx
      · exact heldBy_map (abortRequest_id reason patternName) hx
    have hdelivered := desk_delivers hready hevs fun req hreq =>
      ⟨req, hperm.mem_iff.mp (mem_append_left _ hreq), rfl, rfl⟩
    refine hdelivered.mono (Nat.le_refl _) ?_
    rintro t x ⟨req, hreq, hheld⟩
    exact ⟨req, hperm.mem_iff.mp (mem_append_right _ hreq), hheld⟩

end Expects

section Resumes

def ResumeMail (st : Stage) (mails : List Letter) : Prop :=
  Desk .resume st.resumeNext (fun t x => st.pendingResumeAck = true ∧
    t = st.resumeTicket ∧ x = st.pendingResumeId) mails

theorem resume_injective : Function.Injective Waiting.resume := fun _ _ h => Waiting.resume.inj h

variable {st st' : Stage} {mails : List Letter} {kind : LinkKind} {seat : Nat → Option Bytes}
  {l m : Line} {evs : List Event}

theorem ResumeMail.keep (h : ResumeMail st mails) (hnext : st'.resumeNext = st.resumeNext)
    (hwaits : st'.pendingResumeAck → st'.waits = st.waits) : ResumeMail st' mails := by
  refine h.mono (Nat.le_of_eq hnext.symm) fun t x hslot => ?_
  have hsame := hwaits hslot.1
  simp only [Stage.waits, Prod.mk.injEq] at hsame
  obtain ⟨hack, hid, hticket, -⟩ := hsame
  rwa [hack, hid, hticket] at hslot

theorem ResumeMail.begin (h : ResumeMail st mails) (owner : Option Nat) (deadline : Rat) :
    ResumeMail (st.waiting.connecting owner deadline)
      (mails ++ [.asked (.resume st.resumeNext) none]) :=
  Slots.ask h resume_injective fun _ _ hx => .inr ⟨hx.2.1, nofun⟩

theorem ResumeMail.name (h : ResumeMail st mails) (hpending : st.pendingResumeAck)
    (rid : Bytes) : ResumeMail { st with pendingResumeId := stored 64 rid }
      (mails ++ [.asked (.resume st.resumeTicket) (some rid)]) := by
  refine h.again ⟨hpending, rfl, rfl⟩ nofun fun t x hx => ?_
  obtain ⟨-, rfl, rfl⟩ := hx
  exact ⟨rfl, agrees_stored (some rid)⟩

theorem ResumeMail.fail (h : ResumeMail st mails) :
    ResumeMail st.gaveUp (mails ++ st.failure.filterMap Event.mail) := by
  cases hpending : st.pendingResumeAck with
  | false =>
    have hfailure : st.failure = [] := if_neg (by simp [hpending])
    have hgaveUp : st.gaveUp = { st with linkConnecting := false, linkDisconnected := true } :=
      if_neg (by simp [hpending])
    rw [hfailure, hgaveUp, filterMap_nil, append_nil]
    exact h.keep rfl fun _ => rfl
  | true =>
    have hfailure : st.failure =
        [.resume (.failed st.resumeTicket st.pendingResumeId st.connectOwner)] := if_pos hpending
    have hanswer : ResumeMail st (mails ++ st.failure.filterMap Event.mail) := by
      rw [hfailure]
      exact h.answer ⟨hpending, rfl, rfl⟩ (named_of_agrees fun _ => rfl)
    rw [Stage.gaveUp, if_pos hpending]
    exact hanswer.keep rfl fun hnone => absurd hnone Bool.false_ne_true

theorem answer_mail (st : Stage) : st.answer.filterMap Event.mail = [] := by
  unfold Stage.answer
  split
  · rfl
  · rfl

theorem waits_next (h : st'.waits = st.waits) : st'.resumeNext = st.resumeNext :=
  congrArg (·.2.2.2) h

theorem resumeMail_step (h : Line.Step kind seat l evs m) (hl : ResumeMail l.stage mails) :
    ResumeMail m.stage (mails ++ evs.filterMap Event.mail) := by
  have hnext : (l.stage.up seat).resumeNext = l.stage.resumeNext :=
    waits_next (waits_up seat l.stage)
  cases h with
  | minor op rc fds queued _ hop hevs =>
    have hsilent : evs.filterMap Event.mail = [] := by
      obtain rfl | rfl := hevs
      · rfl
      · rfl
    rw [hsilent, append_nil]
    exact hl
  | write | flush | poll | refuse | resumeFail | reconnectFail | lost | suspend | reconnectLater =>
    exact (append_nil mails).symm ▸ hl.keep rfl fun _ => rfl
  | name rid hpending => exact hl.name hpending rid
  | resumeNow rc fds queued hsuspended hgate =>
    have hwaits := waits_up seat { l.stage with suspended := false }
    exact (append_nil mails).symm ▸ hl.keep (waits_next hwaits) fun _ => hwaits
  | resumeLater fds queued deadline hsuspended hgate => exact hl.begin _ deadline
  | reconnectUp fds queued hsuspended hconnecting hdown hgate =>
    rw [filterMap_cons_none rfl, filterMap_cons_none rfl, answer_mail, append_nil]
    exact hl.keep hnext nofun
  | up hconnecting hsuspended =>
    rw [filterMap_cons_none rfl, answer_mail, append_nil]
    exact hl.keep hnext nofun
  | giveUp rc hconnecting =>
    rw [filterMap_cons_none rfl]
    exact hl.fail

theorem resumeMail_run (h : Line.Run kind seat l evs m) (hl : ResumeMail l.stage mails) :
    ResumeMail m.stage (mails ++ evs.filterMap Event.mail) := by
  induction h with
  | nil => exact (append_nil mails).symm ▸ hl
  | snoc hrun hstep ih =>
    rw [filterMap_append, ← append_assoc]
    exact resumeMail_step hstep ih

theorem filterMap_linkSide (evs : List Event) :
    (evs.filter fun ev => ev.sector.any linkSide).filterMap Event.mail =
      (evs.filter fun ev => ev.sector.any (only .stage)).filterMap Event.mail := by
  rw [filterMap_filter, filterMap_filter]
  refine filterMap_congr fun ev _ => ?_
  cases hmail : ev.mail with
  | none => simp
  | some m =>
    have hside : linkSide m.key.sector = only .stage m.key.sector := by
      cases m.key with
      | _ => rfl
    rw [sector_of_mail hmail, Option.any_some, Option.any_some, hside]

end Resumes

section Loop

variable {e : Env ρ}

theorem loopFrame_pinned (e : Env ρ) : LoopFrame e (slotted .brk Pins) :=
  loopFrame_of_breakSteps fun _ _ _ htold hstep =>
    slotted_of_told htold fun _ hpins => Pins.step hpins hstep

theorem loopFrame_flooding (e : Env ρ) : LoopFrame e (slotted .flood FloodMail) where
  toTurnFrame := turnFrame_of_steps (fun _ _ _ htold hstep =>
    slotted_of_told htold fun _ hmail => FloodMail.step hmail hstep) fun b b' htold hflood =>
      slotted_of_told (htold.trans (append_nil _).symm) fun mails hmail => by
        change FloodMail b'.flood (mails ++ [])
        rw [append_nil, hflood]
        exact hmail
  stop := ⟨fun _ hb => FloodMail.idle hb rfl rfl⟩
  replug b := slotted_of_still ((moves_replugged b).still (apart_only rfl))

theorem loopFrame_paged (e : Env ρ) : LoopFrame e (slotted .pages PageMail) := by
  refine loopFrame_of_still (T := only .pages) rfl rfl
    (fun b => slotted_of_still ((moves_replugged b).still (apart_only rfl)))
    (fun _ _ => slotted_of_still) fun op b _ hapart _ => ?_
  cases op with
  | askHistory c root => exact slotted_of_reports fun _ => pagesMail_askHistory c root
  | answerHistory => exact slotted_of_reports fun _ => pagesMail_processHistory
  | _ => exact absurd (apart_of_all rfl) hapart

theorem loopFrame_expecting (e : Env ρ) : LoopFrame e (slotted .expect ExpectMail) :=
  loopFrame_of_tableSteps fun _ _ _ htold hstep =>
    slotted_of_told htold fun _ hmail => ExpectMail.step hmail hstep

theorem loopFrame_resuming (e : Env ρ) : LoopFrame e (slotted .stage ResumeMail) where
  toTurnFrame := by
    refine turnFrame_of_run fun b b' added htrace hrun hb => ?_
    have htold : b'.mails (only .stage) = b.mails (only .stage) ++
        (added.filter fun ev => ev.sector.any linkSide).filterMap Event.mail := by
      rw [filterMap_linkSide, Broker.mails, Broker.about, htrace, filter_append,
        filterMap_append]
      rfl
    change ResumeMail b'.stage (b'.mails (only .stage))
    rw [htold]
    exact resumeMail_run hrun hb
  stop := ⟨fun b => slotted_of_still (still_run .stopFlood (apart_only rfl) e b)⟩
  replug b hb := ResumeMail.keep hb rfl fun _ => rfl

theorem correlated_life {s : Sector} {P : s.Part ρ → List Letter → Prop}
    (hF : LoopFrame e (slotted s P)) (hs : s ≠ .wire ∧ s ≠ .boot)
    (hclear : ∀ (b : Broker ρ) mails, P (b.part s) mails →
      P (Broker.part { b with clients := [], historyPending := History.historyPendingClear } s) mails)
    (hP : ∀ x mails, P x mails → Correlated Waiting.Once Named mails)
    {regex : Regex ρ} {cfg : Config} (hinit : P ((brokerInit regex cfg).part s) [])
    (steps : List Step) (destroyed : Bool) : Correlated Waiting.Once Named
      ((runLife e (brokerInit regex cfg) steps destroyed).mails (only s)) :=
  hP _ _ (hF.runLife (fun _ _ h => slotted_of_still (h.still (apart_only (by simp [hs]))))
    (fun b => hclear b _) (brokerInit regex cfg) steps destroyed hinit)

end Loop

theorem correlated_runLife (e : Env ρ) (regex : Regex ρ) (cfg : Config) (steps : List Step)
    (destroyed : Bool) : Correlated Waiting.Once Named
      ((runLife e (brokerInit regex cfg) steps destroyed).trace.filterMap Event.mail) := by
  refine .of_classes Waiting.sector fun s => ?_
  rw [mails_filter]
  cases s with
  | brk =>
    exact correlated_life (loopFrame_pinned e) (by decide) (fun _ _ h => h)
      (fun _ _ h => h.correlated) (.nil nofun) steps destroyed
  | flood =>
    exact correlated_life (loopFrame_flooding e) (by decide) (fun _ _ h => h)
      (fun _ _ h => h.correlated) (.nil nofun) steps destroyed
  | pages =>
    exact correlated_life (loopFrame_paged e) (by decide) (fun _ _ h => h.clear)
      (fun _ _ h => h.correlated) (.nil nofun) steps destroyed
  | expect =>
    exact correlated_life (loopFrame_expecting e) (by decide) (fun _ _ h => h)
      (fun _ _ h => h.correlated) (.nil nofun) steps destroyed
  | stage =>
    exact correlated_life (loopFrame_resuming e) (by decide) (fun _ _ h => h)
      (fun _ _ h => h.correlated) (.nil nofun) steps destroyed
  | calls | history | wire | boot =>
    rw [mails_eq_nil fun request h => by cases request <;> cases h]
    exact .nil _ _

def Event.replyId (ev : Event) : Option (Waiting × Option Bytes) :=
  match ev.mail with
  | some (.reply request msg) => some (request, msg.getString "id")
  | _ => none

theorem eq_reply_of_replyId {ev : Event} {request : Waiting} {field : Option Bytes}
    (h : ev.replyId = some (request, field)) :
    ∃ msg, ev.mail = some (.reply request msg) ∧ msg.getString "id" = field := by
  unfold Event.replyId at h
  split at h
  · next request' msg hmail =>
    cases h
    exact ⟨msg, hmail, rfl⟩
  · cases h

/-- Along every life of a broker, a reply that comes later is for the request that was
made last under its number, which but for a resume is the only one; and it carries the
id of that request, when this is shorter than 64 bytes, and for a flood not empty. -/
theorem later_replies_carry_ids (e : Env ρ) (regex : Regex ρ) (cfg : Config) (steps : List Step)
    (destroyed : Bool) (n : Nat) (request : Waiting) (field : Option Bytes) :
    let events := (runLife e (brokerInit regex cfg) steps destroyed).trace
    events[n]?.bind Event.replyId = some (request, field) →
      ∃ id, lastAsked request ((events.take n).filterMap Event.mail) = some id ∧
        (request.isResume = false → ∀ ev ∈ events, ∀ other,
          ev.mail = some (.asked request other) → other = id) ∧
        ∀ text, id = some text → text.length < 64 → (request.isFlood = true → text ≠ []) →
          field = some text := by
  intro events hreply
  have hcorrelated := correlated_runLife e regex cfg steps destroyed
  obtain ⟨ev, hev, hid⟩ := Option.bind_eq_some_iff.mp hreply
  obtain ⟨msg, hmail, rfl⟩ := eq_reply_of_replyId hid
  obtain ⟨hn, rfl⟩ := List.getElem?_eq_some_iff.mp hev
  have hsplit : events.filterMap Event.mail = (events.take n).filterMap Event.mail ++
      .reply request msg :: (events.drop (n + 1)).filterMap Event.mail := by
    conv_lhs => rw [← take_append_drop n events, drop_eq_getElem_cons hn]
    rw [filterMap_append, filterMap_cons_some hmail]
  obtain ⟨id, hlast, hnamed⟩ := hcorrelated.answered hsplit
  refine ⟨id, hlast, fun honce ev' hev' other hother => ?_, ?_⟩
  · have hmem : .asked request id ∈ events.filterMap Event.mail :=
      hsplit ▸ mem_append_left _ (mem_of_lastAsked hlast)
    have hone := hcorrelated.asked_once honce hmem
    have htwo := hcorrelated.asked_once honce (mem_filterMap.mpr ⟨ev', hev', hother⟩)
    exact Option.some.inj (htwo.symm.trans hone)
  · intro text htext hlength hflood
    rw [hnamed text htext hflood, stored_fits hlength]

def listenSteps (id : Bytes) : List Step :=
  [.event (.listen (plainReg 1)), .message 1 (helloMsg "a" []), .message 1 ⟨.listenExpect, some (.obj
    [("id", .str id), ("pattern", .str (ascii "login:")), ("timeout_ms", .num 100)])⟩, .startTurn]

theorem later_replies_carry_ids_timeout :
    let events := (runLife plainEnv (plainInit []) (listenSteps (ascii "probe")) false).trace
    ∃ field, events[8]?.bind Event.replyId = some (.expect 0, field) ∧
      lastAsked (.expect 0) ((events.take 8).filterMap Event.mail) = some (some (ascii "probe")) ∧
      field = some (ascii "probe") := by
  intro events
  have hrequest : (events[8]?.bind Event.replyId).map Prod.fst = some (.expect 0) := by
    decide +kernel
  have hasked : lastAsked (.expect 0) ((events.take 8).filterMap Event.mail) =
      some (some (ascii "probe")) := by decide +kernel
  obtain ⟨⟨request, field⟩, hreply, rfl⟩ := Option.map_eq_some_iff.mp hrequest
  obtain ⟨id, hlast, -, hcarried⟩ := later_replies_carry_ids plainEnv plainEnv.regex
    (plainConfig []) (listenSteps (ascii "probe")) false 8 _ field hreply
  have hid : id = some (ascii "probe") := Option.some.inj (hlast.symm.trans hasked)
  exact ⟨field, hreply, hasked, hcarried _ hid (by decide) nofun⟩

theorem long_id_is_cut :
    let id : Bytes := List.replicate 64 97
    let events := (runLife plainEnv (plainInit []) (listenSteps id) false).trace
    lastAsked (.expect 0) ((events.take 8).filterMap Event.mail) = some (some id) ∧
      events[8]?.bind Event.replyId = some (.expect 0, some (List.replicate 63 97)) ∧
      some (List.replicate 63 97) ≠ some id := by
  decide +kernel

end Smolmux.Broker
