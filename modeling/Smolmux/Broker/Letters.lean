import Smolmux.Correlation
import Smolmux.Broker.Account

/-! The mail of the broker: requests that wait, with the ids their clients chose, and the
replies to them. The id of a request waits in a slot of the sector that serves it, and
the slot agrees with the request until the reply is built. -/

namespace Smolmux.Broker
open Protocol Smolmux.Frame List

variable {ρ : Type}

abbrev Letter := Mail Waiting (Option Bytes) Json

/-- A resume has no id until it is given one; its failure is told with an error. -/
def Event.mail : Event → Option Letter
  | .asked request id => some (.asked request id)
  | .reply request msg => some (.reply request msg)
  | .resume (.began t) => some (.asked (.resume t) none)
  | .resume (.named t rid) => some (.asked (.resume t) (some rid))
  | .resume (.failed t id _) =>
    some (.reply (.resume t) (msgError (some id) (ascii "failed to reopen serial port")))
  | _ => none

def Waiting.isResume : Waiting → Bool
  | .resume _ => true
  | _ => false

def Waiting.isFlood : Waiting → Bool
  | .flood _ => true
  | _ => false

/-- Numbers of requests are not used again; only a resume that a suspend has cut off may
be given another id. -/
def Waiting.Once (request : Waiting) : Prop := request.isResume = false

def Named (request : Waiting) (id : Option Bytes) (msg : Json) : Prop :=
  ∀ text, id = some text → (request.isFlood = true → text ≠ []) →
    msg.getString "id" = some (stored 64 text)

def mails (b : Broker ρ) (T : Sector → Bool) : List Letter :=
  (b.about T).filterMap Event.mail

section Mail

variable {b b' : Broker ρ} {T : Sector → Bool} {ev : Event}

theorem sector_of_mail {m : Letter} (h : ev.mail = some m) : ev.sector = some m.key.sector := by
  cases ev with
  | asked request id =>
    cases h
    rfl
  | reply request msg =>
    cases h
    rfl
  | resume note =>
    cases note with
    | began | named | failed =>
      cases h
      rfl
    | _ => cases h
  | _ => cases h

theorem mails_filter (b : Broker ρ) (s : Sector) :
    (b.trace.filterMap Event.mail).filter (fun m => m.key.sector == s) = b.mails (· == s) := by
  rw [filter_filterMap, Broker.mails, Broker.about, filterMap_filter]
  refine filterMap_congr fun ev _ => ?_
  cases hmail : ev.mail with
  | none => simp
  | some m => simp [sector_of_mail hmail, Option.filter]

theorem mails_eq_nil {s : Sector} (hs : ∀ request : Waiting, request.sector ≠ s) (b : Broker ρ) :
    b.mails (· == s) = [] := by
  rw [← mails_filter, filter_eq_nil_iff]
  intro m _
  simpa using hs m.key

theorem Still.mails (h : Still T b b') : b'.mails T = b.mails T := by
  rw [Broker.mails, h.told, Broker.mails]

theorem mails_append {evs : List Event} (h : b'.about T = b.about T ++ evs) :
    b'.mails T = b.mails T ++ evs.filterMap Event.mail := by
  rw [Broker.mails, h, filterMap_append, Broker.mails]

end Mail

section Slots

variable {α : Type} {s : Sector} {P : s.Part ρ → List Letter → Prop} {b b' : Broker ρ}

def slotted (s : Sector) (P : s.Part ρ → List Letter → Prop) : Frame (Broker ρ) :=
  ofInvariant fun b => P (b.part s) (b.mails (only s))

theorem slotted_of_still (h : Still (only s) b b') : (slotted s P).rel b b' := by
  intro hb
  rw [h.mails, h.part s (only_self s)]
  exact hb

theorem slotted_of_told {evs : List Event} (htold : b'.about (only s) = b.about (only s) ++ evs)
    (h : ∀ mails, P (b.part s) mails → P (b'.part s) (mails ++ evs.filterMap Event.mail)) :
    (slotted s P).rel b b' := by
  intro hb
  rw [mails_append htold]
  exact h _ hb

theorem slotted_of_reports {p : M ρ α} {e : Env ρ}
    (h : ∀ mails, P (b.part s) mails → Reports (only s) (Broker.part · s) e p
      (fun _ evs x => P x (mails ++ evs.filterMap Event.mail)) (b.part s)) :
    (slotted s P).rel b (p e b).2 := by
  intro hb
  obtain ⟨evs, htold, hpost⟩ := h _ hb b rfl
  rw [mails_append htold]
  exact hpost

end Slots

def Agrees (id : Option Bytes) (kept : Bytes) : Prop := ∀ text, id = some text → kept = stored 64 text

theorem agrees_stored (id : Option Bytes) : Agrees id (stored 64 (id.getD [])) := by
  rintro text rfl
  rfl

theorem named_of_agrees {request : Waiting} {kept : Bytes} {msg : Json}
    (hmsg : (request.isFlood = true → kept ≠ []) → msg.getString "id" = some kept)
    (id : Option Bytes) (h : Agrees id kept) : Named request id msg := by
  rintro text rfl hflood
  obtain rfl := h text rfl
  refine hmsg fun hrequest => ?_
  obtain ⟨c, text, rfl⟩ := exists_cons_of_ne_nil (hflood hrequest)
  exact cons_ne_nil _ _

abbrev Desk (key : Nat → Waiting) (next : Nat) (slot : Nat → Bytes → Prop)
    (mails : List Letter) : Prop :=
  Slots Waiting.Once Named Agrees key next slot mails

end Smolmux.Broker
