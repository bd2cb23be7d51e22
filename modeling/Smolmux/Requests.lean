import Mathlib.Data.List.Count
import Mathlib.Logic.Relation

/-! Requests that are served one at a time. A request may hold a line while it is
served; it lets go of it, may pause, and then calls back. The book of such a server
is balanced: callbacks and accepted requests match, and a held line is released
before the callback and before the next request is accepted. -/

namespace Smolmux
open List

/-- What is written down about requests, which are numbered. -/
inductive Entry (L : Type*) where
  | requested (t : Nat)
  | asserted (t : Nat) (line : L)
  | released (t : Nat) (line : L)
  | accepted (t : Nat) (calls : Bool)
  | rejected (t : Nat)
  | callback (t : Nat)
  deriving DecidableEq

/-- What the server does: nothing, hold a line for a request, or pause before the
end of one. -/
inductive Phase (L : Type*) where
  | idle
  | holding (t : Nat) (line : L) (calls : Bool)
  | pausing (t : Nat) (calls : Bool)

structure Book (L : Type*) where
  phase : Phase L
  next : Nat
  entries : List (Entry L)

variable {L : Type*}

namespace Entry

def ticket : Entry L → Nat
  | requested t | asserted t _ | released t _ | accepted t _ | rejected t | callback t => t

def isAccepted : Entry L → Bool
  | accepted _ calls => calls
  | _ => false

def isCallback : Entry L → Bool
  | callback _ => true
  | _ => false

end Entry

theorem mem_accepted {es : List (Entry L)} {t : Nat}
    (h : 0 < es.countP (fun en => en.isAccepted && en.ticket == t)) : .accepted t true ∈ es := by
  obtain ⟨en, hen, haccepted⟩ := countP_pos_iff.mp h
  simp only [Bool.and_eq_true, beq_iff_eq] at haccepted
  cases en with
  | accepted u calls =>
    obtain ⟨hcalls, hu⟩ := haccepted
    rwa [← hcalls, ← hu]
  | _ => cases haccepted.1

namespace Phase

def owed (p : Nat → Bool) : Phase L → Nat
  | idle => 0
  | holding t _ calls | pausing t calls => if calls && p t then 1 else 0

def ticket : Phase L → Option Nat
  | idle => none
  | holding t _ _ | pausing t _ => some t

def held : Phase L → Option (Nat × L)
  | holding t line _ => some (t, line)
  | _ => none

end Phase

def callbackOf (t : Nat) (calls : Bool) : List (Entry L) := if calls then [.callback t] else []

namespace Book

/-- What the server may do. A refused request leaves it as it is; a release may be
tried more than once. -/
inductive Step : Book L → Book L → Prop
  | stay (s : Book L) : Step s s
  | refuse (phase : Phase L) (n : Nat) (es : List (Entry L)) :
      Step ⟨phase, n, es⟩ ⟨phase, n + 1, es ++ [.requested n, .rejected n]⟩
  | refuseHeld (n : Nat) (es : List (Entry L)) (line : L) :
      Step ⟨.idle, n, es⟩
        ⟨.idle, n + 1, es ++ [.requested n, .asserted n line, .released n line, .rejected n]⟩
  | atOnce (n : Nat) (es : List (Entry L)) (calls : Bool) :
      Step ⟨.idle, n, es⟩
        ⟨.idle, n + 1, es ++ .requested n :: (callbackOf n calls ++ [.accepted n calls])⟩
  | begin (n : Nat) (es : List (Entry L)) (calls : Bool) :
      Step ⟨.idle, n, es⟩ ⟨.pausing n calls, n + 1, es ++ [.requested n, .accepted n calls]⟩
  | hold (n : Nat) (es : List (Entry L)) (line : L) (calls : Bool) :
      Step ⟨.idle, n, es⟩
        ⟨.holding n line calls, n + 1, es ++ [.requested n, .asserted n line, .accepted n calls]⟩
  | release (t : Nat) (line : L) (calls : Bool) (n : Nat) (es : List (Entry L)) (again : Nat) :
      Step ⟨.holding t line calls, n, es⟩
        ⟨.pausing t calls, n, es ++ List.replicate (again + 1) (.released t line)⟩
  | finish (t : Nat) (calls : Bool) (n : Nat) (es : List (Entry L)) :
      Step ⟨.pausing t calls, n, es⟩ ⟨.idle, n, es ++ callbackOf t calls⟩

theorem steps_end (t : Nat) (line : L) (calls : Bool) (n : Nat) (es : List (Entry L))
    (again : Nat) : Relation.ReflTransGen Step ⟨.holding t line calls, n, es⟩
      ⟨.idle, n, es ++ (List.replicate (again + 1) (.released t line) ++ callbackOf t calls)⟩ := by
  rw [← append_assoc]
  exact .tail (.single (.release t line calls n es again)) (.finish t calls n _)

/-- What the server does for request `t` before it answers; `0` accepts. -/
inductive Outcome (t : Nat) (calls : Bool) : Book L → Int → Book L → Prop
  | refused (s : Book L) : Outcome t calls s (-1) s
  | refusedHeld (n : Nat) (es : List (Entry L)) (line : L) :
      Outcome t calls ⟨.idle, n, es⟩ (-1) ⟨.idle, n, es ++ [.asserted t line, .released t line]⟩
  | atOnce (n : Nat) (es : List (Entry L)) :
      Outcome t calls ⟨.idle, n, es⟩ 0 ⟨.idle, n, es ++ callbackOf t calls⟩
  | begun (n : Nat) (es : List (Entry L)) :
      Outcome t calls ⟨.idle, n, es⟩ 0 ⟨.pausing t calls, n, es⟩
  | held (n : Nat) (es : List (Entry L)) (line : L) :
      Outcome t calls ⟨.idle, n, es⟩ 0 ⟨.holding t line calls, n, es ++ [.asserted t line]⟩

theorem Outcome.step {phase : Phase L} {n : Nat} {es : List (Entry L)} {calls : Bool} {rc : Int}
    {s : Book L} (h : Outcome n calls ⟨phase, n + 1, es ++ [.requested n]⟩ rc s) :
    Step ⟨phase, n, es⟩
      ⟨s.phase, s.next, s.entries ++ [if rc = 0 then .accepted n calls else .rejected n]⟩ := by
  cases h with
  | refused => simpa using Step.refuse phase n es
  | refusedHeld n es' line => simpa using Step.refuseHeld n es line
  | atOnce => simpa using Step.atOnce n es calls
  | begun => simpa using Step.begin n es calls
  | held n es' line => simpa using Step.hold n es line calls

end Book

structure Watch (L : Type*) where
  held : Option (Nat × L)
  orderly : Bool

variable [DecidableEq L]

/-- A line is asserted when none is held; nobody calls back while holding one, and
nobody is accepted while another holds one. -/
def Watch.see (w : Watch L) : Entry L → Watch L
  | .asserted t line => ⟨some (t, line), w.orderly && w.held.isNone⟩
  | .released t line => ⟨if w.held = some (t, line) then none else w.held, w.orderly⟩
  | .accepted t _ => ⟨w.held, w.orderly && w.held.all (·.1 == t)⟩
  | .callback t => ⟨w.held, w.orderly && w.held.all (·.1 != t)⟩
  | _ => w

def Watch.over (es : List (Entry L)) : Watch L := es.foldl Watch.see ⟨none, true⟩

theorem Watch.over_append (es more : List (Entry L)) :
    Watch.over (es ++ more) = more.foldl Watch.see (Watch.over es) := foldl_append

theorem see_released_again (t : Nat) (line : L) (ok : Bool) (again : Nat) :
    (List.replicate again (Entry.released t line)).foldl Watch.see ⟨none, ok⟩ = ⟨none, ok⟩ := by
  induction again with
  | zero => rfl
  | succ again ih => simpa [replicate_succ, Watch.see] using ih

structure Book.Balanced (s : Book L) : Prop where
  count : ∀ p : Nat → Bool, s.entries.countP (fun en => en.isAccepted && p en.ticket) =
    s.entries.countP (fun en => en.isCallback && p en.ticket) + s.phase.owed p
  once : ∀ t, s.entries.countP (fun en => en.isAccepted && en.ticket == t) ≤ 1
  tickets : ∀ en ∈ s.entries, en.ticket < s.next
  current : ∀ t, s.phase.ticket = some t → t < s.next ∧ .rejected t ∉ s.entries
  apart : ∀ t, .rejected t ∈ s.entries → .callback t ∉ s.entries
  watch : Watch.over s.entries = ⟨s.phase.held, true⟩

namespace Book.Balanced

variable {s : Book L}

theorem not_mem_of_le (h : s.Balanced) {en : Entry L} (hle : s.next ≤ en.ticket) :
    en ∉ s.entries := fun hmem => Nat.not_lt_of_le hle (h.tickets en hmem)

variable {n : Nat}

/-- What new entries have to do with the phases before and after them, for the
book to stay in balance. -/
theorem grow (h : s.Balanced) {phase : Phase L} {more : List (Entry L)}
    (hcount : ∀ p : Nat → Bool,
      s.phase.owed p + more.countP (fun en => en.isAccepted && p en.ticket) =
        more.countP (fun en => en.isCallback && p en.ticket) + phase.owed p)
    (honce : more.countP Entry.isAccepted ≤ 1)
    (hfresh : ∀ en ∈ more, en.isAccepted → en.ticket = s.next) (hnext : s.next ≤ n)
    (htickets : ∀ en ∈ more, en.ticket < n)
    (hcurrent : ∀ t, phase.ticket = some t → t < n ∧ .rejected t ∉ s.entries ++ more)
    (hrejected : ∀ t, .rejected t ∈ more → .callback t ∉ s.entries ++ more)
    (hcallback : ∀ t, .callback t ∈ more → .rejected t ∉ s.entries)
    (hwatch : more.foldl Watch.see ⟨s.phase.held, true⟩ = ⟨phase.held, true⟩) :
    Balanced ⟨phase, n, s.entries ++ more⟩ where
  count p := by
    have hold := h.count p
    have hnew := hcount p
    simp only [countP_append]
    omega
  once t := by
    rw [countP_append]
    by_cases ht : t = s.next
    · -- the old entries are about smaller numbers
      have hold : s.entries.countP (fun en => en.isAccepted && en.ticket == t) = 0 := by
        refine countP_eq_zero.mpr fun en hen => ?_
        have hlt := h.tickets en hen
        simp [ht, Nat.ne_of_lt hlt]
      have hnew : more.countP (fun en => en.isAccepted && en.ticket == t) ≤
          more.countP Entry.isAccepted := countP_mono_left fun en _ hen => by
        simp only [Bool.and_eq_true] at hen
        exact hen.1
      omega
    · have hnew : more.countP (fun en => en.isAccepted && en.ticket == t) = 0 := by
        refine countP_eq_zero.mpr fun en hen => ?_
        intro hacc
        simp only [Bool.and_eq_true, beq_iff_eq] at hacc
        exact ht (hacc.2.symm.trans (hfresh en hen hacc.1))
      have hold := h.once t
      omega
  tickets en hen := by
    cases mem_append.mp hen with
    | inl hold => exact Nat.lt_of_lt_of_le (h.tickets en hold) hnext
    | inr hnew => exact htickets en hnew
  current := hcurrent
  apart t hrej hcall := by
    cases mem_append.mp hrej with
    | inr hnew => exact hrejected t hnew hcall
    | inl hold =>
      cases mem_append.mp hcall with
      | inl hcall => exact h.apart t hold hcall
      | inr hcall => exact hcallback t hcall hold
  watch := by
    rw [Watch.over_append, h.watch, hwatch]

variable {es : List (Entry L)}

theorem refuse {phase : Phase L} (h : Balanced ⟨phase, n, es⟩) :
    Balanced ⟨phase, n + 1, es ++ [.requested n, .rejected n]⟩ := by
  have hnew : Entry.callback n ∉ es := h.not_mem_of_le (Nat.le_refl n)
  refine h.grow ?_ ?_ ?_ (Nat.le_succ n) ?_ (fun t ht => ?_) ?_ ?_ ?_
  · simp [Entry.isAccepted, Entry.isCallback]
  · simp [Entry.isAccepted]
  · simp [Entry.isAccepted]
  · simp [Entry.ticket]
  · have hcurrent := h.current t ht
    have hne : t ≠ n := Nat.ne_of_lt hcurrent.1
    exact ⟨Nat.lt_succ_of_lt hcurrent.1, by simp [hcurrent.2, hne]⟩
  · simp [hnew]
  · simp
  · rfl

theorem refuseHeld (h : Balanced ⟨.idle, n, es⟩) (line : L) :
    Balanced ⟨.idle, n + 1,
      es ++ [.requested n, .asserted n line, .released n line, .rejected n]⟩ := by
  have hnew : Entry.callback n ∉ es := h.not_mem_of_le (Nat.le_refl n)
  refine h.grow ?_ ?_ ?_ (Nat.le_succ n) ?_ ?_ ?_ ?_ ?_
  · simp [Entry.isAccepted, Entry.isCallback]
  · simp [Entry.isAccepted]
  · simp [Entry.isAccepted]
  · simp [Entry.ticket]
  · simp [Phase.ticket]
  · simp [hnew]
  · simp
  · simp [Watch.see, Phase.held]

theorem atOnce (h : Balanced ⟨.idle, n, es⟩) (calls : Bool) :
    Balanced ⟨.idle, n + 1,
      es ++ .requested n :: (callbackOf n calls ++ [.accepted n calls])⟩ := by
  have hnew : Entry.rejected n ∉ es := h.not_mem_of_le (Nat.le_refl n)
  cases calls with
  | true =>
    refine h.grow ?_ ?_ ?_ (Nat.le_succ n) ?_ ?_ ?_ ?_ ?_
    · simp [Entry.isAccepted, Entry.isCallback, Entry.ticket, Phase.owed, callbackOf, countP_cons]
    · simp [Entry.isAccepted, callbackOf]
    · simp [Entry.isAccepted, Entry.ticket, callbackOf]
    · simp [Entry.ticket, callbackOf]
    · simp [Phase.ticket]
    · simp [callbackOf]
    · simp [callbackOf, hnew]
    · rfl
  | false =>
    refine h.grow ?_ ?_ ?_ (Nat.le_succ n) ?_ ?_ ?_ ?_ ?_
    · simp [Entry.isAccepted, Entry.isCallback, callbackOf]
    · simp [Entry.isAccepted, callbackOf]
    · simp [Entry.isAccepted, callbackOf]
    · simp [Entry.ticket, callbackOf]
    · simp [Phase.ticket]
    · simp [callbackOf]
    · simp [callbackOf]
    · rfl

theorem begin (h : Balanced ⟨.idle, n, es⟩) (calls : Bool) :
    Balanced ⟨.pausing n calls, n + 1, es ++ [.requested n, .accepted n calls]⟩ := by
  have hnew : Entry.rejected n ∉ es := h.not_mem_of_le (Nat.le_refl n)
  refine h.grow ?_ ?_ ?_ (Nat.le_succ n) ?_ ?_ ?_ ?_ ?_
  · simp [Entry.isAccepted, Entry.isCallback, Entry.ticket, Phase.owed, countP_cons]
  · cases calls <;> simp [Entry.isAccepted]
  · simp [Entry.isAccepted, Entry.ticket]
  · simp [Entry.ticket]
  · simp [Phase.ticket, hnew]
  · simp
  · simp
  · simp [Watch.see, Phase.held]

theorem hold (h : Balanced ⟨.idle, n, es⟩) (line : L) (calls : Bool) :
    Balanced ⟨.holding n line calls, n + 1,
      es ++ [.requested n, .asserted n line, .accepted n calls]⟩ := by
  have hnew : Entry.rejected n ∉ es := h.not_mem_of_le (Nat.le_refl n)
  refine h.grow ?_ ?_ ?_ (Nat.le_succ n) ?_ ?_ ?_ ?_ ?_
  · simp [Entry.isAccepted, Entry.isCallback, Entry.ticket, Phase.owed, countP_cons]
  · cases calls <;> simp [Entry.isAccepted]
  · simp [Entry.isAccepted, Entry.ticket]
  · simp [Entry.ticket]
  · simp [Phase.ticket, hnew]
  · simp
  · simp
  · simp [Watch.see, Phase.held]

theorem release {t : Nat} {line : L} {calls : Bool} (h : Balanced ⟨.holding t line calls, n, es⟩)
    (again : Nat) :
    Balanced ⟨.pausing t calls, n, es ++ List.replicate (again + 1) (.released t line)⟩ := by
  have hcurrent := h.current t rfl
  refine h.grow ?_ ?_ ?_ (Nat.le_refl n) ?_ ?_ ?_ ?_ ?_
  · simp [Entry.isAccepted, Entry.isCallback, Phase.owed, countP_replicate]
  · simp [Entry.isAccepted, countP_replicate]
  · intro en hen
    simp [eq_of_mem_replicate hen, Entry.isAccepted]
  · intro en hen
    rw [eq_of_mem_replicate hen]
    exact hcurrent.1
  · rintro u ⟨⟩
    exact ⟨hcurrent.1, by simp [hcurrent.2, mem_replicate]⟩
  · simp [mem_replicate]
  · simp [mem_replicate]
  · rw [replicate_succ, foldl_cons]
    have hsee : Watch.see ⟨(Phase.holding t line calls).held, true⟩ (.released t line) =
        ⟨none, true⟩ := by simp [Watch.see, Phase.held]
    rw [hsee, see_released_again]
    rfl

theorem finish {t : Nat} {calls : Bool} (h : Balanced ⟨.pausing t calls, n, es⟩) :
    Balanced ⟨.idle, n, es ++ callbackOf t calls⟩ := by
  have hcurrent := h.current t rfl
  cases calls with
  | true =>
    refine h.grow ?_ ?_ ?_ (Nat.le_refl n) ?_ ?_ ?_ ?_ ?_
    · simp [Entry.isAccepted, Entry.isCallback, Entry.ticket, Phase.owed, callbackOf, countP_cons]
    · simp [Entry.isAccepted, callbackOf]
    · simp [Entry.isAccepted, callbackOf]
    · simpa [callbackOf, Entry.ticket] using hcurrent.1
    · simp [Phase.ticket]
    · simp [callbackOf]
    · simpa [callbackOf] using hcurrent.2
    · rfl
  | false =>
    have hnil : (callbackOf t false : List (Entry L)) = [] := rfl
    rw [hnil]
    refine h.grow ?_ ?_ ?_ (Nat.le_refl n) ?_ ?_ ?_ ?_ ?_
    · simp [Phase.owed]
    · simp
    · simp
    · simp
    · simp [Phase.ticket]
    · simp
    · simp
    · rfl

theorem step {s' : Book L} (h : s.Balanced) (hstep : Step s s') : s'.Balanced := by
  cases hstep with
  | stay => exact h
  | refuse phase n es => exact h.refuse
  | refuseHeld n es line => exact h.refuseHeld line
  | atOnce n es calls => exact h.atOnce calls
  | begin n es calls => exact h.begin calls
  | hold n es line calls => exact h.hold line calls
  | release t line calls n es again => exact h.release again
  | finish t calls n es => exact h.finish

theorem run {s' : Book L} (h : s.Balanced) (hrun : Relation.ReflTransGen Step s s') :
    s'.Balanced := by
  induction hrun with
  | refl => exact h
  | tail _ hstep ih => exact ih.step hstep

end Book.Balanced

theorem Book.balanced_empty : Book.Balanced (⟨.idle, 0, []⟩ : Book L) where
  count _ := rfl
  once _ := Nat.zero_le 1
  tickets := by simp
  current := by simp [Phase.ticket]
  apart := by simp
  watch := rfl

theorem orderly_see {w : Watch L} {en : Entry L} (h : (w.see en).orderly) :
    w.orderly := by
  cases en with
  | requested t => exact h
  | rejected t => exact h
  | released t line => exact h
  | asserted t line => exact (Bool.and_eq_true_iff.mp h).1
  | accepted t calls => exact (Bool.and_eq_true_iff.mp h).1
  | callback t => exact (Bool.and_eq_true_iff.mp h).1

theorem orderly_foldl {w : Watch L} (es : List (Entry L))
    (h : (es.foldl Watch.see w).orderly) : w.orderly := by
  induction es generalizing w with
  | nil => exact h
  | cons en es ih => exact orderly_see (ih h)

theorem held_foldl {w : Watch L} {t : Nat} {line : L} (hw : w.held = some (t, line))
    (es : List (Entry L)) (hrelease : .released t line ∉ es)
    (h : (es.foldl Watch.see w).orderly) :
    (es.foldl Watch.see w).held = some (t, line) := by
  induction es generalizing w with
  | nil => exact hw
  | cons en es ih =>
    rw [mem_cons, not_or] at hrelease
    refine ih ?_ hrelease.2 h
    have hsee := orderly_foldl es h
    cases en with
    | asserted u other => simp [Watch.see, hw] at hsee
    | released u other =>
      have hne : w.held ≠ some (u, other) := by
        rw [hw]
        rintro ⟨⟩
        exact hrelease.1 rfl
      simpa [Watch.see, hne] using hw
    | requested u => exact hw
    | accepted u calls => exact hw
    | rejected u => exact hw
    | callback u => exact hw

theorem not_orderly_of_held {w : Watch L} {t : Nat} {line : L} (hw : w.held = some (t, line))
    {en : Entry L} (hen : en = .callback t ∨ ∃ u calls, en = .accepted u calls ∧ u ≠ t) :
    (w.see en).orderly = false := by
  cases hen with
  | inl heq => simp [heq, Watch.see, hw]
  | inr hother =>
    obtain ⟨u, calls, rfl, hne⟩ := hother
    simp [Watch.see, hw, hne.symm]

/-- In a balanced book a line that was asserted is released before the request
calls back and before another one is accepted. -/
theorem Book.Balanced.released_before {s : Book L} (h : s.Balanced) {pre mid post : List (Entry L)}
    {t : Nat} {line : L} {en : Entry L}
    (hsplit : s.entries = pre ++ .asserted t line :: (mid ++ en :: post))
    (hen : en = .callback t ∨ ∃ u calls, en = .accepted u calls ∧ u ≠ t) :
    .released t line ∈ mid := by
  by_contra hrelease
  have hwatch := h.watch
  rw [hsplit, Watch.over_append, foldl_cons, foldl_append, foldl_cons] at hwatch
  have horderly := orderly_foldl post (congrArg Watch.orderly hwatch)
  have hheld := held_foldl (w := (Watch.over pre).see (.asserted t line)) rfl mid hrelease
    (orderly_see horderly)
  rw [not_orderly_of_held hheld hen] at horderly
  cases horderly

theorem Book.Balanced.released_after {s : Book L} (h : s.Balanced) (hheld : s.phase.held = none)
    {pre post : List (Entry L)} {t : Nat} {line : L}
    (hsplit : s.entries = pre ++ .asserted t line :: post) : .released t line ∈ post := by
  by_contra hrelease
  have hwatch := h.watch
  rw [hsplit, Watch.over_append, foldl_cons] at hwatch
  have hstill := held_foldl (w := (Watch.over pre).see (.asserted t line)) rfl post hrelease
    (congrArg Watch.orderly hwatch)
  rw [hwatch] at hstill
  exact Option.some_ne_none _ (hstill.symm.trans hheld)

theorem Book.Balanced.pausing {s : Book L} (h : s.Balanced) {t : Nat}
    (hphase : s.phase = .pausing t true) : .accepted t true ∈ s.entries ∧ .callback t ∉ s.entries := by
  have hcount := h.count (· == t)
  have honce := h.once t
  have howed : s.phase.owed (· == t) = 1 := by simp [hphase, Phase.owed]
  refine ⟨?_, fun hmem => ?_⟩
  · exact mem_accepted (by omega)
  · have hpos : 0 < s.entries.countP (fun en => en.isCallback && en.ticket == t) :=
      countP_pos_iff.mpr ⟨.callback t, hmem, by simp [Entry.isCallback, Entry.ticket]⟩
    omega

theorem Book.Balanced.accepted_of_callback {s : Book L} (h : s.Balanced) {t : Nat}
    (ht : .callback t ∈ s.entries) : .accepted t true ∈ s.entries := by
  have hpos : 0 < s.entries.countP (fun en => en.isCallback && en.ticket == t) :=
    countP_pos_iff.mpr ⟨.callback t, ht, by simp [Entry.isCallback, Entry.ticket]⟩
  have hcount := h.count (· == t)
  exact mem_accepted (by omega)

/-- Of an accepted request there is one callback, unless it is in progress. -/
theorem Book.Balanced.callback_once {s : Book L} (h : s.Balanced) {t : Nat}
    (ht : .accepted t true ∈ s.entries) :
    s.entries.countP (fun en => en.isCallback && en.ticket == t) + s.phase.owed (· == t) = 1 := by
  have hpos : 0 < s.entries.countP (fun en => en.isAccepted && en.ticket == t) :=
    countP_pos_iff.mpr ⟨.accepted t true, ht, by simp [Entry.isAccepted, Entry.ticket]⟩
  have hcount := h.count (· == t)
  have honce := h.once t
  omega

end Smolmux
