import Mathlib.Data.List.Induction
import Smolmux.Trace

/-! Requests that are answered later. A request is made under a key, and every answer
to it comes under that key, with other mail in between. The mail is correlated when an
answer agrees with the request that was made last under its key; under most keys there
is only one. -/

namespace Smolmux
open List

variable {κ ι μ σ β : Type*}

inductive Mail (κ ι μ : Type*) where
  | asked (key : κ) (id : ι)
  | reply (key : κ) (msg : μ)

namespace Mail

def key : Mail κ ι μ → κ
  | asked k _ | reply k _ => k

def asks [DecidableEq κ] (k : κ) : Mail κ ι μ → Option ι
  | asked k' id => if k' = k then some id else none
  | reply .. => none

end Mail

variable [DecidableEq κ]

def lastAsked (k : κ) (mails : List (Mail κ ι μ)) : Option ι :=
  (mails.filterMap (Mail.asks k)).getLast?

/-- A key that is used once is new when it is asked under, and an answer obeys the law
with the request it is for. -/
def Fair (once : κ → Prop) (law : κ → ι → μ → Prop) (before : List (Mail κ ι μ)) :
    Mail κ ι μ → Prop
  | .asked k _ => once k → lastAsked k before = none
  | .reply k msg => ∃ id, lastAsked k before = some id ∧ law k id msg

def Correlated (once : κ → Prop) (law : κ → ι → μ → Prop) (mails : List (Mail κ ι μ)) : Prop :=
  EachAfter (Fair once law) mails

section Last

variable {k k' : κ} {id : ι} {mails : List (Mail κ ι μ)}

@[simp] theorem lastAsked_reply (k k' : κ) (msg : μ) (mails : List (Mail κ ι μ)) :
    lastAsked k (mails ++ [.reply k' msg]) = lastAsked k mails := by
  simp [lastAsked, Mail.asks]

theorem lastAsked_asked (k k' : κ) (id : ι) (mails : List (Mail κ ι μ)) :
    lastAsked k (mails ++ [.asked k' id]) = if k' = k then some id else lastAsked k mails := by
  rw [lastAsked, filterMap_append]
  split
  case isTrue h => simp [Mail.asks, h]
  case isFalse h => simp [Mail.asks, h, lastAsked]

@[simp] theorem lastAsked_asked_self (k : κ) (id : ι) (mails : List (Mail κ ι μ)) :
    lastAsked k (mails ++ [.asked k id]) = some id := by
  rw [lastAsked_asked, if_pos rfl]

theorem lastAsked_asked_of_ne (h : k' ≠ k) (id : ι) (mails : List (Mail κ ι μ)) :
    lastAsked k (mails ++ [.asked k' id]) = lastAsked k mails := by
  rw [lastAsked_asked, if_neg h]

theorem mem_of_lastAsked (h : lastAsked k mails = some id) : .asked k id ∈ mails := by
  obtain ⟨m, hmem, hm⟩ := mem_filterMap.mp (mem_of_getLast? h)
  cases m with
  | asked k' id' =>
    obtain ⟨hkey, hid⟩ : k' = k ∧ id' = id := by simpa [Mail.asks] using hm
    exact hkey ▸ hid ▸ hmem
  | reply k' msg => cases hm

theorem lastAsked_filter {p : Mail κ ι μ → Bool} (hp : ∀ m, m.key = k → p m)
    (mails : List (Mail κ ι μ)) : lastAsked k (mails.filter p) = lastAsked k mails := by
  rw [lastAsked, filterMap_filter, lastAsked]
  congr 1
  refine filterMap_congr fun m _ => ?_
  split
  case isTrue => rfl
  case isFalse hout =>
    cases m with
    | asked k' id =>
      have hne : k' ≠ k := fun h => hout (hp _ h)
      exact (if_neg hne).symm
    | reply k' msg => rfl

end Last

namespace Correlated

variable {once : κ → Prop} {law : κ → ι → μ → Prop} {k : κ} {id : ι} {msg : μ}
  {mails : List (Mail κ ι μ)}

theorem nil (once : κ → Prop) (law : κ → ι → μ → Prop) :
    Correlated once law ([] : List (Mail κ ι μ)) := EachAfter.nil _

theorem concat (h : Correlated once law mails) {m : Mail κ ι μ} (hm : Fair once law mails m) :
    Correlated once law (mails ++ [m]) := by
  refine h.append (.single ?_)
  rwa [append_nil]

theorem answered (h : Correlated once law mails) {before after : List (Mail κ ι μ)}
    (heq : mails = before ++ .reply k msg :: after) :
    ∃ id, lastAsked k before = some id ∧ law k id msg := h before _ after heq

theorem of_append {more : List (Mail κ ι μ)} (h : Correlated once law (mails ++ more)) :
    Correlated once law mails := by
  intro before m after heq
  refine h before m (after ++ more) ?_
  rw [heq, append_assoc, cons_append]

theorem asked_once (h : Correlated once law mails) (hk : once k) (hmem : .asked k id ∈ mails) :
    lastAsked k mails = some id := by
  induction mails using List.reverseRecOn with
  | nil => cases hmem
  | append_singleton mails m ih =>
    cases m with
    | reply k' msg =>
      rw [lastAsked_reply]
      exact ih h.of_append (by simpa using hmem)
    | asked k' id' =>
      have hfresh := h mails (.asked k' id') [] rfl
      by_cases hkey : k' = k
      · subst hkey
        cases mem_append.mp hmem with
        | inl hold =>
          rw [hfresh hk] at ih
          cases ih h.of_append hold
        | inr hnew =>
          cases mem_singleton.mp hnew
          exact lastAsked_asked_self ..
      · rw [lastAsked_asked_of_ne hkey]
        refine ih h.of_append ?_
        simpa [Ne.symm hkey] using hmem

theorem of_classes [DecidableEq σ] (cls : κ → σ)
    (h : ∀ c, Correlated once law (mails.filter fun m => cls m.key == c)) :
    Correlated once law mails := by
  intro before m after heq
  let same : Mail κ ι μ → Bool := fun m' => cls m'.key == cls m.key
  have hsame : ∀ m', m'.key = m.key → same m' := fun m' hm' => by simp [same, hm']
  have hsplit : mails.filter same = before.filter same ++ m :: after.filter same := by
    rw [heq, filter_append, filter_cons_of_pos (hsame m rfl)]
  have hfair := h (cls m.key) _ m _ hsplit
  have hlast : lastAsked m.key (before.filter same) = lastAsked m.key before :=
    lastAsked_filter hsame before
  cases m with
  | asked k id =>
    intro hk
    rw [← hfair hk]
    exact hlast.symm
  | reply k msg =>
    obtain ⟨id, hid, hlaw⟩ := hfair
    exact ⟨id, hlast ▸ hid, hlaw⟩

end Correlated

/-- Correlated mail whose keys are numbers that have been given out, with slots that hold
something of each request that is still to be answered. -/
structure Slots (once : κ → Prop) (law : κ → ι → μ → Prop) (agrees : ι → β → Prop) (key : Nat → κ)
    (next : Nat) (held : Nat → β → Prop) (mails : List (Mail κ ι μ)) : Prop where
  correlated : Correlated once law mails
  fresh : ∀ t, next ≤ t → lastAsked (key t) mails = none
  held : ∀ t x, held t x → ∃ id, lastAsked (key t) mails = some id ∧ agrees id x

namespace Slots

variable {once : κ → Prop} {law : κ → ι → μ → Prop} {agrees : ι → β → Prop} {key : Nat → κ}
  {next next' t : Nat} {held held' : Nat → β → Prop} {id : ι} {x : β} {mails : List (Mail κ ι μ)}

theorem nil (h : ∀ t x, ¬ held t x) :
    Slots once law agrees key next held ([] : List (Mail κ ι μ)) :=
  ⟨.nil once law, fun _ _ => rfl, fun t x ht => absurd ht (h t x)⟩

theorem mono (h : Slots once law agrees key next held mails) (hnext : next ≤ next')
    (hheld : ∀ t x, held' t x → held t x) : Slots once law agrees key next' held' mails :=
  ⟨h.correlated, fun t ht => h.fresh t (Nat.le_trans hnext ht), fun t x ht => h.held t x (hheld t x ht)⟩

theorem lt (h : Slots once law agrees key next held mails) (ht : held t x) : t < next := by
  by_contra hge
  obtain ⟨id, hlast, -⟩ := h.held t x ht
  cases (h.fresh t (Nat.le_of_not_lt hge)).symm.trans hlast

theorem ask (h : Slots once law agrees key next held mails) (hkey : Function.Injective key)
    (hheld : ∀ t x, held' t x → held t x ∨ t = next ∧ agrees id x) :
    Slots once law agrees key (next + 1) held' (mails ++ [.asked (key next) id]) := by
  have hother : ∀ {t}, t ≠ next →
      lastAsked (key t) (mails ++ [.asked (key next) id]) = lastAsked (key t) mails :=
    fun hne => lastAsked_asked_of_ne (fun heq => hne (hkey heq).symm) id mails
  refine ⟨h.correlated.concat fun _ => h.fresh next (Nat.le_refl _), fun t ht => ?_,
    fun t x ht => ?_⟩
  · rw [hother (Nat.ne_of_gt ht)]
    exact h.fresh t (Nat.le_of_lt ht)
  · obtain hold | ⟨rfl, hid⟩ := hheld t x ht
    · rw [hother (Nat.ne_of_lt (h.lt hold))]
      exact h.held t x hold
    · exact ⟨id, lastAsked_asked_self .., hid⟩

theorem again (h : Slots once law agrees key next held mails) (ht : held t x)
    (honce : ¬ once (key t)) (hheld : ∀ u y, held' u y → u = t ∧ agrees id y) :
    Slots once law agrees key next held' (mails ++ [.asked (key t) id]) := by
  obtain ⟨old, hlast, -⟩ := h.held t x ht
  refine ⟨h.correlated.concat fun hk => absurd hk honce, fun u hu => ?_, fun u y hu => ?_⟩
  · have hne : key t ≠ key u := by
      intro heq
      rw [heq, h.fresh u hu] at hlast
      cases hlast
    rw [lastAsked_asked_of_ne hne]
    exact h.fresh u hu
  · obtain ⟨rfl, hid⟩ := hheld u y hu
    exact ⟨id, lastAsked_asked_self .., hid⟩

theorem answer (h : Slots once law agrees key next held mails) (ht : held t x) {msg : μ}
    (hlaw : ∀ id, agrees id x → law (key t) id msg) :
    Slots once law agrees key next held (mails ++ [.reply (key t) msg]) := by
  obtain ⟨id, hlast, hid⟩ := h.held t x ht
  refine ⟨h.correlated.concat ⟨id, hlast, hlaw id hid⟩, fun u hu => ?_, fun u y hu => ?_⟩
  · rw [lastAsked_reply]
    exact h.fresh u hu
  · rw [lastAsked_reply]
    exact h.held u y hu

end Slots

end Smolmux
