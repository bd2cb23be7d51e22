import Smolmux.Trace
import Mathlib.Data.List.Nodup
import Mathlib.Data.List.Perm.Subperm

/-! Promises with numbers. A trace tells which promises are made and which are kept. Each is
kept at most once and for the one it was made to, and one that no longer waits and was not
kept has been excused since it was made. -/

namespace Smolmux
open List

/-- How events tell of promises: one makes a promise, keeps the promise with a number for
somebody, excuses a promise, or comes too late for one that still waits. -/
structure Promises (ε κ ω : Type*) where
  made : ε → Option κ
  kept : ε → Option (Nat × ω)
  number : κ → Nat
  owner : κ → ω
  excuses : κ → ε → Bool
  late : κ → ε → Bool

namespace Promises

variable {ε κ ω : Type*} (P : Promises ε κ ω)

def settled (trace : List ε) : List Nat := trace.filterMap fun ev => (P.kept ev).map Prod.fst

def ends (c : κ) (ev : ε) : Prop :=
  P.excuses c ev ∨ P.kept ev = some (P.number c, P.owner c)

/-- What is known of a promise from what has come since it was made: it is about to be kept,
it waits and nothing has come too late, or it has ended. -/
def Account (owed waiting : List κ) (c : κ) (after : List ε) : Prop :=
  c ∈ owed ∨ (c ∈ waiting ∧ ∀ ev ∈ after, P.late c ev = false) ∨ ∃ ev ∈ after, P.ends c ev

/-- The books about promises: those that are about to be kept, those that wait, the number of
the next one, and the trace. -/
structure Ledger (owed waiting : List κ) (next : Nat) (trace : List ε) : Prop where
  once : ((owed ++ waiting).map P.number).Nodup
  waits : ∀ c ∈ owed ++ waiting, P.number c < next ∧ P.number c ∉ P.settled trace
  settled_lt : ∀ n ∈ P.settled trace, n < next
  settled_once : (P.settled trace).Nodup
  account : ∀ before ev after c, trace = before ++ ev :: after → P.made ev = some c →
    P.Account owed waiting c after

def Excused (c : κ) (trace : List ε) : Prop :=
  ∀ before ev after, trace = before ++ ev :: after → P.made ev = some c →
    ∃ x ∈ after, P.excuses c x

variable {P} {owed owed' waiting waiting' : List κ} {next : Nat} {trace evs : List ε}
  {before after : List ε} {c : κ} {ev : ε}

theorem excused_append (hevs : ∀ ev ∈ evs, P.made ev = none) (hev : ev ∈ evs)
    (hexcuses : P.excuses c ev) : P.Excused c (trace ++ evs) := by
  intro before x after heq hmade
  obtain ⟨mid, -, rfl⟩ | ⟨mid, -, rfl⟩ := split_append heq
  · exact ⟨ev, mem_append_right _ hev, hexcuses⟩
  · cases hmade.symm.trans (hevs x (mem_append_right _ mem_cons_self))

theorem settled_append (t u : List ε) : P.settled (t ++ u) = P.settled t ++ P.settled u :=
  filterMap_append ..

theorem Account.grow (h : P.Account owed waiting c after)
    (howed : c ∈ owed → c ∈ owed' ∨ ∃ ev ∈ evs, P.ends c ev)
    (hwaits : c ∈ waiting → P.Account owed' waiting' c evs) :
    P.Account owed' waiting' c (after ++ evs) := by
  have hlater : (∃ ev ∈ evs, P.ends c ev) → ∃ ev ∈ after ++ evs, P.ends c ev :=
    fun ⟨ev, hev, hends⟩ => ⟨ev, mem_append_right _ hev, hends⟩
  obtain hold | ⟨hold, hlate⟩ | ⟨ev, hev, hends⟩ := h
  · exact (howed hold).imp_right fun hends => .inr (hlater hends)
  · obtain hnew | ⟨hnew, hlate'⟩ | hends := hwaits hold
    · exact .inl hnew
    · exact .inr (.inl ⟨hnew, forall_mem_append.mpr ⟨hlate, hlate'⟩⟩)
    · exact .inr (.inr (hlater hends))
  · exact .inr (.inr ⟨ev, mem_append_left _ hev, hends⟩)

namespace Ledger

theorem empty : P.Ledger [] [] 0 [] :=
  ⟨nodup_nil, forall_mem_nil _, forall_mem_nil _, nodup_nil, fun before ev after c h => by
    cases before <;> cases h⟩

/-- Events that make and keep no promise; those that no longer wait are owed or excused. -/
theorem drop (h : P.Ledger owed waiting next trace)
    (hevs : ∀ ev ∈ evs, P.made ev = none ∧ P.kept ev = none) (howed : owed ⊆ owed')
    (hsub : (owed' ++ waiting').Subperm (owed ++ waiting))
    (hlate : ∀ c ∈ waiting', ∀ ev ∈ evs, P.late c ev = false)
    (hgone : ∀ c ∈ waiting, c ∈ owed' ++ waiting' ∨ P.Excused c (trace ++ evs)) :
    P.Ledger owed' waiting' next (trace ++ evs) := by
  have hsettled : P.settled (trace ++ evs) = P.settled trace := by
    have hnone : P.settled evs = [] :=
      filterMap_eq_nil_iff.mpr fun ev hev => by rw [(hevs ev hev).2]; rfl
    rw [settled_append, hnone, append_nil]
  obtain ⟨reduced, hperm, hsublist⟩ := hsub
  have honce := (hperm.map P.number).nodup_iff.mp ((hsublist.map P.number).nodup h.once)
  refine ⟨honce, fun c hc => hsettled ▸ h.waits c (hsublist.subset (hperm.mem_iff.mpr hc)),
    hsettled ▸ h.settled_lt, hsettled ▸ h.settled_once, fun before ev after c heq hmade => ?_⟩
  obtain ⟨mid, hold, rfl⟩ | ⟨mid, -, rfl⟩ := split_append heq
  · by_cases hexcused : P.Excused c (trace ++ evs)
    · obtain ⟨x, hx, hexcuses⟩ := hexcused before ev _ heq hmade
      exact .inr (.inr ⟨x, hx, .inl hexcuses⟩)
    · refine (h.account before ev mid c hold hmade).grow (fun hc => .inl (howed hc)) fun hc => ?_
      cases mem_append.mp ((hgone c hc).resolve_right hexcused) with
      | inl hc => exact .inl hc
      | inr hc => exact .inr (.inl ⟨hc, hlate c hc⟩)
  · cases hmade.symm.trans (hevs ev (mem_append_right _ mem_cons_self)).1

theorem quiet (h : P.Ledger owed waiting next trace)
    (hevs : ∀ ev ∈ evs, P.made ev = none ∧ P.kept ev = none)
    (hlate : ∀ c ∈ waiting, ∀ ev ∈ evs, P.late c ev = false) :
    P.Ledger owed waiting next (trace ++ evs) :=
  h.drop hevs (List.Subset.refl _) (.refl _) hlate fun _ hc => .inl (mem_append_right _ hc)

theorem make (h : P.Ledger [] waiting next trace)
    (hev : P.made ev = some c ∧ P.kept ev = none) (hnumber : P.number c = next)
    (hlate : ∀ x ∈ waiting, P.late x ev = false) :
    P.Ledger [] (waiting ++ [c]) (next + 1) (trace ++ [ev]) := by
  have hsettled : P.settled (trace ++ [ev]) = P.settled trace := by
    simp [settled, hev.2]
  refine ⟨?_, fun x hx => ?_, fun n hn => ?_, hsettled ▸ h.settled_once,
    fun before ev' after x heq hmade => ?_⟩
  · rw [nil_append, map_append, map_singleton, ← concat_eq_append, nodup_concat, hnumber]
    refine ⟨fun hmem => ?_, h.once⟩
    obtain ⟨x, hx, heq⟩ := mem_map.mp hmem
    exact Nat.ne_of_lt (h.waits x hx).1 heq
  · rw [hsettled]
    cases mem_append.mp (nil_append _ ▸ hx) with
    | inl hx => exact ⟨Nat.lt_succ_of_lt (h.waits x hx).1, (h.waits x hx).2⟩
    | inr hx =>
      rw [mem_singleton.mp hx, hnumber]
      exact ⟨Nat.lt_succ_self _, fun hmem => Nat.lt_irrefl _ (h.settled_lt _ hmem)⟩
  · rw [hsettled] at hn
    exact Nat.lt_succ_of_lt (h.settled_lt n hn)
  · obtain ⟨mid, hold, rfl⟩ | ⟨mid, -, hnew⟩ := split_append heq
    · refine (h.account before ev' mid x hold hmade).grow nofun fun hx => .inr (.inl ?_)
      exact ⟨mem_append_left _ hx, by simpa using hlate x hx⟩
    · obtain ⟨-, hrest⟩ | ⟨-, hrest⟩ := append_eq_singleton_iff.mp hnew.symm
      · cases hrest
        cases hmade.symm.trans hev.1
        exact .inr (.inl ⟨mem_append_right _ mem_cons_self, forall_mem_nil _⟩)
      · cases hrest

theorem keep (h : P.Ledger (c :: owed) waiting next trace)
    (hev : P.made ev = none ∧ P.kept ev = some (P.number c, P.owner c))
    (hlate : ∀ x ∈ waiting, P.late x ev = false) :
    P.Ledger owed waiting next (trace ++ [ev]) := by
  have hsettled : P.settled (trace ++ [ev]) = P.settled trace ++ [P.number c] := by
    simp [settled, hev.2]
  have hc := h.waits c mem_cons_self
  obtain ⟨hapart, honce⟩ := nodup_cons.mp h.once
  refine ⟨honce, fun x hx => ?_, fun n hn => ?_, ?_, fun before ev' after x heq hmade => ?_⟩
  · have hne : P.number x ≠ P.number c := fun heq => hapart (heq ▸ mem_map_of_mem hx)
    have hx := h.waits x (mem_cons_of_mem _ hx)
    refine ⟨hx.1, ?_⟩
    rw [hsettled, mem_append, mem_singleton]
    exact not_or_intro hx.2 hne
  · rw [hsettled] at hn
    cases mem_append.mp hn with
    | inl hn => exact h.settled_lt n hn
    | inr hn => exact mem_singleton.mp hn ▸ hc.1
  · rw [hsettled, ← concat_eq_append, nodup_concat]
    exact ⟨hc.2, h.settled_once⟩
  · obtain ⟨mid, hold, rfl⟩ | ⟨mid, -, hnew⟩ := split_append heq
    · refine (h.account before ev' mid x hold hmade).grow (fun hx => ?_) fun hx => .inr (.inl ?_)
      · cases mem_cons.mp hx with
        | inl heq => exact .inr ⟨ev, mem_cons_self, .inr (heq ▸ hev.2)⟩
        | inr hx => exact .inl hx
      · exact ⟨hx, by simpa using hlate x hx⟩
    · have hin : ev' ∈ [ev] := hnew ▸ mem_append_right _ mem_cons_self
      cases hmade.symm.trans (mem_singleton.mp hin ▸ hev.1)

theorem kept_apart (h : P.Ledger owed waiting next (before ++ ev :: after)) {p : Nat × ω}
    (hkept : P.kept ev = some p) :
    ∀ x ∈ before ++ after, ∀ q, P.kept x = some q → q.1 ≠ p.1 := by
  rintro x hx q hq heq
  have hmem : p.1 ∈ P.settled (before ++ after) :=
    mem_filterMap.mpr ⟨x, hx, by rw [hq, ← heq]; rfl⟩
  have hhead : P.settled (ev :: after) = p.1 :: P.settled after :=
    filterMap_cons_some (by rw [hkept]; rfl)
  have honce := h.settled_once
  rw [settled_append, hhead, nodup_middle, ← settled_append] at honce
  exact (nodup_cons.mp honce).1 hmem

/-- A promise that was not excused is kept, for its owner, when something has come that is too
late for it. -/
theorem kept_of_late (h : P.Ledger [] waiting next (before ++ ev :: after))
    (hmade : P.made ev = some c) (hexcused : ∀ x ∈ after, P.excuses c x = false)
    (hlate : ∃ x ∈ after, P.late c x) :
    ∃ x ∈ after, P.kept x = some (P.number c, P.owner c) := by
  obtain hc | ⟨-, hnone⟩ | ⟨x, hx, hexcuses | hkept⟩ := h.account before ev after c rfl hmade
  · cases hc
  · obtain ⟨x, hx, hlate⟩ := hlate
    cases hlate.symm.trans (hnone x hx)
  · cases hexcuses.symm.trans (hexcused x hx)
  · exact ⟨x, hx, hkept⟩

end Ledger

end Promises

end Smolmux
