import Smolmux.BootProgress
import Smolmux.Broker.FloodStop
import Smolmux.Broker.ResumeLedger

/-! What the broker announces of a boot. The tracker of the stages, the flags of what has been
announced and the stall timer are looked at and reset from several sides; an account of the
announcements says what may be told when. -/

namespace Smolmux.BootStage
open List

variable {ρ : Type}

def marked (flags : List Bool) (i : Nat) : Bool := flags[i]? == some true

def BootTracker.reached (t : BootTracker ρ) : List Bool := t.stages.map (·.reached)

def BootTracker.announced (t : BootTracker ρ) : List Bool := t.stages.map (·.announced)

section Feeding

variable (regex : Regex ρ) (region : Bytes) (ts : Rat) {t : BootTracker ρ}

theorem marked_iff {flags : List Bool} {i : Nat} : marked flags i ↔ flags[i]? = some true :=
  beq_iff_eq

theorem marked_map_false {γ : Type} (l : List γ) (i : Nat) :
    marked (l.map fun _ => false) i = false :=
  Bool.eq_false_iff.mpr fun h => by simpa using mem_of_getElem? (marked_iff.mp h)

theorem marked_map {γ : Type} {l : List γ} {i : Nat} {x : γ} (h : l[i]? = some x) (f : γ → Bool) :
    marked (l.map f) i = f x := by
  cases hx : f x <;> simp [marked, h, hx]

theorem marked_or_same {flags more : List Bool} {i : Nat}
    (h : (marked more i && !marked flags i) = false) :
    (fun j => marked flags j || (j == i && marked more j)) = marked flags := by
  funext j
  by_cases hj : j = i
  · subst hj
    cases hr : marked more j <;> simp_all
  · simp [hj]

theorem bootTerminalReached_eq (t : BootTracker ρ) :
    bootTerminalReached t = marked t.reached (t.reached.length - 1) := by
  rw [bootTerminalReached, marked, ← getLast?_eq_getElem?, BootTracker.reached,
    getLast?_map]
  cases t.stages.getLast? with
  | none => rfl
  | some s => cases hs : s.reached <;> simp [hs]

theorem any_announced (t : BootTracker ρ) :
    t.stages.any (·.announced) ↔ ∃ i, marked t.announced i := by
  simp only [marked_iff, ← mem_iff_getElem?, BootTracker.announced, mem_map,
    any_eq_true]

theorem reachStages_none (i : Nat) (f : Int) (stages : List (BootStage ρ)) :
    (reachStages regex region ts i f stages).1 = 0 ↔
      ∀ s ∈ stages, (s.look regex region ts).reached = s.reached := by
  induction stages generalizing i f with
  | nil => simp [reachStages]
  | cons s rest ih =>
    rw [reachStages, forall_mem_cons, BootStage.look]
    split
    · simp [ih]
    · dsimp only
      split
      · next hnot hnone => simp_all
      · next hnot off hsome => simp_all

theorem detectReboot_flags (t : BootTracker ρ) :
    ((detectReboot regex t).reached = t.reached ∧ (detectReboot regex t).announced = t.announced) ∨
      ((detectReboot regex t).reached = t.reached.map (fun _ => false) ∧
        (detectReboot regex t).announced = t.reached.map fun _ => false) := by
  unfold detectReboot BootTracker.reached BootTracker.announced
  cases hstages : t.stages with
  | nil => exact .inl (by simp [hstages])
  | cons s rest =>
    dsimp only
    split
    · exact .inl (by simp [hstages])
    · split
      · exact .inl (by simp)
      · exact .inr (by simp [bootReset, Function.comp_def])

theorem bootFeed_flags (hrest : marked t.announced = marked t.reached) (data : Bytes) :
    let fed := bootFeed regex t data ts
    ∃ before, (before = t.reached ∨ before = t.reached.map fun _ => false) ∧
      marked fed.2.announced = marked before ∧ (fed.1 = 0 → fed.2.reached = before) ∧
      (fed.1 ≠ 0 → ∃ i, marked before i = false ∧ marked fed.2.reached i) ∧
      (∀ i, marked before i → marked fed.2.reached i) ∧
      fed.2.reached.length = before.length := by
  unfold bootFeed
  split
  · exact ⟨_, .inl rfl, hrest, fun _ => rfl, fun h => absurd rfl h, fun _ h => h, rfl⟩
  dsimp only
  have hflags := detectReboot_flags regex { t with window := t.window.append data }
  generalize detectReboot regex { t with window := t.window.append data } = t' at hflags ⊢
  generalize t'.window.data.drop (t'.window.searchOffset - 256) = region
  have hkept : ∀ s : BootStage ρ, s.reached → (s.look regex region ts).reached :=
    fun s hs => by rwa [BootStage.look, if_pos hs]
  have hsame : (t'.stages.map (·.look regex region ts)).map (·.announced) = t'.announced := by
    rw [map_map]
    refine map_congr_left fun s _ => ?_
    rw [Function.comp_apply, BootStage.look]
    split <;> rfl
  refine ⟨t'.reached, hflags.imp And.left And.left, ?_, fun hnone => ?_, fun hsome => ?_,
    fun i hi => ?_, ?_⟩
  · rw [BootTracker.announced, reachStages_stages, hsame]
    rcases hflags with ⟨hr, ha⟩ | ⟨hr, ha⟩
    · exact (congrArg marked ha).trans (hrest.trans (congrArg marked hr.symm))
    · exact congrArg marked (ha.trans hr.symm)
  · simp only [BootTracker.reached, reachStages_stages, map_map]
    exact map_congr_left ((reachStages_none ..).mp hnone)
  · rw [Ne, reachStages_none] at hsome
    push Not at hsome
    obtain ⟨s, hs, hnew⟩ := hsome
    obtain ⟨i, hi⟩ := mem_iff_getElem?.mp hs
    have hold : s.reached = false := by
      by_contra h
      exact hnew ((hkept s (Bool.eq_true_of_not_eq_false h)).trans
        (Bool.eq_true_of_not_eq_false h).symm)
    refine ⟨i, (marked_map hi _).trans hold, ?_⟩
    rw [hold] at hnew
    simp [marked, BootTracker.reached, reachStages_stages, hi, Bool.eq_true_of_not_eq_false hnew]
  · simp only [marked_iff, BootTracker.reached, reachStages_stages, getElem?_map] at hi ⊢
    obtain ⟨s, hs, hr⟩ := Option.map_eq_some_iff.mp hi
    simp [hs, hkept s hr]
  · simp [BootTracker.reached, reachStages_stages]

end Feeding

end Smolmux.BootStage

namespace Smolmux.Broker
open BootStage Smolmux.Frame List

variable {ρ α : Type}

/-- What has been told: the stages announced in this boot, and whether a stall has been told
since the last announcement. -/
structure BootAccount where
  told : List Nat
  stalled : Bool

/-- What may be told: a stage once in a boot; a stall once until the next stage, when the link
is up, some stage of this boot has been announced and its last one has not. -/
def BootAccount.hear (count : Nat) (a : BootAccount) : BootNote → Option BootAccount
  | .restarted => some { a with told := [] }
  | .announced i => if i ∈ a.told then none else some ⟨i :: a.told, false⟩
  | .expired _ => some a
  | .stalled up =>
    if up ∧ a.stalled = false ∧ a.told ≠ [] ∧ count - 1 ∉ a.told then
      some { a with stalled := true }
    else none

def bootAccount (count : Nat) (notes : List BootNote) : Option BootAccount :=
  notes.foldlM (BootAccount.hear count) ⟨[], false⟩

def Event.bootNote : Event → Option BootNote
  | .boot note => some note
  | _ => none

def bootNotes (b : Broker ρ) : List BootNote := b.trace.filterMap Event.bootNote

structure BootView where
  reached : List Bool
  announced : List Bool
  furthest : Int
  notified : Bool

def bootView (b : Broker ρ) : BootView :=
  ⟨b.boot.reached, b.boot.announced, b.boot.furthest, b.stallNotified⟩

structure Heard (count : Nat) (notes : List BootNote) (announced : List Bool)
    (a : BootAccount) : Prop where
  heard : bootAccount count notes = some a
  told : ∀ i, i ∈ a.told ↔ marked announced i = true

/-- Between two operations the stages reached have been announced, and no stall is told again. -/
structure Settled (count : Nat) (notes : List BootNote) (v : BootView) (up : Bool)
    (a : BootAccount) : Prop extends Heard count notes v.announced a where
  rest : marked v.announced = marked v.reached
  furthest : Furthest v.reached v.furthest
  length : v.reached.length = count
  quiet : a.stalled = true → v.notified = true ∨ v.furthest < 0 ∨
    marked v.reached (v.reached.length - 1) = true ∨ up = false

section Accounts

variable {count i : Nat} {notes : List BootNote} {reached announced announced' : List Bool}
  {a : BootAccount} {v : BootView} {up : Bool}

theorem bootAccount_snoc (note : BootNote) (h : bootAccount count notes = some a) :
    bootAccount count (notes ++ [note]) = a.hear count note := by
  have h : notes.foldlM (BootAccount.hear count) ⟨[], false⟩ = some a := h
  rw [bootAccount, foldlM_append, h]
  simp

theorem Settled.stall (h : Settled count notes v true a) (hnotified : v.notified = false)
    (hfurthest : 0 ≤ v.furthest) (hlast : marked v.reached (v.reached.length - 1) = false) :
    Settled count (notes ++ [.stalled true]) { v with notified := true } true
      { a with stalled := true } := by
  have hquiet : a.stalled = false := by
    by_contra hstalled
    have hq := h.quiet (Bool.eq_true_of_not_eq_false hstalled)
    rw [hnotified, hlast] at hq
    simp at hq
    omega
  have hsome : a.told ≠ [] := by
    rcases h.furthest.2 with hnone | ⟨j, -, hj⟩
    · omega
    · exact ne_nil_of_mem ((h.told j).mpr (h.rest ▸ marked_iff.mpr hj))
  have hnot : count - 1 ∉ a.told := by
    rw [h.told, h.rest, ← h.length, hlast]
    exact Bool.false_ne_true
  refine ⟨⟨?_, h.told⟩, h.rest, h.furthest, h.length, fun _ => .inl rfl⟩
  rw [bootAccount_snoc _ h.heard]
  exact if_pos ⟨rfl, hquiet, hsome, hnot⟩

theorem Heard.announce (h : Heard count notes announced a)
    (hnew : marked announced' = fun j => marked announced j || (j == i && marked reached j)) :
    ∃ a', Heard count (notes ++ if marked reached i && !marked announced i then [.announced i]
      else []) announced' a' ∧ (a'.stalled → a.stalled ∧
        marked announced' = marked announced) := by
  split
  · next hfresh =>
    simp only [Bool.and_eq_true, Bool.not_eq_true'] at hfresh
    have hout : i ∉ a.told := by
      rw [h.told, hfresh.2]
      exact Bool.false_ne_true
    refine ⟨⟨i :: a.told, false⟩, ⟨?_, fun j => ?_⟩, nofun⟩
    · rw [bootAccount_snoc _ h.heard]
      exact if_neg hout
    · rw [mem_cons, h.told, hnew]
      by_cases hj : j = i
      · simp [hj, hfresh.1]
      · simp [hj]
  · next hold =>
    have hsame : marked announced' = marked announced :=
      hnew.trans (marked_or_same (Bool.eq_false_iff.mpr hold))
    exact ⟨a, ⟨by rw [append_nil, h.heard], hsame ▸ h.told⟩, fun hs => ⟨hs, hsame⟩⟩

end Accounts

abbrev BootTells (e : Env ρ) (p : M ρ α) (R : α → List BootNote → BootView → Prop) (v : BootView) :
    Prop :=
  TellsAt Broker.bootView Broker.bootNotes e p R v

variable {S : Sector → Bool} {p : M ρ α}

section Telling

variable {e : Env ρ} {b b' : Broker ρ} {R : Unit → List BootNote → BootView → Prop} {v : BootView}

theorem boot_of_still (h : Still (only .boot) b b') :
    b'.bootView = b.bootView ∧ b'.bootNotes = b.bootNotes := by
  obtain ⟨hboot, hnotified⟩ := Prod.mk.inj (h.part .boot rfl)
  have hnotes : ∀ b : Broker ρ, b.bootNotes = (b.about (only .boot)).filterMap Event.bootNote := by
    intro b
    rw [Broker.bootNotes, Broker.about, filterMap_filter]
    refine filterMap_congr fun ev _ => ?_
    cases ev with
    | boot note => rfl
    | _ => split <;> rfl
  rw [Broker.bootView, hboot, hnotified, hnotes, hnotes, h.told]
  exact ⟨rfl, rfl⟩

theorem bootTells_aside (hS : S .boot = false) (hp : (moves S).Keeps p)
    {R : α → List BootNote → BootView → Prop} (h : ∀ a, R a [] v) : BootTells e p R v := by
  refine tells_unchanged ((hp.at e).mono fun b b' hrel => ?_) h
  have hsame := boot_of_still (hrel.still (apart_only hS))
  exact Prod.ext hsame.1 hsame.2

theorem bootTells_emit {note : BootNote} (h : R () [note] v) :
    BootTells e (emit (.boot note)) R v := by
  rintro b rfl
  exact ⟨[note], filterMap_append, h⟩

theorem bootTells_modify {f : Broker ρ → Broker ρ} (w : BootView)
    (htrace : ∀ b, (f b).trace = b.trace) (hview : ∀ b, b.bootView = v → (f b).bootView = w)
    (h : R () [] w) : BootTells e (Proc.modify f) R v := by
  intro b hb
  refine ⟨[], ?_, (hview b hb).symm ▸ h⟩
  rw [append_nil]
  exact congrArg (List.filterMap Event.bootNote) (htrace b)

theorem bootTells_announceStage (i : Nat)
    (h : ∀ announced, marked announced =
        (fun j => marked v.announced j || (j == i && marked v.reached j)) →
      R () (if marked v.reached i && !marked v.announced i then [.announced i] else [])
        { v with announced := announced }) : BootTells e (announceStage i) R v := by
  have hold : (marked v.reached i && !marked v.announced i) = false → R () [] v := by
    intro hold
    have hsame := h v.announced (marked_or_same hold).symm
    rwa [hold] at hsame
  refine tells_get ?_
  rintro b rfl
  split
  · next hnone => exact tells_pure (hold (by simp [marked, Broker.bootView, BootTracker.reached, hnone]))
  · next st hst =>
    have hreached : marked b.bootView.reached i = st.reached := marked_map hst _
    have hannounced : marked b.bootView.announced i = st.announced := marked_map hst _
    rw [hreached, hannounced] at hold h
    refine tells_ite (fun hfresh => ?_) fun hnot => tells_pure (hold (by simpa using hnot))
    rw [hfresh.1, hfresh.2] at h
    obtain ⟨hlt, hget⟩ := List.getElem?_eq_some_iff.mp hst
    have hkeep : b.bootView.reached.set i st.reached = b.bootView.reached := by
      refine ext_getElem? fun j => ?_
      rw [getElem?_set]
      split
      · next hj => simp [Broker.bootView, BootTracker.reached, ← hj, hlt, hget]
      · rfl
    refine tells_bind (bootTells_modify { b.bootView with
      announced := b.bootView.announced.set i true } (fun _ => rfl) (fun b₁ h₁ => ?_) ?_)
    · rw [← h₁] at hkeep ⊢
      simpa [Broker.bootView, BootTracker.reached, BootTracker.announced, map_set] using hkeep
    refine tells_bind (bootTells_emit (bootTells_aside rfl (plain_broadcast ..) fun _ => ?_))
    refine h _ (funext fun j => ?_)
    by_cases hj : j = i
    · subst hj
      rw [hreached, hfresh.1]
      simp [marked, Broker.bootView, BootTracker.announced, hlt]
    · simp [marked, Ne.symm hj, hj]

theorem bootTells_announceStages (count : Nat) (l : List Nat) (v : BootView) :
    BootTells (ρ := ρ) e (Proc.each announceStage l) (fun _ notes w =>
      w = { v with announced := w.announced } ∧
      marked w.announced =
        (fun j => marked v.announced j || (l.contains j && marked v.reached j)) ∧
      ∀ pre a, Heard count pre v.announced a →
        ∃ a', Heard count (pre ++ notes) w.announced a' ∧ (a'.stalled → a.stalled ∧
          marked w.announced = marked v.announced)) v := by
  induction l generalizing v with
  | nil =>
    refine tells_pure ⟨rfl, funext fun j => by simp, fun pre a h =>
      ⟨a, (append_nil pre).symm ▸ h, fun hs => ⟨hs, rfl⟩⟩⟩
  | cons i l ih =>
    refine tells_bind (bootTells_announceStage i fun announced hnew => ?_)
    refine (ih _).mono fun _ notes w hw => ?_
    obtain ⟨hview, hmarked, hheard⟩ := hw
    refine ⟨hview, ?_, fun pre a h => ?_⟩
    · rw [hmarked]
      dsimp only
      rw [hnew]
      funext j
      rw [contains_cons, Bool.or_assoc, Bool.and_or_distrib_right]
    · obtain ⟨a₁, h₁, hsame₁⟩ := h.announce hnew
      obtain ⟨a₂, h₂, hsame₂⟩ := hheard _ a₁ h₁
      refine ⟨a₂, append_assoc pre _ _ ▸ h₂, fun hs => ?_⟩
      obtain ⟨hs₁, hm₁⟩ := hsame₂ hs
      obtain ⟨hs₂, hm₂⟩ := hsame₁ hs₁
      exact ⟨hs₂, hm₁.trans hm₂⟩

theorem bootTells_stallArm (h : ∀ notified, R () [] { v with notified := notified }) :
    BootTells e stallArm R v := by
  refine tells_get fun _ _ => tells_ite (fun _ => tells_pure (h _)) fun _ => ?_
  refine tells_bind (bootTells_aside rfl (keeps_unless fun _ => plain_timerEnsure) fun made => ?_)
  refine tells_bind (bootTells_modify v (fun _ => rfl) (fun _ h => h) ?_)
  refine tells_ite (fun _ => bootTells_modify { v with notified := false } (fun _ => rfl) ?_ (h _))
    fun _ => tells_pure (h _)
  rintro b rfl
  rfl

variable {count : Nat} {a : BootAccount} {up : Bool} {pre : List BootNote}

/-- What a feed finds is accounted for, once a reboot has been noted. -/
theorem Settled.feed (h : Settled count pre b.bootView up a) {before : List Bool}
    {t : BootTracker ρ} {w : BootView} (hbefore : before = b.boot.reached ∨
      before = b.boot.reached.map fun _ => false) (hann : marked t.announced = marked before) :
    BootTells e (Proc.when (b.boot.stages.any (·.announced) ∧ ¬ t.stages.any (·.announced))
      (emit (.boot .restarted))) (fun _ notes v => v = w ∧
        ∃ a', Heard count (pre ++ notes) t.announced a' ∧ a'.stalled = a.stalled) w := by
  have hrest : marked b.boot.announced = marked b.boot.reached := h.rest
  refine tells_when (fun hreboot => bootTells_emit ⟨rfl, { a with told := [] }, ?_, rfl⟩)
    fun hsame => ⟨rfl, a, ⟨by rw [append_nil, h.heard], fun i => (h.told i).trans ?_⟩, rfl⟩
  · refine ⟨bootAccount_snoc _ h.heard, fun i => iff_of_false nofun fun hi => ?_⟩
    exact hreboot.2 ((any_announced t).mpr ⟨i, hi⟩)
  · change marked b.boot.announced i ↔ _
    rcases hbefore with rfl | rfl
    · rw [hrest, hann]
    · have hnone : ∀ j, marked t.announced j = false := fun j => by
        rw [hann, marked_map_false]
      rw [any_announced, any_announced] at hsame
      simp only [hnone, Bool.false_eq_true, exists_false, not_false_eq_true, and_true] at hsame ⊢
      exact iff_false_intro fun hi => hsame ⟨i, hi⟩

theorem settled_feedBoot (buf : Bytes) (ts : Rat)
    (h : Settled count pre v up a) : BootTells e (feedBoot buf ts) (fun _ notes w =>
      ∃ a', Settled count (pre ++ notes) w up a') v := by
  refine tells_env (tells_get ?_)
  rintro b rfl
  obtain ⟨before, hbefore, hann, hnone, hsome, hmore, hlen⟩ := bootFeed_flags e.regex ts h.rest buf
  have hfurthest := furthest_bootFeed e.regex ts h.furthest buf
  have hlength : before.length = count := by
    rcases hbefore with rfl | rfl
    · exact h.length
    · exact (length_map _).trans h.length
  generalize bootFeed e.regex b.boot buf ts = fed at *
  refine tells_bind (bootTells_modify ⟨fed.2.reached, fed.2.announced, fed.2.furthest,
    b.bootView.notified⟩ (fun _ => rfl) (fun b₁ h₁ => h₁ ▸ rfl) (tells_bind ?_))
  refine (h.feed hbefore hann).mono fun _ notes v hv => ?_
  obtain ⟨rfl, a₁, hheard, hstalled⟩ := hv
  refine tells_ite (fun hpos => ?_) fun hzero => ?_
  · refine tells_bind ((bootTells_announceStages count _ _).mono fun _ notes₂ v₂ hv₂ => ?_)
    obtain ⟨hv₂, hmarked, hheard₂⟩ := hv₂
    dsimp only at hv₂ hmarked hheard₂
    have hall : marked v₂.announced = marked fed.2.reached := by
      rw [hmarked]
      funext j
      cases hr : marked fed.2.reached j with
      | true =>
        have hj := (List.getElem?_eq_some_iff.mp (marked_iff.mp hr)).1
        rw [BootTracker.reached, length_map] at hj
        simp [hj]
      | false =>
        have hj : marked before j = false := Bool.eq_false_iff.mpr fun hj =>
          Bool.false_ne_true (hr.symm.trans (hmore j hj))
        simp [hann, hj]
    obtain ⟨a₂, hheard₂, hsame⟩ := hheard₂ _ a₁ hheard
    -- a stall told before is over, since something has been announced
    have hquiet : a₂.stalled = false := by
      by_contra hs
      obtain ⟨i, hold, hnew⟩ := hsome hpos.ne'
      rw [← hall, (hsame (Bool.eq_true_of_not_eq_false hs)).2, hann, hold] at hnew
      cases hnew
    have hend : ∀ notified, Settled count (pre ++ (notes ++ (notes₂ ++ [])))
        { v₂ with notified := notified } up a₂ := by
      intro notified
      rw [append_nil, ← append_assoc]
      have hreached : v₂.reached = fed.2.reached := by rw [hv₂]
      have hfar : v₂.furthest = fed.2.furthest := by rw [hv₂]
      refine ⟨hheard₂, hall.trans (by rw [hreached]), ?_, ?_, fun hs => ?_⟩
      · exact hreached.symm ▸ hfar.symm ▸ hfurthest
      · exact (congrArg List.length hreached).trans (hlen.trans hlength)
      · exact absurd (hquiet.symm.trans hs) Bool.false_ne_true
    exact tells_ite (fun _ => bootTells_modify { v₂ with notified := false } (fun _ => rfl)
      (fun _ h => h ▸ rfl) ⟨a₂, hend false⟩) fun _ =>
        bootTells_stallArm fun notified => ⟨a₂, hend notified⟩
  · refine tells_pure ⟨a₁, ?_⟩
    have hzero := hnone (Nat.eq_zero_of_not_pos hzero)
    refine ⟨⟨(append_nil notes).symm ▸ hheard.heard, hheard.told⟩, hann.trans (by rw [hzero]),
      hfurthest, hlen.trans hlength, fun hs => ?_⟩
    have hfurthest : Furthest fed.2.reached fed.2.furthest := hfurthest
    dsimp only
    rw [hzero] at hfurthest ⊢
    rcases hbefore with rfl | rfl
    · rw [hfurthest.unique h.furthest]
      exact h.quiet (hstalled ▸ hs)
    · rcases hfurthest.2 with hnothing | ⟨j, -, hj⟩
      · exact .inr (.inl (by omega))
      · exact absurd ((marked_map_false ..).symm.trans (marked_iff.mpr hj)) Bool.false_ne_true

def BootView.fresh (v : BootView) : BootView :=
  ⟨v.reached.map fun _ => false, v.reached.map fun _ => false, -1, false⟩

theorem bootTells_linkBringUp (h : R () [.restarted] v.fresh) :
    BootTells e (linkBringUp up) R v := by
  refine tells_env (tells_bind (bootTells_aside (S := (· == .wire)) rfl (moves_watchLink rfl)
    fun _ => ?_))
  refine tells_bind (bootTells_aside rfl (plain_ask _) fun _ => ?_)
  refine tells_bind (bootTells_aside rfl (plain_ask _) fun _ => ?_)
  refine tells_bind (bootTells_modify { v.fresh with notified := v.notified } (fun _ => rfl) ?_ ?_)
  · rintro b rfl
    simp [BootView.fresh, Broker.bootView, BootTracker.reached, BootTracker.announced, bootRestart,
      bootReset, Function.comp_def]
  refine tells_bind (bootTells_emit (tells_get fun _ _ => tells_bind (bootTells_aside
    (p := emit (.linkUp _)) (S := (· == .stage)) rfl (moves_note rfl (fun _ => trivial) rfl)
      fun _ => ?_)))
  refine tells_bind (bootTells_modify v.fresh (fun _ => rfl) (fun b hb => ?_) ?_)
  · exact congrArg (fun w : BootView => { w with notified := false }) hb
  refine tells_bind (bootTells_modify v.fresh (fun _ => rfl) (fun _ h => h) ?_)
  refine tells_bind (bootTells_aside (S := (· == .history)) rfl (moves_historyFence rfl _)
    fun _ => tells_bind (bootTells_aside (S := (· == .stage)) rfl
      (moves_brokerRecordIdentity rfl) fun _ => ?_))
  exact tells_ite (fun _ => bootTells_aside (S := (· == .stage)) rfl (moves_announceUp rfl)
    fun _ => h) fun _ => tells_pure h

end Telling

def announcing (count : Nat) : Frame (Broker ρ) where
  rel b b' := b.bootNotes <+: b'.bootNotes ∧ (.expired true ∉ b'.bootNotes →
    (∃ a, Settled count b.bootNotes b.bootView b.isUp a) →
      ∃ a, Settled count b'.bootNotes b'.bootView b'.isUp a)
  refl _ := ⟨prefix_rfl, fun _ h => h⟩
  trans h h' := ⟨h.1.trans h'.1, fun hcalm hb =>
    h'.2 hcalm (h.2 (fun hmem => hcalm (h'.1.subset hmem)) hb)⟩

section Announcing

variable {e : Env ρ} {b b' : Broker ρ} {count : Nat}

theorem isUp_of_stage (h : b'.stage = b.stage) : b'.isUp = b.isUp := by
  simp only [Broker.stage, Stage.mk.injEq] at h
  rw [Broker.isUp, h.1, h.2.1, h.2.2.1, Broker.isUp]

theorem announcing_of_moves (hmoves : Moves S b b')
    (h : .expired true ∉ b'.bootNotes → ∀ a, Settled count b.bootNotes b.bootView b.isUp a →
      ∃ a', Settled count b'.bootNotes b'.bootView b'.isUp a') : (announcing count).rel b b' := by
  refine ⟨?_, fun hcalm ⟨a, ha⟩ => h hcalm a ha⟩
  obtain ⟨evs, htrace, -⟩ := hmoves.calm.trace
  rw [Broker.bootNotes, Broker.bootNotes, htrace, filterMap_append]
  exact prefix_append ..

theorem announcing_of_still (h : Still (only .boot) b b') (hup : b'.isUp = b.isUp) :
    (announcing count).rel b b' := by
  obtain ⟨hview, hnotes⟩ := boot_of_still h
  refine ⟨hnotes ▸ prefix_rfl, fun _ hb => ?_⟩
  rwa [hview, hnotes, hup]

theorem announcing_down (hS : S .boot = false) (hp : (moves S).Keeps p) {notified : Bool}
    (h : LinkTells e p (fun _ _ c => c.stage.suspended ∨ c.stage.linkDisconnected ∨
      c.stage.linkConnecting) b.wiring) :
    (announcing count).rel b (p e { b with stallNotified := notified }).2 := by
  have hset := (moves_setBoot (S := fun s => S s || s == .boot) (by simp) fun b =>
    (b.boot, notified)).rel e b
  have hmoves := hp.rel e { b with stallNotified := notified }
  refine announcing_of_moves ((moves _).trans hset (hmoves.mono fun s hs => by simp [hs]))
    fun _ a ha => ⟨a, ?_⟩
  obtain ⟨hview, hnotes⟩ := boot_of_still (hmoves.still (apart_only hS))
  rw [hview, hnotes]
  refine ⟨⟨ha.heard, ha.told⟩, ha.rest, ha.furthest, ha.length, fun _ => .inr (.inr (.inr ?_))⟩
  obtain ⟨_, -, hstage⟩ := h { b with stallNotified := notified } rfl
  generalize (p e { b with stallNotified := notified }).2 = b' at hstage
  obtain h | h | h : b'.suspended ∨ b'.linkDisconnected ∨ b'.linkConnecting :=
    hstage <;> simp [Broker.isUp, h]

theorem announcing_restart (hp : (moves S).KeepsAt e p)
    (h : BootTells e p (fun _ notes v => notes = [.restarted] ∧ v = b.bootView.fresh) b.bootView) :
    (announcing count).rel b (p e b).2 := by
  refine announcing_of_moves (hp.rel b) fun _ a ha => ?_
  obtain ⟨notes, htold, rfl, hview⟩ := h b rfl
  rw [htold, hview]
  refine ⟨{ a with told := [] }, ⟨bootAccount_snoc _ ha.heard, fun i => ?_⟩, rfl,
    furthest_none (by simp [BootView.fresh]), (length_map _).trans ha.length,
    fun _ => .inr (.inl (show (-1 : Int) < 0 by decide))⟩
  rw [BootView.fresh, marked_map_false]
  exact iff_of_false nofun Bool.false_ne_true

theorem opening_announcing (e : Env ρ) (count : Nat) : Opening e (announcing count) where
  wire b b' h := announcing_of_still (h.still (apart_only rfl))
    (Broker.isUp_of_stage (h.part .stage rfl))
  entered := ⟨fun b => announcing_of_still
    (((moves_stageNote (S := linkSide) rfl _).rel e b).still (apart_only rfl)) rfl⟩
  later := ⟨fun b => announcing_down (S := linkSide) rfl (moves_resumeLater rfl rfl)
    (tells_resumeLater fun _ _ _ => .inr (.inr rfl))⟩
  watch owner := ⟨fun b => announcing_down (S := linkSide) rfl
    (moves_linkWatchConnecting rfl rfl owner) (tells_linkWatchConnecting fun _ _ _ => .inr (.inr rfl))⟩
  giveUp := ⟨fun b => announcing_down (S := linkSide) rfl (moves_linkConnectGiveUp rfl rfl)
    (tells_linkConnectGiveUp fun _ _ => .inr (.inl (by unfold Stage.gaveUp; split <;> rfl)))⟩
  bringUp up := ⟨fun b => announcing_restart (S := fun _ => true)
    ((opening_moves rfl rfl rfl rfl e).bringUp up) (bootTells_linkBringUp ⟨rfl, rfl⟩)⟩
  now := by
    refine ⟨fun b => announcing_restart (S := fun _ => true)
      (opening_moves rfl rfl rfl rfl e).now ?_⟩
    exact tells_bind (bootTells_modify _ (fun _ => rfl) (fun _ h => h) (tells_bind
      (bootTells_linkBringUp (tells_get fun _ _ => tells_bind (bootTells_aside rfl
        (plain_broadcast ..) fun _ => tells_pure ⟨rfl, rfl⟩)))))

theorem announcing_stallTimer : (announcing count).rel b (handleStallTimer e b).2 := by
  have hmoves := moves_run .stallTimer e b
  refine announcing_of_moves hmoves fun hcalm a ha => ?_
  have hup : (handleStallTimer e b).2.isUp = b.isUp := Broker.isUp_of_stage (hmoves.part .stage rfl)
  have hexpired : Settled count (b.bootNotes ++ [.expired b.linkConnecting]) b.bootView b.isUp a :=
    { ha with heard := bootAccount_snoc _ ha.heard }
  have htells : Tells Broker.bootView Broker.bootNotes e handleStallTimer (fun _ notes v =>
      .expired true ∉ notes → ∃ a', Settled count (b.bootNotes ++ notes) v b.isUp a') b := by
    refine tells_read (tells_bind (bootTells_emit ?_))
    refine tells_ite (fun _ => tells_pure fun _ => ⟨a, hexpired⟩) fun hready => ?_
    refine tells_ite (fun _ => tells_pure fun _ => ⟨a, hexpired⟩) fun hstuck => ?_
    refine tells_bind (bootTells_modify { b.bootView with notified := true } (fun _ => rfl)
      (fun _ h => congrArg (fun v : BootView => { v with notified := true }) h)
        (tells_bind (bootTells_emit ?_)))
    refine bootTells_aside rfl (plain_broadcast ..) fun _ hquiet => ⟨{ a with stalled := true }, ?_⟩
    have hconnecting : b.linkConnecting = false := by
      cases hc : b.linkConnecting with
      | false => rfl
      | true => exact absurd (hc ▸ mem_cons_self) hquiet
    push Not at hready hstuck
    simp only [ne_eq, Bool.not_eq_true] at hready hstuck
    have hisUp : b.isUp := by simp [Broker.isUp, hready, hconnecting]
    rw [hisUp] at hexpired ⊢
    have hstall := hexpired.stall hready.1 hstuck.1 (bootTerminalReached_eq b.boot ▸ hstuck.2)
    rwa [append_assoc] at hstall
  obtain ⟨notes, htold, hsettled⟩ := htells
  rw [htold] at hcalm ⊢
  rw [hup]
  exact hsettled fun hmem => hcalm (mem_append_right _ hmem)

theorem loopFrame_announcing (e : Env ρ) (count : Nat) : LoopFrame e (announcing count) := by
  refine loopFrame_of_still (T := fun s => only .boot s || s == .stage) rfl rfl
    (fun b => announcing_of_still ((moves_replugged b).still (apart_only rfl)) rfl)
    (fun b b' h => ?_) fun op b _ hapart _ => ?_
  · exact announcing_of_still (h.mono fun s hs => by simp [hs])
      (Broker.isUp_of_stage (h.part .stage rfl))
  · have o := opening_announcing e count
    have hmoves := moves_run op e b
    cases op with
    | suspend =>
      exact announcing_down (S := fun s => s == .stage || s == .wire || s == .expect) rfl
        (moves_linkSuspend rfl rfl rfl) (tells_linkSuspend fun _ _ => .inl rfl)
    | lost =>
      exact announcing_down (S := linkSide) rfl (moves_linkLost rfl rfl)
        (tells_linkLost fun _ _ => .inr (.inl rfl))
    | resume => exact o.brokerDoResume.rel b
    | reconnect => exact o.attemptReconnect.rel b
    | connecting flags => exact (o.handleLinkConnecting flags).rel b
    | nameResume rid =>
      have hup : (unchanged Broker.isUp).Keeps (nameResume rid : M ρ Unit) :=
        keeps_get fun _ => keeps_when fun _ =>
          keeps_bind ⟨fun _ _ => rfl⟩ fun _ => ⟨fun _ _ => rfl⟩
      exact announcing_of_still (hmoves.still (apart_only rfl)) (hup.rel e b)
    | deadline =>
      exact (keepsAt_get fun _ => keepsAt_if (fun _ => keepsAt_bind (o.plain (plain_ask _))
        fun _ => keepsAt_if (fun _ => o.giveUp)) :
          (announcing count).KeepsAt e checkConnectDeadline).rel b
    | feedBoot buf ts =>
      refine announcing_of_moves hmoves fun _ a ha => ?_
      obtain ⟨notes, htold, hsettled⟩ := settled_feedBoot (e := e) buf ts ha b rfl
      have hup := Broker.isUp_of_stage (hmoves.part .stage rfl)
      rw [hup]
      exact htold ▸ hsettled
    | stallTimer => exact announcing_stallTimer
    | _ => exact absurd (apart_of_all rfl) hapart

/-- Whatever happens to a broker whose boot has not begun, the furthest stage is the last one
reached, the stages reached have been announced once in their boot, and stalls are told as they
may be, unless the stall timer is heard while a connect is under way. -/
theorem boot_announced_in_order (e : Env ρ) (regex : Regex ρ) (cfg : Config) (t : BootTracker ρ)
    (ht : ∀ s ∈ t.stages, s.reached = false ∧ s.announced = false) (hfurthest : t.furthest = -1)
    (steps : List Step)
    (hcalm : .boot (.expired true) ∉
      (runSteps e { brokerInit regex cfg with boot := t } steps).trace) :
    let b := runSteps e { brokerInit regex cfg with boot := t } steps
    Furthest b.boot.reached b.boot.furthest ∧
      ∃ a, bootAccount t.stages.length b.bootNotes = some a ∧
        ∀ i, i ∈ a.told ↔ b.boot.reached[i]? = some true := by
  intro b
  have hstart : Settled t.stages.length [] ⟨t.reached, t.announced, t.furthest, false⟩ true
      ⟨[], false⟩ := by
    have hreached : t.reached = t.stages.map fun _ => false :=
      map_congr_left fun s hs => (ht s hs).1
    have hannounced : t.announced = t.stages.map fun _ => false :=
      map_congr_left fun s hs => (ht s hs).2
    rw [hreached, hannounced, hfurthest]
    refine ⟨⟨rfl, fun i => ?_⟩, rfl, furthest_none (by simp), length_map _, nofun⟩
    rw [marked_map_false]
    exact iff_of_false nofun Bool.false_ne_true
  have hcalm' : .expired true ∉ b.bootNotes := by
    intro hmem
    obtain ⟨ev, hev, hnote⟩ := mem_filterMap.mp hmem
    cases ev with
    | boot note =>
      cases hnote
      exact hcalm hev
    | _ => cases hnote
  obtain ⟨a, ha⟩ := ((loopFrame_announcing e t.stages.length).runSteps _ steps).2 hcalm' ⟨_, hstart⟩
  exact ⟨ha.furthest, a, ha.heard, fun i => (ha.told i).trans (ha.rest ▸ marked_iff)⟩

def bootingAfter (more : List Step) : Broker Bytes :=
  runSteps { wordEnv with linkKind := (asyncEnv fun _ => 1).linkKind, rc := fun _ => 1 }
    { brokerInit wordEnv.regex (plainConfig []) with boot := letterTracker }
    ([.event (.listen (plainReg 1)), .message 1 (helloMsg "a" []), outputStep "a"] ++ more)

theorem boot_announced_in_order_stalled :
    let b := bootingAfter
      [.event .stallTimer, .event .stallTimer, outputStep "b", .event .stallTimer]
    (Furthest b.boot.reached b.boot.furthest ∧ ∃ a, bootAccount 2 b.bootNotes = some a ∧
      ∀ i, i ∈ a.told ↔ b.boot.reached[i]? = some true) ∧
    b.bootNotes = [.announced 0, .expired false, .stalled true, .expired false, .announced 1,
      .expired false] := by
  intro b
  have hnotes : b.bootNotes = [.announced 0, .expired false, .stalled true, .expired false,
      .announced 1, .expired false] := by decide +kernel
  refine ⟨boot_announced_in_order _ _ _ letterTracker (by decide +kernel) rfl _ fun hmem => ?_,
    hnotes⟩
  have hnote : .expired true ∈ b.bootNotes := mem_filterMap.mpr ⟨_, hmem, rfl⟩
  rw [hnotes] at hnote
  exact absurd hnote (by decide)

/-- A suspend and a resume that has to wait for its connect come before an event of the stall
timer that is reported with them: a stall is told while there is no link. -/
theorem stall_told_without_link :
    let b := bootingAfter
      [.message 1 ⟨.suspend, none⟩, .message 1 (resumeMsg "r"), .event .stallTimer]
    b.bootNotes = [.announced 0, .expired true, .stalled false] ∧ b.linkConnecting = true ∧
      bootAccount 2 b.bootNotes = none := by
  decide +kernel

end Announcing

end Smolmux.Broker
