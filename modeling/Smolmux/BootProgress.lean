import Smolmux.BootStage
import Smolmux.Window

/-! What the boot tracker makes of a stream. The furthest stage is always the last one reached.
The stages reached are those whose markers stand in the part of the stream the tracker goes by,
which begins anew where it takes the device to have rebooted; where that is depends on the
chunks. -/

namespace Smolmux.BootStage
open Lookback List

variable {ρ : Type}

def Furthest (flags : List Bool) (f : Int) : Prop :=
  (∀ j : Nat, flags[j]? = some true → j ≤ f) ∧ (f = -1 ∨ ∃ j : Nat, f = j ∧ flags[j]? = some true)

theorem Furthest.unique {flags : List Bool} {f g : Int} (hf : Furthest flags f)
    (hg : Furthest flags g) : f = g := by
  rcases hf.2 with rfl | ⟨i, rfl, hi⟩ <;> rcases hg.2 with rfl | ⟨j, rfl, hj⟩
  · rfl
  · have := hf.1 j hj
    omega
  · have := hg.1 i hi
    omega
  · exact le_antisymm (hg.1 i hi) (hf.1 j hj)

theorem furthest_none {flags : List Bool} (h : true ∉ flags) : Furthest flags (-1) :=
  ⟨fun _ hj => absurd (mem_of_getElem? hj) h, .inl rfl⟩

theorem Furthest.reach {front back : List Bool} {f : Int}
    (h : Furthest (front ++ false :: back) f) :
    Furthest (front ++ true :: back) (max f front.length) := by
  have hsame : ∀ j, j ≠ front.length →
      (front ++ true :: back)[j]? = (front ++ false :: back)[j]? := by
    intro j hj
    rw [getElem?_append, getElem?_append]
    split
    · rfl
    · rw [getElem?_cons, getElem?_cons, if_neg (by omega), if_neg (by omega)]
  refine ⟨fun j hj => ?_, .inr ?_⟩
  · by_cases hlast : j = front.length
    · omega
    · rw [hsame j hlast] at hj
      exact (h.1 j hj).trans (le_max_left _ _)
  · rcases le_total f front.length with hle | hle
    · exact ⟨front.length, max_eq_right hle, by simp⟩
    · rcases h.2 with rfl | ⟨j, rfl, hj⟩
      · omega
      · refine ⟨j, max_eq_left hle, ?_⟩
        rw [hsame j (by rintro rfl; simp at hj), hj]

section Look

variable (regex : Regex ρ) (region : Bytes) (ts : Rat)

def look (s : BootStage ρ) : BootStage ρ :=
  if s.reached then s
  else
    let found := regex.exec s.compiled region
    { s with
      compiled := found.2
      reached := found.1.isSome
      reachedTs := if found.1.isSome then ts else s.reachedTs }

theorem reachStages_stages (i : Nat) (f : Int) (stages : List (BootStage ρ)) :
    (reachStages regex region ts i f stages).2.1 = stages.map (·.look regex region ts) := by
  induction stages generalizing i f with
  | nil => rfl
  | cons s rest ih =>
    rw [reachStages, map_cons, BootStage.look]
    split
    · exact congrArg (s :: ·) (ih ..)
    · next hnot =>
      have hreached : s.reached = false := by simpa using hnot
      dsimp only
      cases (regex.exec s.compiled region).1 with
      | none => exact congrArg₂ (· :: ·) (by rw [hreached]; rfl) (ih ..)
      | some off => exact congrArg₂ (· :: ·) rfl (ih ..)

theorem furthest_reachStages (front : List Bool) {f : Int} {stages : List (BootStage ρ)}
    (h : Furthest (front ++ stages.map (·.reached)) f) :
    Furthest (front ++ (stages.map (·.look regex region ts)).map (·.reached))
      (reachStages regex region ts front.length f stages).2.2 := by
  induction stages generalizing front f with
  | nil => exact h
  | cons s rest ih =>
    have hnext : ∀ flag g, Furthest (front ++ flag :: rest.map (·.reached)) g →
        Furthest (front ++ flag :: (rest.map (·.look regex region ts)).map (·.reached))
          (reachStages regex region ts (front.length + 1) g rest).2.2 := by
      intro flag g hg
      simpa using ih (front ++ [flag]) (by simpa using hg)
    rw [map_cons] at h
    rw [reachStages, map_cons, map_cons, BootStage.look]
    split
    · exact hnext s.reached f h
    · next hnot =>
      rw [show s.reached = false by simpa using hnot] at h
      dsimp only
      cases (regex.exec s.compiled region).1 with
      | none => exact hnext false f h
      | some off => exact hnext true _ h.reach

theorem furthest_bootFeed {t : BootTracker ρ}
    (h : Furthest (t.stages.map (·.reached)) t.furthest) (data : Bytes) :
    let t' := (bootFeed regex t data ts).2
    Furthest (t'.stages.map (·.reached)) t'.furthest := by
  unfold bootFeed
  split
  · exact h
  · dsimp only
    rw [reachStages_stages]
    refine furthest_reachStages regex _ ts [] ?_
    unfold detectReboot
    cases hstages : t.stages with
    | nil => rwa [hstages] at h
    | cons s rest =>
      rw [hstages] at h
      dsimp only
      split
      · simpa [hstages] using h
      · split
        · exact h
        · exact furthest_none (by simp [bootReset])

end Look

section Chunks

variable {regex : Regex ρ} {lang : Nat → Set Bytes} {S : Nat → Set ρ} {cap count p : Nat}
  {fed data : Bytes} {t : BootTracker ρ}

structure Finds (regex : Regex ρ) (lang : Set Bytes) (S : Set ρ) : Prop
    extends regex.Searches lang S where
  found_at : ∀ c ∈ S, ∀ (text : Bytes) (off : Nat), 0 ∉ text → (regex.exec c text).1 = some off →
    off ≤ text.length ∧ ∃ w ∈ lang, w <+: text.drop off

def Occurs (lang : Nat → Set Bytes) (j : Nat) (text : Bytes) : Prop := ∃ w ∈ lang j, w <:+: text

theorem Occurs.mono {j : Nat} {text text' : Bytes} (h : Occurs lang j text)
    (hin : text <:+: text') : Occurs lang j text' := by
  obtain ⟨w, hw, hword⟩ := h
  exact ⟨w, hw, hword.trans hin⟩

/-- Wherever the marker of the first stage stands behind one of a later stage, all the markers
of the stream stand from there on. -/
def Recovers (lang : Nat → Set Bytes) (count : Nat) (stream : Bytes) : Prop :=
  ∀ x, (∃ w ∈ lang 0, w <+: stream.drop x) →
    (∃ j, 0 < j ∧ j < count ∧ Occurs lang j (stream.take x)) →
      ∀ j < count, Occurs lang j stream → Occurs lang j (stream.drop x)

structure Marked (regex : Regex ρ) (lang : Nat → Set Bytes) (S : Nat → Set ρ) : Prop where
  finds : ∀ j, Finds regex (lang j) (S j)
  short : ∀ j, ∀ w ∈ lang j, w.length ≤ 256

theorem overlap {before new w : Bytes} (hw : w <:+: before ++ new) (hshort : w.length ≤ 256) :
    w <:+: before ∨ w <:+: (before ++ new).drop (before.length - 256) := by
  obtain ⟨front, back, hsplit⟩ := hw
  by_cases hold : front.length + w.length ≤ before.length
  · left
    have := infix_take hsplit.symm hold
    rwa [take_left] at this
  · right
    have hseen : w <:+: (before ++ new).rtake (256 + new.length) :=
      infix_rtake hsplit.symm (by rw [length_append]; omega)
    rwa [List.rtake, length_append, show before.length + new.length - (256 + new.length) =
      before.length - 256 by omega] at hseen

/-- The tracker goes by the stream from place `p` on. -/
structure Follows (lang : Nat → Set Bytes) (S : Nat → Set ρ) (cap : Nat) (stages : Nat)
    (fed : Bytes) (p : Nat) (t : BootTracker ρ) : Prop where
  place : p ≤ fed.length
  data : t.window.data = fed.drop p
  searched : t.window.searchOffset = t.window.data.length
  cap : t.window.cap = cap
  count : t.stages.length = stages
  armed : ∀ j s, t.stages[j]? = some s → s.compiled ∈ S j
  reached : ∀ j s, t.stages[j]? = some s →
    (s.reached = true ↔ fed ≠ [] ∧ Occurs lang j (fed.drop p))
  furthest : Furthest (t.stages.map (·.reached)) t.furthest

structure Awaits (lang : Nat → Set Bytes) (S : Nat → Set ρ) (t : BootTracker ρ) : Prop where
  armed : ∀ j s, t.stages[j]? = some s → s.compiled ∈ S j
  known : ∀ j s, t.stages[j]? = some s → s.reached = true → Occurs lang j t.window.data
  seen : ∀ j s, t.stages[j]? = some s → Occurs lang j t.window.data → s.reached = true ∨
    Occurs lang j (t.window.data.drop (t.window.searchOffset - 256))

theorem Awaits.look (hmarked : Marked regex lang S) (h : Awaits lang S t)
    (hnul : 0 ∉ t.window.data) (ts : Rat) {j : Nat} {s : BootStage ρ}
    (hs : t.stages[j]? = some s) :
    let s' := s.look regex (t.window.data.drop (t.window.searchOffset - 256)) ts
    s'.compiled ∈ S j ∧ (s'.reached ↔ Occurs lang j t.window.data) := by
  have hnul' : 0 ∉ t.window.data.drop (t.window.searchOffset - 256) := fun hmem =>
    hnul (mem_of_mem_drop hmem)
  have hfound := (hmarked.finds j).found_iff s.compiled (h.armed j s hs) _ hnul'
  simp only [BootStage.look]
  split
  · next hreached => exact ⟨h.armed j s hs, iff_of_true hreached (h.known j s hs hreached)⟩
  · next hnot =>
    refine ⟨(hmarked.finds j).stays _ (h.armed j s hs) _, hfound.trans ⟨fun hseen => ?_, fun hin =>
      (h.seen j s hs hin).resolve_left hnot⟩⟩
    exact Occurs.mono hseen (drop_suffix _ _).isInfix

theorem Follows.append (hmarked : Marked regex lang S) (h : Follows lang S cap count fed p t)
    (hlen : (fed ++ data).length < cap) :
    t.window.append data = ⟨fed.drop p ++ data, cap, (fed.drop p).length⟩ ∧
      Awaits lang S { t with window := t.window.append data } := by
  rw [length_append] at hlen
  have hold : (fed.drop p).length ≤ fed.length := by rw [length_drop]; omega
  have hshort : t.window.data.length < t.window.cap := by rw [h.data, h.cap]; omega
  obtain ⟨hdata, hoffset⟩ := Window.append_spec hshort h.searched data
  rw [h.data, h.cap, rtake_of_length_le (by rw [length_append]; omega)] at hdata
  have hwindow : t.window.append data = ⟨fed.drop p ++ data, cap, (fed.drop p).length⟩ := by
    rw [hdata, length_append, Nat.add_sub_cancel] at hoffset
    cases hw : t.window.append data with
    | mk d c o =>
      have hcap := Window.append_cap t.window data
      rw [hw] at hdata hoffset hcap
      exact congr (congr (congrArg Window.mk hdata) (hcap.trans h.cap)) hoffset
  refine ⟨hwindow, h.armed, fun j s hs hreached => ?_, fun j s hs hin => ?_⟩
  · simp only [hwindow]
    exact ((h.reached j s hs).mp hreached).2.mono (prefix_append _ _).isInfix
  · simp only [hwindow] at hin ⊢
    obtain ⟨w, hw, hword⟩ := hin
    rcases overlap hword (hmarked.short j w hw) with hold | hnew
    · by_cases hfed : fed = []
      · rw [hfed, drop_nil, infix_nil] at hold
        exact .inr ⟨w, hw, hold ▸ nil_infix⟩
      · exact .inl ((h.reached j s hs).mpr ⟨hfed, w, hw, hold⟩)
    · exact .inr ⟨w, hw, hnew⟩

theorem Follows.later_reached (h : Follows lang S cap count fed p t) (hlate : ¬t.furthest < 1) :
    ∃ j, 0 < j ∧ j < count ∧ Occurs lang j fed := by
  rcases h.furthest.2 with hnone | ⟨j, hj, hflag⟩
  · omega
  · rw [getElem?_map, Option.map_eq_some_iff] at hflag
    obtain ⟨s, hs, hreached⟩ := hflag
    refine ⟨j, by omega, h.count ▸ (List.getElem?_eq_some_iff.mp hs).1, ?_⟩
    exact ((h.reached j s hs).mp hreached).2.mono (drop_suffix _ _).isInfix

/-- The tracker goes on from where it was, or begins anew at a marker of the first stage that
stands in the new bytes. -/
theorem Follows.detect (hmarked : Marked regex lang S) (h : Follows lang S cap count fed p t)
    (hlen : (fed ++ data).length < cap) (hnul : 0 ∉ fed ++ data) :
    let t' := detectReboot regex { t with window := t.window.append data }
    t'.window.cap = cap ∧ t'.stages.length = count ∧ Awaits lang S t' ∧
      ∃ p' ≤ (fed ++ data).length, t'.window.data = (fed ++ data).drop p' ∧
        (p' = p ∨ fed.length ≤ p' ∧ (∃ w ∈ lang 0, w <+: (fed ++ data).drop p') ∧
          ∃ j, 0 < j ∧ j < count ∧ Occurs lang j fed) := by
  obtain ⟨hwindow, hawaits⟩ := h.append hmarked hlen
  have hdrop : fed.drop p ++ data = (fed ++ data).drop p :=
    (drop_append_of_le_length h.place).symm
  have hplace : p ≤ (fed ++ data).length := h.place.trans (by simp)
  have hcount := h.count
  have hlater := h.later_reached
  unfold detectReboot
  rw [hwindow] at hawaits ⊢
  cases hstages : t.stages with
  | nil =>
    rw [hstages] at hcount hawaits
    exact ⟨rfl, hcount, hawaits, p, hplace, hdrop, .inl rfl⟩
  | cons s rest =>
    rw [hstages] at hcount hawaits
    have harmed := hawaits.armed 0 s rfl
    -- of the first stage at most the compiled pattern changes
    have hfirst : ∀ (compiled : ρ) (j : Nat) (s' : BootStage ρ), compiled ∈ S 0 →
        ({ s with compiled := compiled } :: rest)[j]? = some s' →
          ∃ s₁, (s :: rest)[j]? = some s₁ ∧ s'.reached = s₁.reached ∧ s'.compiled ∈ S j := by
      intro compiled j s' hc hs'
      cases j with
      | zero =>
        cases hs'
        exact ⟨s, rfl, rfl, hc⟩
      | succ j => exact ⟨s', hs', rfl, hawaits.armed (j + 1) s' hs'⟩
    dsimp only
    split
    · exact ⟨rfl, hcount, hawaits, p, hplace, hdrop, .inl rfl⟩
    · next hlate =>
      rw [drop_left]
      have hstays := (hmarked.finds 0).stays s.compiled harmed data
      cases hfound : (regex.exec s.compiled data).1 with
      | none =>
        refine ⟨rfl, hcount, ⟨fun j s' hs' => ?_, fun j s' hs' hreached => ?_, fun j s' hs' => ?_⟩,
          p, hplace, hdrop, .inl rfl⟩
        · exact (hfirst _ j s' hstays hs').elim fun _ hs => hs.2.2
        · obtain ⟨s₁, hs₁, hsame, -⟩ := hfirst _ j s' hstays hs'
          exact hawaits.known j s₁ hs₁ (hsame ▸ hreached)
        · obtain ⟨s₁, hs₁, hsame, -⟩ := hfirst _ j s' hstays hs'
          rw [hsame]
          exact hawaits.seen j s₁ hs₁
      | some off =>
        have hnul' : 0 ∉ data := fun hmem => hnul (mem_append_right _ hmem)
        obtain ⟨hoff, hword⟩ := (hmarked.finds 0).found_at s.compiled harmed data off hnul' hfound
        have hrest : (fed.drop p ++ data).drop ((fed.drop p).length + off) =
            (fed ++ data).drop (fed.length + off) := by
          rw [← drop_drop, drop_left, ← drop_drop, drop_left]
        refine ⟨rfl, by simpa [bootReset] using hcount, ⟨fun j s' hs' => ?_,
          fun j s' hs' hreached => ?_, fun j s' hs' hin => .inr ?_⟩, fed.length + off,
          ?_, hrest, .inr ⟨Nat.le_add_right .., ?_, hlater hlate⟩⟩
        · simp only [bootReset, getElem?_map, Option.map_eq_some_iff] at hs'
          obtain ⟨s₀, hs₀, rfl⟩ := hs'
          exact (hfirst _ j s₀ hstays hs₀).elim fun _ hs => hs.2.2
        · simp only [bootReset, getElem?_map, Option.map_eq_some_iff] at hs'
          obtain ⟨s₀, -, rfl⟩ := hs'
          cases hreached
        · simpa [bootReset] using hin
        · rw [length_append]
          omega
        · rw [← drop_drop, drop_left]
          exact hword

theorem Follows.feed (hmarked : Marked regex lang S) (h : Follows lang S cap count fed p t)
    (hdata : data ≠ []) (hcount : count ≠ 0) (hlen : (fed ++ data).length < cap)
    (hnul : 0 ∉ fed ++ data) (ts : Rat) :
    ∃ p', Follows lang S cap count (fed ++ data) p' (bootFeed regex t data ts).2 ∧
      (p' = p ∨ fed.length ≤ p' ∧ (∃ w ∈ lang 0, w <+: (fed ++ data).drop p') ∧
        ∃ j, 0 < j ∧ j < count ∧ Occurs lang j fed) := by
  have hbusy : ¬(data = [] ∨ t.stages = [] ∨ t.window.cap = 0) := by
    have hstages : t.stages ≠ [] := by
      rintro hnil
      exact hcount (by rw [← h.count, hnil]; rfl)
    simp only [hdata, hstages, h.cap, false_or]
    omega
  have hfurthest := furthest_bootFeed regex ts h.furthest data
  obtain ⟨hcap, hstages, hawaits, p', hplace, hwindow, hp⟩ := h.detect hmarked hlen hnul
  refine ⟨p', ?_, hp⟩
  have hnul' : 0 ∉ (detectReboot regex { t with window := t.window.append data }).window.data := by
    rw [hwindow]
    exact fun hmem => hnul (mem_of_mem_drop hmem)
  rw [bootFeed, if_neg hbusy] at hfurthest ⊢
  dsimp only at hfurthest ⊢
  rw [reachStages_stages] at hfurthest ⊢
  refine ⟨hplace, hwindow, rfl, hcap, by simpa using hstages, fun j s hs => ?_, fun j s hs => ?_,
    hfurthest⟩
  · simp only [getElem?_map, Option.map_eq_some_iff] at hs
    obtain ⟨s₀, hs₀, rfl⟩ := hs
    exact (hawaits.look hmarked hnul' ts hs₀).1
  · simp only [getElem?_map, Option.map_eq_some_iff] at hs
    obtain ⟨s₀, hs₀, rfl⟩ := hs
    rw [(hawaits.look hmarked hnul' ts hs₀).2, hwindow]
    exact (and_iff_right (append_ne_nil_of_right_ne_nil fed hdata)).symm

def feeds (regex : Regex ρ) (t : BootTracker ρ) (chunks : List (Bytes × Rat)) : BootTracker ρ :=
  chunks.foldl (fun t chunk => (bootFeed regex t chunk.1 chunk.2).2) t

def streamOf (chunks : List (Bytes × Rat)) : Bytes := chunks.flatMap Prod.fst

theorem Follows.feeds {chunks : List (Bytes × Rat)} (h : Follows lang S cap count fed p t)
    (hmarked : Marked regex lang S) (hcount : count ≠ 0)
    (hlen : (fed ++ streamOf chunks).length < cap) (hnul : 0 ∉ fed ++ streamOf chunks)
    (hrecovers : Recovers lang count (fed ++ streamOf chunks))
    (hp : ∀ j < count, Occurs lang j (fed ++ streamOf chunks) →
      Occurs lang j ((fed ++ streamOf chunks).drop p)) :
    ∃ p', Follows lang S cap count (fed ++ streamOf chunks) p' (feeds regex t chunks) ∧
      ∀ j < count, Occurs lang j (fed ++ streamOf chunks) →
        Occurs lang j ((fed ++ streamOf chunks).drop p') := by
  induction chunks generalizing fed p t with
  | nil =>
    simp only [streamOf, flatMap_nil, append_nil] at hp ⊢
    exact ⟨p, h, hp⟩
  | cons chunk chunks ih =>
    have hsplit : fed ++ streamOf (chunk :: chunks) = fed ++ chunk.1 ++ streamOf chunks := by
      rw [streamOf, flatMap_cons, append_assoc, streamOf]
    rw [hsplit] at hlen hnul hrecovers hp ⊢
    by_cases hdata : chunk.1 = []
    · have hidle : (bootFeed regex t chunk.1 chunk.2).2 = t := by
        rw [bootFeed, if_pos (.inl hdata)]
      rw [hdata, append_nil] at hlen hnul hrecovers hp ⊢
      rw [BootStage.feeds, foldl_cons, hidle]
      exact ih h hlen hnul hrecovers hp
    · have hpre : fed ++ chunk.1 <+: fed ++ chunk.1 ++ streamOf chunks := prefix_append _ _
      obtain ⟨p', h', hplace⟩ := h.feed hmarked hdata hcount (hpre.length_le.trans_lt hlen)
        (fun hmem => hnul (hpre.subset hmem)) chunk.2
      refine ih h' hlen hnul hrecovers ?_
      rcases hplace with rfl | ⟨hle, ⟨w, hw, hword⟩, j, hj, hjcount, hlater⟩
      · exact hp
      · refine hrecovers p' ⟨w, hw, hword.trans ?_⟩ ⟨j, hj, hjcount, hlater.mono ?_⟩
        · rw [drop_append_of_le_length h'.place]
          exact prefix_append _ _
        · rw [append_assoc, take_append, take_of_length_le hle]
          exact (prefix_append _ _).isInfix

theorem boot_progress_chunking (hmarked : Marked regex lang S) (t : BootTracker ρ)
    (harmed : ∀ j s, t.stages[j]? = some s → s.compiled ∈ S j) (stream : Bytes)
    (hlen : stream.length < t.window.cap) (hnul : 0 ∉ stream)
    (hrecovers : Recovers lang t.stages.length stream) (chunks chunks' : List (Bytes × Rat))
    (hchunks : streamOf chunks = stream) (hchunks' : streamOf chunks' = stream) :
    let t₁ := feeds regex (bootRestart t) chunks
    let t₂ := feeds regex (bootRestart t) chunks'
    t₁.stages.map (·.reached) = t₂.stages.map (·.reached) ∧ t₁.furthest = t₂.furthest := by
  by_cases hnone : t.stages.length = 0
  · have hidle : ∀ chunks, feeds regex (bootRestart t) chunks = bootRestart t := by
      intro chunks
      have hstages : (bootRestart t).stages = [] := by
        rw [bootRestart, bootReset, length_eq_zero_iff.mp hnone]
        rfl
      induction chunks with
      | nil => rfl
      | cons chunk chunks ih =>
        rw [feeds, foldl_cons, bootFeed, if_pos (.inr (.inl hstages))]
        exact ih
    rw [hidle, hidle]
    exact ⟨rfl, rfl⟩
  have hfresh : Follows lang S t.window.cap t.stages.length [] 0 (bootRestart t) := by
    refine ⟨le_rfl, rfl, rfl, rfl, by simp [bootRestart, bootReset], fun j s hs => ?_,
      fun j s hs => ?_, furthest_none (by simp [bootRestart, bootReset])⟩
    · simp only [bootRestart, bootReset, getElem?_map, Option.map_eq_some_iff] at hs
      obtain ⟨s₀, hs₀, rfl⟩ := hs
      exact harmed j s₀ hs₀
    · simp only [bootRestart, bootReset, getElem?_map, Option.map_eq_some_iff] at hs
      obtain ⟨s₀, -, rfl⟩ := hs
      simp
  -- each stage is reached when its marker stands anywhere in the stream
  have hends : ∀ chunks, streamOf chunks = stream →
      ∃ p, Follows lang S t.window.cap t.stages.length stream p
        (feeds regex (bootRestart t) chunks) ∧
        ∀ j < t.stages.length, Occurs lang j stream → Occurs lang j (stream.drop p) := by
    rintro chunks rfl
    exact hfresh.feeds hmarked hnone hlen hnul hrecovers fun _ _ hin => hin
  obtain ⟨p, h, hp⟩ := hends chunks hchunks
  obtain ⟨p', h', hp'⟩ := hends chunks' hchunks'
  intro t₁ t₂
  have hflags : t₁.stages.map (·.reached) = t₂.stages.map (·.reached) := by
    refine ext_getElem (by simp [t₁, t₂, h.count, h'.count]) fun j hj hj' => ?_
    simp only [length_map, getElem_map] at hj hj' ⊢
    have hlt : j < t.stages.length := h.count ▸ hj
    have hsame : ∀ q, (∀ j < t.stages.length, Occurs lang j stream →
        Occurs lang j (stream.drop q)) →
          (Occurs lang j (stream.drop q) ↔ Occurs lang j stream) := fun q hq =>
      ⟨fun hin => hin.mono (drop_suffix _ _).isInfix, hq j hlt⟩
    rw [Bool.eq_iff_iff, h.reached j _ (getElem?_eq_getElem hj),
      h'.reached j _ (getElem?_eq_getElem hj'), hsame p hp, hsame p' hp']
  exact ⟨hflags, Furthest.unique h.furthest (hflags ▸ h'.furthest)⟩

theorem finds_wordRegex (word : Bytes) : Finds wordRegex {word} {word} where
  toSearches := searches_wordRegex word
  found_at := by
    rintro c rfl text off - hfound
    refine ⟨?_, c, rfl, ?_⟩ <;> induction text generalizing off with
    | nil =>
      simp only [wordRegex, firstAt] at hfound
      split_ifs at hfound with hnil
      cases hfound
      simp [hnil]
    | cons b text ih =>
      simp only [wordRegex, firstAt] at hfound
      split_ifs at hfound with hpre
      · cases hfound
        simpa using isPrefixOf_iff_prefix.mp hpre
      · obtain ⟨off', hoff, rfl⟩ := Option.map_eq_some_iff.mp hfound
        simpa using ih off' hoff

def letters (j : Nat) : Bytes := if j = 0 then ascii "a" else ascii "b"

def letterTracker : BootTracker Bytes :=
  let t := (bootAddStage wordRegex bootInit (ascii "loader") (letters 0)).1
  (bootAddStage wordRegex t (ascii "kernel") (letters 1)).1

theorem marked_letters : Marked wordRegex (fun j => {letters j}) fun j => {letters j} where
  finds j := finds_wordRegex (letters j)
  short j w hw := by
    rw [hw, letters]
    split <;> decide

theorem boot_progress_chunking_reboot :
    let whole := feeds wordRegex (bootRestart letterTracker) [(ascii "abab", 1)]
    let halves := feeds wordRegex (bootRestart letterTracker) [(ascii "ab", 1), (ascii "ab", 2)]
    (whole.stages.map (·.reached) = halves.stages.map (·.reached) ∧
      whole.furthest = halves.furthest) ∧ whole.furthest = 1 := by
  refine ⟨boot_progress_chunking marked_letters letterTracker ?_ (ascii "abab") (by decide +kernel)
    (by decide) ?_ _ _ rfl rfl, by decide +kernel⟩
  · intro j s hs
    match j, hs with
    | 0, hs => cases hs; rfl
    | 1, hs => cases hs; rfl
  · rintro x ⟨w, rfl, hpre⟩ ⟨j, -, -, v, rfl, hlater⟩ i hi -
    have hx : x < 4 := by
      have := hpre.length_le
      simp [letters, ascii] at this
      omega
    have hall : ∀ x : Fin 4, letters 0 <+: (ascii "abab").drop x →
        (∀ i : Fin 2, letters i <:+: (ascii "abab").drop x) := by decide
    exact ⟨_, rfl, hall ⟨x, hx⟩ hpre ⟨i, hi⟩⟩

/-- The device reboots and comes less far: fed at once, both stages have been reached; with the
reboot in a chunk of its own, the first only. -/
theorem reboot_depends_on_chunks :
    let whole := feeds wordRegex (bootRestart letterTracker) [(ascii "aba", 1)]
    let pieces := feeds wordRegex (bootRestart letterTracker) [(ascii "ab", 1), (ascii "a", 2)]
    whole.stages.map (·.reached) = [true, true] ∧ whole.furthest = 1 ∧
      pieces.stages.map (·.reached) = [true, false] ∧ pieces.furthest = 0 := by
  decide +kernel

end Chunks

end Smolmux.BootStage
