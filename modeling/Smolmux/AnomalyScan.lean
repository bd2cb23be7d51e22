import Smolmux.Anomaly
import Smolmux.Lookback
import Smolmux.RegexEngine

/-! What the anomaly detector finds in the output that is fed to it. Its window is the end of
the stream of the session; a feed searches the new portion and the 256 bytes before it,
pattern by pattern, in a copy of at most 4096 bytes. -/

namespace Smolmux.Anomaly
open Lookback List

variable {ρ : Type}

variable {stream : Bytes} {w : Window} {data : Bytes}

def overlap : Nat := 256

/-- The window has taken in the stream `stream` and all of it has been searched. -/
structure Holds (stream : Bytes) (w : Window) : Prop where
  data : ∃ n, (overlap ≤ n ∨ stream.length ≤ n) ∧ w.data = stream.rtake n
  searched : w.searchOffset = w.data.length
  cap : 4096 ≤ w.cap

theorem holds_init : Holds [] (anomalyInit : AnomalyDetector ρ).window :=
  ⟨⟨0, .inr (Nat.zero_le _), rfl⟩, rfl, Nat.le_refl _⟩

theorem Holds.reset (h : Holds stream w) : Holds [] w.reset :=
  ⟨⟨0, .inr (Nat.zero_le _), rfl⟩, rfl, h.cap⟩

theorem Holds.keepLast (h : Holds stream w) {keep : Nat} (hkeep : overlap ≤ keep) : Holds stream (keepLast w keep) := by
  obtain ⟨n, hn, hdata⟩ := h.data
  refine ⟨⟨min n keep, ?_, ?_⟩, ?_, h.cap⟩
  · omega
  · rw [← rtake_rtake_min, ← hdata]
    rfl
  · rw [Anomaly.keepLast]
    dsimp only
    rw [length_drop, h.searched]

theorem growWindow_grows {len fuel : Nat} (hsize : w.data.length + len ≤ 12288)
    (hcap : 12288 < w.cap * 2 ^ fuel) (hpos : 4096 ≤ w.cap) :
    ∃ cap, 4096 ≤ cap ∧ growWindow len fuel w = { w with cap := cap } ∧
      w.data.length + len < cap := by
  induction fuel generalizing w with
  | zero => exact ⟨w.cap, hpos, rfl, by omega⟩
  | succ fuel ih =>
    rw [growWindow]
    by_cases hroom : w.data.length + len < w.cap
    · exact ⟨w.cap, hpos, if_pos hroom, hroom⟩
    · have hsmall : ¬ maxAnomalyWindow < w.cap * 2 := by
        rw [maxAnomalyWindow]
        omega
      rw [if_neg hroom, if_neg hsmall]
      have hgrown : 12288 < w.cap * 2 * 2 ^ fuel := by
        rw [Nat.mul_assoc, ← Nat.pow_succ']
        exact hcap
      exact ih (w := { w with cap := w.cap * 2 }) hsize hgrown
        (hpos.trans (Nat.le_mul_of_pos_right _ (by decide)))

theorem growWindow_log2 : maxAnomalyWindow.log2 = 16 := by decide

theorem Holds.fill (h : Holds stream w) (hdata : data.length ≤ 4096) :
    ∃ n, (overlap ≤ n ∨ stream.length ≤ n) ∧
      (fillWindow w data).data = stream.rtake n ++ data ∧
      (fillWindow w data).searchOffset = (stream.rtake n).length ∧
      4096 ≤ (fillWindow w data).cap := by
  obtain ⟨trimmed, htrimmed⟩ : ∃ trimmed,
      (if 8192 < w.data.length then Anomaly.keepLast w 4096 else w) = trimmed := ⟨_, rfl⟩
  have hholds : Holds stream trimmed := by
    rw [← htrimmed]
    split_ifs
    · exact h.keepLast (by decide)
    · exact h
  have hsize : trimmed.data.length + data.length ≤ 12288 := by
    have hcut : trimmed.data.length ≤ 8192 := by
      rw [← htrimmed]
      split_ifs with hlong
      · rw [Anomaly.keepLast]
        dsimp only
        rw [length_drop]
        omega
      · omega
    omega
  have hfuel : 12288 < trimmed.cap * 2 ^ maxAnomalyWindow.log2 := by
    have hcap := hholds.cap
    rw [growWindow_log2]
    omega
  obtain ⟨cap, hcap, hgrown, hroom⟩ := growWindow_grows hsize hfuel hholds.cap
  obtain ⟨n, hn, heq⟩ := hholds.data
  have hfill : fillWindow w data =
      { trimmed with cap := cap, data := trimmed.data ++ data } := by
    rw [fillWindow, htrimmed, hgrown]
    exact if_pos hroom
  rw [hfill]
  exact ⟨n, hn, congrArg (· ++ data) heq, hholds.searched.trans (congrArg List.length heq), hcap⟩

def searchRegion (stream data : Bytes) : Bytes := (stream ++ data).rtake (overlap + data.length)

theorem Holds.region (h : Holds stream w) (hdata : data.length ≤ 4096) :
    (fillWindow w data).data.drop ((fillWindow w data).searchOffset - overlap) =
      searchRegion stream data := by
  obtain ⟨n, hn, heq, hoffset, -⟩ := h.fill hdata
  have hcount : (stream.rtake n).length - overlap =
      (stream.rtake n ++ data).length - (overlap + data.length) := by
    rw [length_append]
    omega
  have hkept : (stream.rtake n).rtake overlap = stream.rtake overlap := by
    rcases hn with hn | hn
    · exact rtake_rtake hn
    · rw [rtake_of_length_le hn]
  rw [heq, hoffset, hcount, ← List.rtake, searchRegion, rtake_append (Nat.le_add_left ..),
    rtake_append (Nat.le_add_left ..), Nat.add_sub_cancel, hkept]

theorem Holds.next (h : Holds stream w) (hdata : data.length ≤ 4096) :
    Holds (stream ++ data)
      { fillWindow w data with searchOffset := (fillWindow w data).data.length } := by
  obtain ⟨n, hn, heq, -, hcap⟩ := h.fill hdata
  refine ⟨⟨n + data.length, ?_, ?_⟩, rfl, hcap⟩
  · rw [length_append]
    omega
  · rw [rtake_append (Nat.le_add_left ..), Nat.add_sub_cancel]
    exact heq

section Scan

variable {regex : Regex ρ} {clock : Nat → Nat × Nat} {ts : Rat} {start : Nat}

def scratchOf (region : Bytes) : Bytes := (region.take 4096).map fun c => if c = 0 then 32 else c

def Fires (regex : Regex ρ) (ts cooldownS : Rat) (region : Bytes) (p : AnomalyPattern ρ) : Prop :=
  ¬ (0 < p.lastFireTime ∧ ts - p.lastFireTime < cooldownS) ∧
    regionHasLiteral region p.literal = true ∧
    (regex.exec p.compiled (scratchOf region)).1.isSome = true

theorem checkPattern_spec (regex : Regex ρ) (now : Nat × Nat) (ts : Rat) (start : Nat)
    (det : AnomalyDetector ρ) (p : AnomalyPattern ρ) :
    (∃ inc, (checkPattern regex now ts start det p).2 = some inc ∧
        Fires regex ts det.cooldownS (det.window.data.drop start) p ∧
        inc.patternName = p.name ∧ inc.timestamp = ts) ∨
      (checkPattern regex now ts start det p).2 = none ∧
        ¬ Fires regex ts det.cooldownS (det.window.data.drop start) p := by
  unfold checkPattern
  dsimp only
  split_ifs with hcool hliteral
  · exact .inr ⟨rfl, fun h => h.1 hcool⟩
  · exact .inr ⟨rfl, fun h => Bool.false_ne_true (hliteral.symm.trans h.2.1)⟩
  · have hliteral := (Bool.not_eq_false _).mp hliteral
    rw [← scratchOf]
    split
    · next hnone =>
      refine .inr ⟨rfl, fun h => ?_⟩
      rw [Fires, hnone] at h
      exact Bool.false_ne_true h.2.2
    · next off hsome =>
      refine .inl ⟨_, rfl, ⟨hcool, hliteral, ?_⟩, rfl, rfl⟩
      rw [hsome, Option.isSome_some]

structure Scanned (regex : Regex ρ) (ts : Rat) (start : Nat) (old : AnomalyDetector ρ) (i : Nat)
    (news : List AnomalyIncident) (det : AnomalyDetector ρ) : Prop where
  window : det.window = old.window
  cooldown : det.cooldownS = old.cooldownS
  length : det.patterns.length = old.patterns.length
  ahead : ∀ j, i ≤ j → det.patterns[j]? = old.patterns[j]?
  incidents : ∃ kept, kept <:+ old.incidents ∧ det.incidents = kept ++ news
  few : news.length ≤ i
  fired : ∀ j < i, ∀ p, old.patterns[j]? = some p →
    Fires regex ts old.cooldownS (old.window.data.drop start) p →
    ∃ inc ∈ news, inc.patternName = p.name ∧ inc.timestamp = ts
  only : ∀ inc ∈ news, ∃ j < i, ∃ p, old.patterns[j]? = some p ∧
    Fires regex ts old.cooldownS (old.window.data.drop start) p ∧
    inc.patternName = p.name ∧ inc.timestamp = ts

theorem scanned_start (regex : Regex ρ) (ts : Rat) (start : Nat) (det : AnomalyDetector ρ) :
    Scanned regex ts start det 0 [] det where
  window := rfl
  cooldown := rfl
  length := rfl
  ahead := fun _ _ => rfl
  incidents := ⟨det.incidents, suffix_rfl, (append_nil _).symm⟩
  few := Nat.le_refl _
  fired := fun _ hj => absurd hj (Nat.not_lt_zero _)
  only := fun _ hinc => absurd hinc not_mem_nil

variable {old det : AnomalyDetector ρ} {i : Nat} {news : List AnomalyIncident}

def store (incidents : List AnomalyIncident) (inc : AnomalyIncident) : List AnomalyIncident :=
  (if maxAnomalyIncidents ≤ incidents.length then incidents.drop (maxAnomalyIncidents / 4)
    else incidents) ++ [inc]

theorem store_kept (kept : List AnomalyIncident) {news : List AnomalyIncident}
    (hfew : news.length ≤ 768) (inc : AnomalyIncident) :
    ∃ kept', kept' <:+ kept ∧ store (kept ++ news) inc = kept' ++ (news ++ [inc]) := by
  unfold store
  split_ifs with hfull
  · have hroom : maxAnomalyIncidents / 4 ≤ kept.length := by
      rw [length_append] at hfull
      rw [maxAnomalyIncidents] at hfull ⊢
      omega
    refine ⟨kept.drop (maxAnomalyIncidents / 4), drop_suffix .., ?_⟩
    rw [drop_append_of_le_length hroom, append_assoc]
  · exact ⟨kept, suffix_rfl, append_assoc ..⟩

theorem recordIncident_kept (hkept : ∃ kept, kept <:+ old.incidents ∧ det.incidents = kept ++ news)
    (hfew : news.length ≤ 768) (inc : AnomalyIncident) :
    ∃ kept, kept <:+ old.incidents ∧
      (recordIncident det inc).incidents = kept ++ (news ++ [inc]) := by
  obtain ⟨kept, hsuffix, heq⟩ := hkept
  obtain ⟨kept', hsuffix', hstore⟩ := store_kept kept hfew inc
  refine ⟨kept', hsuffix'.trans hsuffix, ?_⟩
  rw [← hstore, ← heq]
  rfl

theorem Scanned.step (h : Scanned regex ts start old i news det) {p : AnomalyPattern ρ}
    (hp : det.patterns[i]? = some p) (hi : i ≤ 768) (now : Nat × Nat) :
    let r := checkPattern regex now ts start det p
    let next := { det with patterns := det.patterns.set i r.1 }
    match r.2 with
    | none => Scanned regex ts start old (i + 1) news next
    | some inc => Scanned regex ts start old (i + 1) (news ++ [inc]) (recordIncident next inc) := by
  intro r next
  have hold : old.patterns[i]? = some p := (h.ahead i (Nat.le_refl i)).symm.trans hp
  have hspec := checkPattern_spec regex now ts start det p
  rw [h.window, h.cooldown] at hspec
  have hlength : next.patterns.length = old.patterns.length := (length_set ..).trans h.length
  have hahead : ∀ j, i + 1 ≤ j → next.patterns[j]? = old.patterns[j]? := fun j hj =>
    (getElem?_set_ne (by omega)).trans (h.ahead j (by omega))
  rcases hspec with ⟨inc, hinc, hfires, hname, hts⟩ | ⟨hnone, hquiet⟩
  · rw [show r.2 = some inc from hinc]
    refine ⟨h.window, h.cooldown, hlength, hahead,
      recordIncident_kept h.incidents (h.few.trans hi) inc, ?_, ?_, ?_⟩
    · rw [length_append, length_singleton]
      exact Nat.succ_le_succ h.few
    · intro j hj q hq hfq
      rcases Nat.lt_succ_iff_lt_or_eq.mp hj with hj | rfl
      · obtain ⟨found, hmem, hfacts⟩ := h.fired j hj q hq hfq
        exact ⟨found, mem_append_left _ hmem, hfacts⟩
      · obtain rfl := Option.some.inj (hold.symm.trans hq)
        exact ⟨inc, mem_append_right _ (mem_singleton_self _), hname, hts⟩
    · intro found hmem
      rcases mem_append.mp hmem with hmem | hmem
      · obtain ⟨j, hj, hfacts⟩ := h.only found hmem
        exact ⟨j, hj.trans (Nat.lt_succ_self i), hfacts⟩
      · obtain rfl := mem_singleton.mp hmem
        exact ⟨i, Nat.lt_succ_self i, p, hold, hfires, hname, hts⟩
  · rw [show r.2 = none from hnone]
    refine ⟨h.window, h.cooldown, hlength, hahead, h.incidents, h.few.trans (Nat.le_succ i), ?_, ?_⟩
    · intro j hj q hq hfq
      rcases Nat.lt_succ_iff_lt_or_eq.mp hj with hj | rfl
      · exact h.fired j hj q hq hfq
      · obtain rfl := Option.some.inj (hold.symm.trans hq)
        exact absurd hfq hquiet
    · intro found hmem
      obtain ⟨j, hj, hfacts⟩ := h.only found hmem
      exact ⟨j, hj.trans (Nat.lt_succ_self i), hfacts⟩

theorem Scanned.run {left : Nat} (h : Scanned regex ts start old i news det)
    (clock : Nat → Nat × Nat)
    (hleft : i + left = old.patterns.length) (hfew : old.patterns.length ≤ maxAnomalyPatterns) :
    ∃ news', (scanPatterns regex clock ts start left i news.length det).1 = news'.length ∧
      Scanned regex ts start old old.patterns.length news'
        (scanPatterns regex clock ts start left i news.length det).2 := by
  induction left generalizing i news det with
  | zero =>
    obtain rfl : i = old.patterns.length := hleft
    exact ⟨news, rfl, h⟩
  | succ left ih =>
    have hi : i < det.patterns.length := by
      rw [h.length]
      omega
    have hp : det.patterns[i]? = some det.patterns[i] := getElem?_eq_getElem hi
    have hsmall : i ≤ 768 := by
      rw [maxAnomalyPatterns] at hfew
      omega
    have hstep := h.step hp hsmall (clock news.length)
    rw [scanPatterns, hp]
    dsimp only at hstep ⊢
    generalize checkPattern regex (clock news.length) ts start det det.patterns[i] = r at hstep ⊢
    obtain ⟨q, fired⟩ := r
    cases fired with
    | none => exact ih hstep (by omega)
    | some inc =>
      have hnext := ih hstep (by omega)
      rw [length_append, length_singleton] at hnext
      exact hnext

/-- What a feed does: it appends one incident for each pattern that fires in the region, and
the window takes in the portion. -/
structure Fed (regex : Regex ρ) (ts : Rat) (stream data : Bytes) (old : AnomalyDetector ρ)
    (news : List AnomalyIncident) (det : AnomalyDetector ρ) : Prop where
  incidents : ∃ kept, kept <:+ old.incidents ∧ det.incidents = kept ++ news
  fired : ∀ p ∈ old.patterns, Fires regex ts old.cooldownS (searchRegion stream data) p →
    ∃ inc ∈ news, inc.patternName = p.name ∧ inc.timestamp = ts
  only : ∀ inc ∈ news, ∃ p ∈ old.patterns,
    Fires regex ts old.cooldownS (searchRegion stream data) p ∧
    inc.patternName = p.name ∧ inc.timestamp = ts
  window : Holds (stream ++ data) det.window
  length : det.patterns.length = old.patterns.length

def filledWith (det : AnomalyDetector ρ) (data : Bytes) : AnomalyDetector ρ :=
  { det with
    window := fillWindow det.window data
    context := (det.context ++ data).drop ((det.context ++ data).length - anomalyContextSize) }

theorem filledWith_patterns (det : AnomalyDetector ρ) (data : Bytes) :
    (filledWith det data).patterns = det.patterns := by rw [filledWith]

theorem anomalyFeed_eq (h : data ≠ []) :
    anomalyFeed regex clock old data ts =
      (let filled := filledWith old data
      let r := scanPatterns regex clock ts (filled.window.searchOffset - overlap)
        filled.patterns.length 0 0 filled
      (r.1, { r.2 with window := { r.2.window with searchOffset := r.2.window.data.length } })) := by
  rw [anomalyFeed, if_neg h]
  rfl

theorem anomalyFeed_spec (h : Holds stream old.window)
    (hfew : old.patterns.length ≤ maxAnomalyPatterns) (hne : data ≠ [])
    (hdata : data.length ≤ 4096) :
    ∃ news, (anomalyFeed regex clock old data ts).1 = news.length ∧
      Fed regex ts stream data old news (anomalyFeed regex clock old data ts).2 := by
  rw [anomalyFeed_eq hne]
  obtain ⟨filled, hfilled⟩ : ∃ filled, filledWith old data = filled := ⟨_, rfl⟩
  rw [hfilled]
  have hpatterns : filled.patterns = old.patterns := by rw [← hfilled, filledWith_patterns]
  have hcooldown : filled.cooldownS = old.cooldownS := by rw [← hfilled, filledWith]
  have hincidents : filled.incidents = old.incidents := by rw [← hfilled, filledWith]
  have hwindow : filled.window = fillWindow old.window data := by rw [← hfilled, filledWith]
  have hregion : filled.window.data.drop (filled.window.searchOffset - overlap) =
      searchRegion stream data := by rw [hwindow, h.region hdata]
  obtain ⟨news, hcount, hscan⟩ :=
    (scanned_start regex ts (filled.window.searchOffset - overlap) filled).run clock
      (Nat.zero_add _) (hpatterns ▸ hfew)
  dsimp only
  rw [length_nil] at hcount hscan
  generalize scanPatterns regex clock ts (filled.window.searchOffset - overlap)
    filled.patterns.length 0 0 filled = r at hcount hscan ⊢
  refine ⟨news, hcount, ?_⟩
  obtain ⟨hwin, -, hlength, -, hkept, -, hfired, honly⟩ := hscan
  rw [hregion, hcooldown, hpatterns] at hfired honly
  rw [hincidents] at hkept
  rw [hpatterns] at hlength
  refine ⟨hkept, fun p hp hf => ?_, fun inc hinc => ?_, ?_, hlength⟩
  · obtain ⟨j, hj, rfl⟩ := getElem_of_mem hp
    exact hfired j hj _ (getElem?_eq_getElem hj) hf
  · obtain ⟨j, -, p, hp, hfacts⟩ := honly inc hinc
    exact ⟨p, mem_of_getElem? hp, hfacts⟩
  · dsimp only
    rw [hwin, hwindow]
    exact h.next hdata

end Scan

variable {word : Bytes}

section Run

inductive Op where
  | add (name pattern severity : Bytes)
  | addBuiltins
  | feed (clock : Nat → Nat × Nat) (data : Bytes) (ts : Rat)
  | resetWindow

def Op.apply (regex : Regex ρ) (det : AnomalyDetector ρ) : Op → AnomalyDetector ρ
  | .add name pattern severity => (anomalyAddPattern regex det name pattern severity).1
  | .addBuiltins => anomalyAddBuiltins regex det
  | .feed clock data ts => (anomalyFeed regex clock det data ts).2
  | .resetWindow => anomalyResetWindow det

def runFrom (regex : Regex ρ) (ops : List Op) : AnomalyDetector ρ :=
  ops.foldl (Op.apply regex) anomalyInit

def Op.hear (stream : Bytes) : Op → Bytes
  | .feed _ data _ => stream ++ data
  | .resetWindow => []
  | _ => stream

def heard (ops : List Op) : Bytes := ops.foldl Op.hear []

def Op.Portioned : Op → Prop
  | .feed _ data _ => data ≠ [] ∧ data.length ≤ 4096
  | _ => True

variable {regex : Regex ρ}

structure Sound (stream : Bytes) (det : AnomalyDetector ρ) : Prop where
  window : Holds stream det.window
  few : det.patterns.length ≤ maxAnomalyPatterns

structure TableOnly (det det' : AnomalyDetector ρ) : Prop where
  window : det'.window = det.window
  incidents : det'.incidents = det.incidents
  few : det.patterns.length ≤ maxAnomalyPatterns → det'.patterns.length ≤ maxAnomalyPatterns

theorem TableOnly.refl (det : AnomalyDetector ρ) : TableOnly det det := ⟨rfl, rfl, id⟩

theorem TableOnly.trans {det det' det'' : AnomalyDetector ρ} (h : TableOnly det det')
    (h' : TableOnly det' det'') : TableOnly det det'' :=
  ⟨h'.window.trans h.window, h'.incidents.trans h.incidents, h'.few ∘ h.few⟩

theorem tableOnly_anomalyAddPattern (regex : Regex ρ) (det : AnomalyDetector ρ)
    (name pattern severity : Bytes) :
    TableOnly det (anomalyAddPattern regex det name pattern severity).1 := by
  unfold anomalyAddPattern
  split
  · exact .refl det
  split
  · exact .refl det
  dsimp only
  split
  · exact ⟨rfl, rfl, (length_modify ..).le.trans⟩
  · split
    · exact .refl det
    next hfull =>
      refine ⟨rfl, rfl, fun _ => ?_⟩
      rw [length_append, length_singleton]
      omega

theorem tableOnly_addBuiltin (regex : Regex ρ) (det : AnomalyDetector ρ)
    (builtin : String × String × String × String) :
    TableOnly det (addBuiltin regex det builtin) := by
  obtain ⟨name, pattern, severity, literal⟩ := builtin
  have hadd := tableOnly_anomalyAddPattern regex det (ascii name) (ascii pattern) (ascii severity)
  rw [addBuiltin]
  split_ifs
  · exact hadd.trans ⟨rfl, rfl, (length_modify ..).le.trans⟩
  · exact hadd

theorem tableOnly_anomalyAddBuiltins (regex : Regex ρ) (det : AnomalyDetector ρ) :
    TableOnly det (anomalyAddBuiltins regex det) := by
  unfold anomalyAddBuiltins
  induction builtins generalizing det with
  | nil => exact .refl det
  | cons builtin rest ih => exact (tableOnly_addBuiltin regex det builtin).trans (ih _)

theorem Sound.of_tableOnly {det det' : AnomalyDetector ρ} (h : Sound stream det)
    (htable : TableOnly det det') : Sound stream det' :=
  ⟨htable.window.symm ▸ h.window, htable.few h.few⟩

theorem Sound.apply {det : AnomalyDetector ρ} (h : Sound stream det) {op : Op}
    (hop : op.Portioned) : Sound (op.hear stream) (op.apply regex det) := by
  cases op with
  | add name pattern severity => exact h.of_tableOnly (tableOnly_anomalyAddPattern ..)
  | addBuiltins => exact h.of_tableOnly (tableOnly_anomalyAddBuiltins ..)
  | feed clock data ts =>
    obtain ⟨news, -, hfed⟩ := anomalyFeed_spec h.window h.few hop.1 hop.2
    exact ⟨hfed.window, hfed.length.le.trans h.few⟩
  | resetWindow => exact ⟨h.window.reset, h.few⟩

theorem sound_runFrom {ops : List Op} (h : ∀ op ∈ ops, op.Portioned) :
    Sound (heard ops) (runFrom regex ops) := by
  have hrun : ∀ (rest : List Op) (stream : Bytes) (det : AnomalyDetector ρ), Sound stream det →
      (∀ op ∈ rest, op.Portioned) → Sound (rest.foldl Op.hear stream)
        (rest.foldl (Op.apply regex) det) := by
    intro rest
    induction rest with
    | nil => exact fun _ _ hsound _ => hsound
    | cons op rest ih =>
      intro stream det hsound hrest
      exact ih _ _ (hsound.apply (hrest op mem_cons_self)) fun o ho =>
        hrest o (mem_cons_of_mem _ ho)
  exact hrun ops [] anomalyInit ⟨holds_init, Nat.zero_le _⟩ h

theorem infix_scratchOf {before after region : Bytes} (h : region = before ++ word ++ after)
    (hend : before.length + word.length ≤ 4096) (hnul : 0 ∉ word) : word <:+: scratchOf region := by
  have hsame : (word.map fun c => if c = 0 then 32 else c) = word := by
    refine (map_congr_left fun c hc => ?_).trans (map_id word)
    exact if_neg fun h0 : c = 0 => hnul (h0 ▸ hc)
  rw [scratchOf, ← hsame]
  exact (infix_take h hend).map _

theorem scratchOf_clean (region : Bytes) : 0 ∉ scratchOf region := by
  intro h
  obtain ⟨c, -, hc⟩ := mem_map.mp h
  split_ifs at hc with h0
  · exact absurd hc (by decide)
  · exact h0 hc

theorem scratchOf_short (region : Bytes) : (scratchOf region).length ≤ 65536 := by
  rw [scratchOf, length_map, length_take]
  omega

/-- An occurrence of a pattern that ends in a portion makes this very feed record an
incident, when the pattern is out of its cooldown and the occurrence ends within the 4096
bytes that are searched: these begin 256 bytes before the portion. -/
theorem occurrence_is_recorded (regex : Regex ρ) (lang : Set Bytes) (S : Set ρ)
    (hsearch : regex.Searches lang S) (ops : List Op) (hops : ∀ op ∈ ops, op.Portioned)
    (clock : Nat → Nat × Nat) (data : Bytes) (ts : Rat)
    (hdata : (Op.feed clock data ts).Portioned) (p : AnomalyPattern ρ)
    (hp : p ∈ (runFrom regex ops).patterns) (hc : p.compiled ∈ S)
    (hneedle : ∀ w ∈ lang, ∀ region, w <:+: region → regionHasLiteral region p.literal = true)
    (hcool : ¬ (0 < p.lastFireTime ∧ ts - p.lastFireTime < (runFrom regex ops).cooldownS))
    (before w after : Bytes) (hw : w ∈ lang) (hnul : 0 ∉ w) (hshort : w.length ≤ 256)
    (hsplit : heard ops ++ data = before ++ w ++ after) (hlast : after.length < data.length)
    (hfits : before.length + w.length ≤ (heard ops).length - 256 + 4096) :
    let fed := anomalyFeed regex clock (runFrom regex ops) data ts
    ∃ kept news, fed.2.incidents = kept ++ news ∧ fed.1 = news.length ∧
      ∃ inc ∈ news, inc.patternName = p.name ∧ inc.timestamp = ts := by
  intro fed
  have hsound : Sound (heard ops) (runFrom regex ops) := sound_runFrom hops
  obtain ⟨news, hcount, hfed⟩ :
      ∃ news, fed.1 = news.length ∧ Fed regex ts (heard ops) data (runFrom regex ops) news fed.2 :=
    anomalyFeed_spec hsound.window hsound.few hdata.1 hdata.2
  obtain ⟨kept, -, hincidents⟩ := hfed.incidents
  have hlengths : (heard ops).length + data.length = before.length + w.length + after.length := by
    rw [← length_append, hsplit, length_append, length_append]
  have hregion : searchRegion (heard ops) data =
      before.drop ((heard ops).length - 256) ++ w ++ after := by
    have hstart : (heard ops ++ data).length - (overlap + data.length) =
        (heard ops).length - 256 := by
      rw [length_append, overlap]
      omega
    rw [searchRegion, List.rtake, hstart, hsplit, append_assoc,
      drop_append_of_le_length (by omega), append_assoc]
  refine ⟨kept, news, hincidents, hcount, hfed.fired p hp ⟨hcool, ?_, ?_⟩⟩
  · exact hneedle w hw _ ⟨_, _, hregion.symm⟩
  · refine (hsearch.found_iff _ hc _ (scratchOf_clean _)).mpr ⟨w, hw, ?_⟩
    refine infix_scratchOf hregion ?_ hnul
    rw [length_drop]
    omega

theorem regionHasLiteral_word {region : Bytes} (hne : word ≠ []) (hsep : 59 ∉ word)
    (hshort : word.length ≤ 31) (h : word <:+: region) : regionHasLiteral region word := by
  have hone : word.splitOn 59 = [word] := splitOn_eq_singleton hsep
  rw [regionHasLiteral, hone, any_cons, take_of_length_le hshort]
  simp [hne, h]

def oopsDetector (first : Bytes) : AnomalyDetector Bytes := runFrom wordRegex
  [.add (ascii "oops") (ascii "Oops:") (ascii "critical"), .feed (fun _ => (0, 0)) first 1]

theorem occurrence_is_recorded_split :
    ∃ inc ∈ (anomalyFeed wordRegex (fun _ => (0, 0)) (oopsDetector (ascii "xOo"))
      (ascii "ps:y") 2).2.incidents, inc.patternName = ascii "oops" ∧ inc.timestamp = 2 := by
  obtain ⟨p, hp⟩ : ∃ p, p ∈ (oopsDetector (ascii "xOo")).patterns :=
    exists_mem_of_ne_nil _ (by decide +kernel)
  have hfacts : ∀ q ∈ (oopsDetector (ascii "xOo")).patterns.map fun p =>
      (p.name, p.compiled, p.literal, p.lastFireTime),
      q = (ascii "oops", ascii "Oops:", ascii "Oops:", 0) := by decide +kernel
  have hp' := hfacts _ (mem_map.mpr ⟨p, hp, rfl⟩)
  simp only [Prod.mk.injEq] at hp'
  obtain ⟨hname, hcompiled, hliteral, hfire⟩ := hp'
  have hportions : ∀ op ∈ [Op.add (ascii "oops") (ascii "Oops:") (ascii "critical"),
      .feed (fun _ => (0, 0)) (ascii "xOo") 1], op.Portioned := by
    intro op hop
    rcases mem_pair.mp hop with rfl | rfl
    · trivial
    · exact ⟨by decide, by decide⟩
  have hneedle : ∀ w ∈ ({ascii "Oops:"} : Set Bytes), ∀ region, w <:+: region →
      regionHasLiteral region p.literal = true := by
    rintro w rfl region hin
    rw [hliteral]
    exact regionHasLiteral_word (by decide) (by decide) (by decide) hin
  have hcool : ¬ (0 < p.lastFireTime ∧ (2 : Rat) - p.lastFireTime <
      (oopsDetector (ascii "xOo")).cooldownS) := by
    rw [hfire]
    exact fun h => absurd h.1 (by decide)
  obtain ⟨kept, news, heq, -, inc, hinc, hfound⟩ := occurrence_is_recorded wordRegex
    {ascii "Oops:"} {ascii "Oops:"} (searches_wordRegex _) _ hportions (fun _ => (0, 0))
    (ascii "ps:y") 2 ⟨by decide, by decide⟩ p hp hcompiled hneedle hcool (ascii "x")
    (ascii "Oops:") (ascii "y") rfl (by decide) (by decide) (by decide) (by decide) (by decide)
  exact ⟨inc, heq ▸ mem_append_right _ hinc, hname ▸ hfound⟩

def letters : Bytes := List.replicate 256 97

def fullRead : Bytes := List.replicate 4091 97 ++ ascii "Oops:"

theorem fullRead_length : fullRead.length = 4096 := by
  rw [fullRead, length_append, length_replicate]
  rfl

theorem letters_patterns : (oopsDetector letters).patterns.map
    (fun p => (p.compiled, p.literal, p.lastFireTime)) =
      [(ascii "Oops:", ascii "Oops:", 0)] := by
  decide +kernel

theorem scratchOf_fullRead : ∀ c ∈ scratchOf (searchRegion letters fullRead), c = 97 := by
  have hregion : searchRegion letters fullRead = List.replicate 4347 97 ++ ascii "Oops:" := by
    rw [searchRegion, rtake_of_length_le, letters, fullRead, ← append_assoc,
      replicate_append_replicate]
    rw [length_append, fullRead_length, letters, length_replicate, overlap]
  intro c hc
  rw [scratchOf, hregion, take_append_of_le_length (by rw [length_replicate]; decide)]
    at hc
  obtain ⟨d, hd, rfl⟩ := mem_map.mp hc
  rw [(mem_replicate.mp (mem_of_mem_take hd)).2]
  rfl

theorem anomalyFeed_quiet {det : AnomalyDetector Bytes} (h : Sound stream det) (hne : data ≠ [])
    (hdata : data.length ≤ 4096) (hword : ∀ p ∈ det.patterns, p.compiled = word)
    (habsent : ¬ word <:+: scratchOf (searchRegion stream data)) (clock : Nat → Nat × Nat)
    (ts : Rat) : (anomalyFeed wordRegex clock det data ts).1 = 0 := by
  obtain ⟨news, hcount, hfed⟩ :
      ∃ news, (anomalyFeed wordRegex clock det data ts).1 = news.length ∧
        Fed wordRegex ts stream data det news (anomalyFeed wordRegex clock det data ts).2 :=
    anomalyFeed_spec h.window h.few hne hdata
  rw [hcount]
  refine length_eq_zero_iff.mpr (eq_nil_iff_forall_not_mem.mpr fun inc hinc => ?_)
  obtain ⟨p, hp, ⟨-, -, hfound⟩, -⟩ := hfed.only inc hinc
  rw [hword p hp] at hfound
  exact habsent ((firstAt_isSome word _).mp hfound)

/-- The word stands at the end of a read of 4096 bytes: the copy that is searched begins 256
bytes before the read and ends before the word, so that nothing is recorded. -/
theorem full_read_hides_its_end :
    (oopsDetector letters).patterns.map (fun p => (p.compiled, p.literal, p.lastFireTime)) =
        [(ascii "Oops:", ascii "Oops:", 0)] ∧
      fullRead.length = 4096 ∧ ascii "Oops:" <:+ fullRead ∧
      (anomalyFeed wordRegex (fun _ => (0, 0)) (oopsDetector letters) fullRead 2).1 = 0 := by
  have hletters : letters.length = 256 := length_replicate
  have hportions : ∀ op ∈ [Op.add (ascii "oops") (ascii "Oops:") (ascii "critical"),
      .feed (fun _ => (0, 0)) letters 1], op.Portioned := by
    intro op hop
    rcases mem_pair.mp hop with rfl | rfl
    · trivial
    · exact ⟨ne_nil_of_length_pos (by rw [hletters]; decide), by rw [hletters]; decide⟩
  have hword : ∀ p ∈ (oopsDetector letters).patterns, p.compiled = ascii "Oops:" := by
    intro p hp
    have hin : (p.compiled, p.literal, p.lastFireTime) ∈ (oopsDetector letters).patterns.map
        fun p => (p.compiled, p.literal, p.lastFireTime) := mem_map.mpr ⟨p, hp, rfl⟩
    rw [letters_patterns, mem_singleton] at hin
    exact congrArg Prod.fst hin
  refine ⟨letters_patterns, fullRead_length, suffix_append .., ?_⟩
  refine anomalyFeed_quiet (sound_runFrom hportions) (ne_nil_of_length_pos ?_)
    fullRead_length.le hword (fun hin => ?_) _ _
  · rw [fullRead_length]
    decide
  · have hletter : (79 : UInt8) ∈ ascii "Oops:" := by decide
    exact absurd (scratchOf_fullRead 79 (hin.subset hletter)) (by decide)

end Run

end Smolmux.Anomaly
