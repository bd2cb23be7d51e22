import Smolmux.AnomalyScan
import Smolmux.Broker.Link

/-! The incidents a feed records, against the patterns that fire and the places of the output
they fire on. -/

namespace Smolmux.Anomaly
open Lookback RegexEngine List

variable {ρ : Type}

instance (regex : Regex ρ) (ts cooldownS : Rat) (region : Bytes) (p : AnomalyPattern ρ) :
    Decidable (Fires regex ts cooldownS region p) := inferInstanceAs (Decidable (_ ∧ _ ∧ _))

def firing (regex : Regex ρ) (ts cooldownS : Rat) (region : Bytes)
    (patterns : List (AnomalyPattern ρ)) : List (AnomalyPattern ρ) :=
  patterns.filter fun p => decide (Fires regex ts cooldownS region p)

theorem scanPatterns_spec (regex : Regex ρ) (clock : Nat → Nat × Nat) (ts : Rat)
    (start left i found : Nat) (det : AnomalyDetector ρ) :
    ∃ news : List AnomalyIncident,
      (scanPatterns regex clock ts start left i found det).1 = found + news.length ∧
      (scanPatterns regex clock ts start left i found det).2.incidents =
        news.foldl store det.incidents ∧
      (scanPatterns regex clock ts start left i found det).2.patterns.length =
        det.patterns.length ∧
      (scanPatterns regex clock ts start left i found det).2.window = det.window ∧
      news.map (fun inc => (inc.patternName, inc.timestamp)) =
        (firing regex ts det.cooldownS (det.window.data.drop start)
          ((det.patterns.drop i).take left)).map fun p => (p.name, ts) := by
  induction left generalizing i found det with
  | zero => exact ⟨[], rfl, rfl, rfl, rfl, by rw [take_zero]; rfl⟩
  | succ left ih =>
    rw [scanPatterns]
    cases hp : det.patterns[i]? with
    | none =>
      rw [drop_eq_nil_of_le (List.getElem?_eq_none_iff.mp hp)]
      exact ⟨[], rfl, rfl, rfl, rfl, rfl⟩
    | some p =>
      obtain ⟨hi, rfl⟩ := List.getElem?_eq_some_iff.mp hp
      rw [drop_eq_getElem_cons hi, take_succ_cons]
      have hspec := checkPattern_spec regex (clock found) ts start det det.patterns[i]
      dsimp only
      generalize checkPattern regex (clock found) ts start det det.patterns[i] = r at hspec ⊢
      obtain ⟨q, fired⟩ := r
      have hahead : (det.patterns.set i q).drop (i + 1) = det.patterns.drop (i + 1) :=
        drop_set_of_lt (Nat.lt_succ_self i)
      rcases hspec with ⟨inc, rfl, hfires, hname, hts⟩ | ⟨rfl, hquiet⟩
      · obtain ⟨news, hcount, hstored, hlength, hwindow, horder⟩ := ih (i + 1) (found + 1)
          (recordIncident { det with patterns := det.patterns.set i q } inc)
        refine ⟨inc :: news, ?_, hstored, hlength.trans (length_set ..), hwindow, ?_⟩
        · dsimp only
          rw [hcount, length_cons]
          omega
        · rw [firing, filter_cons, if_pos (decide_eq_true hfires), map_cons,
            map_cons, hname, hts, horder, firing]
          dsimp only [recordIncident]
          rw [hahead]
          rfl
      · obtain ⟨news, hcount, hstored, hlength, hwindow, horder⟩ := ih (i + 1) found
          { det with patterns := det.patterns.set i q }
        refine ⟨news, hcount, hstored, hlength.trans (length_set ..), hwindow, ?_⟩
        rw [firing, filter_cons, if_neg (by simpa using hquiet), horder, firing]
        dsimp only
        rw [hahead]

theorem length_store_le {incidents : List AnomalyIncident}
    (h : incidents.length ≤ maxAnomalyIncidents) (inc : AnomalyIncident) :
    (store incidents inc).length ≤ maxAnomalyIncidents := by
  unfold store
  rw [maxAnomalyIncidents] at h ⊢
  rw [length_append, length_singleton]
  split_ifs
  · rw [length_drop]
    omega
  · omega

theorem foldl_store {incidents news : List AnomalyIncident} (hfew : news.length ≤ 768)
    (hfull : incidents.length ≤ maxAnomalyIncidents) :
    ∃ kept, kept <:+ incidents ∧ news.foldl store incidents = kept ++ news ∧
      (news.foldl store incidents).length ≤ maxAnomalyIncidents := by
  induction news using List.reverseRecOn with
  | nil => exact ⟨incidents, suffix_rfl, (append_nil _).symm, hfull⟩
  | append_singleton news inc ih =>
    rw [length_append, length_singleton] at hfew
    obtain ⟨kept, hsuffix, heq, hbound⟩ := ih (by omega)
    obtain ⟨kept', hsuffix', hstore⟩ := store_kept kept (Nat.le_of_succ_le hfew) inc
    rw [foldl_append, foldl_cons, foldl_nil]
    exact ⟨kept', hsuffix'.trans hsuffix, by rw [heq, hstore], length_store_le hbound inc⟩

structure Bounded (det : AnomalyDetector ρ) : Prop where
  patterns : det.patterns.length ≤ maxAnomalyPatterns
  incidents : det.incidents.length ≤ maxAnomalyIncidents

def regionAt (det : AnomalyDetector ρ) (data : Bytes) : Bytes :=
  (fillWindow det.window data).data.drop ((fillWindow det.window data).searchOffset - overlap)

theorem anomalyFeed_incidents (regex : Regex ρ) (clock : Nat → Nat × Nat) {det : AnomalyDetector ρ}
    (h : Bounded det) (data : Bytes) (ts : Rat) :
    ∃ kept news, kept <:+ det.incidents ∧
      (anomalyFeed regex clock det data ts).2.incidents = kept ++ news ∧
      (anomalyFeed regex clock det data ts).1 = news.length ∧
      Bounded (anomalyFeed regex clock det data ts).2 ∧
      (data ≠ [] → news.map (fun inc => (inc.patternName, inc.timestamp)) =
        (firing regex ts det.cooldownS (regionAt det data) det.patterns).map
          fun p => (p.name, ts)) := by
  by_cases hne : data = []
  · rw [anomalyFeed, if_pos hne]
    exact ⟨det.incidents, [], suffix_rfl, (append_nil _).symm, rfl, h,
      fun hdata => absurd hne hdata⟩
  · rw [anomalyFeed_eq hne]
    dsimp only
    obtain ⟨news, hcount, hstored, hlength, -, horder⟩ := scanPatterns_spec regex clock ts
      ((filledWith det data).window.searchOffset - overlap)
      (filledWith det data).patterns.length 0 0 (filledWith det data)
    generalize scanPatterns regex clock ts ((filledWith det data).window.searchOffset - overlap)
      (filledWith det data).patterns.length 0 0 (filledWith det data) = r
      at hcount hstored hlength ⊢
    rw [drop_zero, take_length] at horder
    have hfew : news.length ≤ 768 := by
      have hcard := congrArg List.length horder
      rw [length_map, length_map] at hcard
      have hle := length_filter_le (fun p => decide (Fires regex ts
        (filledWith det data).cooldownS ((filledWith det data).window.data.drop
          ((filledWith det data).window.searchOffset - overlap)) p)) (filledWith det data).patterns
      have hpatterns := h.patterns
      rw [filledWith_patterns] at hle
      rw [firing, filledWith_patterns] at hcard
      rw [maxAnomalyPatterns] at hpatterns
      omega
    obtain ⟨kept, hsuffix, heq, hbound⟩ := foldl_store hfew h.incidents
    have hincidents : (filledWith det data).incidents = det.incidents := by rw [filledWith]
    have hcooldown : (filledWith det data).cooldownS = det.cooldownS := by rw [filledWith]
    rw [hincidents] at hstored
    rw [filledWith_patterns] at hlength
    rw [filledWith_patterns, hcooldown] at horder
    refine ⟨kept, news, hsuffix, hstored.trans heq, ?_, ⟨?_, ?_⟩, fun _ => horder⟩
    · rw [hcount, Nat.zero_add]
    · exact hlength.trans_le h.patterns
    · exact (congrArg List.length hstored).trans_le hbound

theorem Bounded.of_tableOnly {det det' : AnomalyDetector ρ} (h : Bounded det)
    (htable : TableOnly det det') : Bounded det' :=
  ⟨htable.few h.patterns, htable.incidents.symm ▸ h.incidents⟩

theorem Bounded.apply {regex : Regex ρ} {det : AnomalyDetector ρ} (h : Bounded det) (op : Op) :
    Bounded (op.apply regex det) := by
  cases op with
  | add name pattern severity => exact h.of_tableOnly (tableOnly_anomalyAddPattern ..)
  | addBuiltins => exact h.of_tableOnly (tableOnly_anomalyAddBuiltins ..)
  | feed clock data ts =>
    obtain ⟨kept, news, -, -, -, hbounded, -⟩ := anomalyFeed_incidents regex clock h data ts
    exact hbounded
  | resetWindow => exact ⟨h.patterns, h.incidents⟩

theorem bounded_runFrom (regex : Regex ρ) (ops : List Op) : Bounded (runFrom regex ops) := by
  induction ops using List.reverseRecOn with
  | nil => exact ⟨Nat.zero_le _, Nat.zero_le _⟩
  | append_singleton ops op ih =>
    rw [runFrom, foldl_append]
    exact Bounded.apply ih op

variable {stream : Bytes} {w : Window}

section Places

structure Follows (stream : Bytes) (w : Window) : Prop where
  data : w.data <:+ stream
  searched : w.searchOffset = w.data.length
  least : 4096 ≤ w.cap
  most : w.cap ≤ maxAnomalyWindow

theorem Follows.keepLast (h : Follows stream w) (keep : Nat) :
    Follows stream (keepLast w keep) where
  data := (drop_suffix _ _).trans h.data
  searched := by
    rw [Anomaly.keepLast]
    dsimp only
    rw [length_drop, h.searched]
  least := h.least
  most := h.most

theorem growWindow_cases (len : Nat) {fuel : Nat} (hsize : w.data.length ≤ 8192)
    (hfuel : maxAnomalyWindow < w.cap * 2 ^ fuel) (hleast : 4096 ≤ w.cap)
    (hmost : w.cap ≤ maxAnomalyWindow) :
    ∃ cap, 4096 ≤ cap ∧ cap ≤ maxAnomalyWindow ∧
      (growWindow len fuel w = { w with cap := cap } ∧ w.data.length + len < cap ∨
        growWindow len fuel w = Window.reset { w with cap := cap }) := by
  induction fuel generalizing w with
  | zero =>
    rw [pow_zero, Nat.mul_one] at hfuel
    exact absurd hmost (Nat.not_le.mpr hfuel)
  | succ fuel ih =>
    rw [growWindow]
    split_ifs with hroom hbig hold
    · exact ⟨w.cap, hleast, hmost, .inl ⟨rfl, hroom⟩⟩
    · -- so much capacity holds what little there is
      rw [maxAnomalyWindow] at hbig
      omega
    · exact ⟨w.cap, hleast, hmost, .inr rfl⟩
    · have hmore : maxAnomalyWindow < w.cap * 2 * 2 ^ fuel := by
        rwa [Nat.mul_assoc, ← Nat.pow_succ']
      exact ih (w := { w with cap := w.cap * 2 }) hsize hmore (by dsimp only; omega)
        (Nat.le_of_not_lt hbig)

theorem Follows.fill (h : Follows stream w) (data : Bytes) :
    Follows (stream ++ data)
        { fillWindow w data with searchOffset := (fillWindow w data).data.length } ∧
      ((fillWindow w data).data.drop ((fillWindow w data).searchOffset - overlap)).length ≤
        overlap + data.length := by
  obtain ⟨trimmed, htrimmed⟩ : ∃ trimmed,
      (if 8192 < w.data.length then Anomaly.keepLast w 4096 else w) = trimmed := ⟨_, rfl⟩
  have hfollows : Follows stream trimmed := by
    rw [← htrimmed]
    split_ifs
    · exact h.keepLast 4096
    · exact h
  have hsize : trimmed.data.length ≤ 8192 := by
    rw [← htrimmed]
    split_ifs with hlong
    · rw [Anomaly.keepLast]
      dsimp only
      rw [length_drop]
      omega
    · omega
  have hfuel : maxAnomalyWindow < trimmed.cap * 2 ^ maxAnomalyWindow.log2 := by
    have hleast := hfollows.least
    rw [growWindow_log2, maxAnomalyWindow]
    omega
  obtain ⟨cap, hleast, hmost, hgrown⟩ :=
    growWindow_cases data.length hsize hfuel hfollows.least hfollows.most
  rw [fillWindow, htrimmed]
  rcases hgrown with ⟨hgrown, hroom⟩ | hgrown
  · rw [hgrown]
    dsimp only
    rw [if_pos hroom]
    obtain ⟨before, hbefore⟩ := hfollows.data
    refine ⟨⟨⟨before, ?_⟩, rfl, hleast, hmost⟩, ?_⟩
    · rw [← hbefore, append_assoc]
    · rw [length_drop, length_append, hfollows.searched]
      omega
  · have hempty : growWindow data.length maxAnomalyWindow.log2 trimmed = ⟨[], cap, 0⟩ := hgrown
    rw [hempty]
    dsimp only
    by_cases hroom : ([] : Bytes).length + data.length < cap
    · rw [if_pos hroom]
      dsimp only
      refine ⟨⟨suffix_append _ _, rfl, hleast, hmost⟩, ?_⟩
      rw [nil_append, length_drop]
      omega
    · -- the portion is lost, and nothing else is in the window
      rw [if_neg hroom]
      dsimp only
      refine ⟨⟨nil_suffix, rfl, hleast, hmost⟩, ?_⟩
      rw [drop_nil, length_nil]
      exact Nat.zero_le _

structure Feed where
  clock : Nat → Nat × Nat
  data : Bytes
  ts : Rat

def follow (regex : Regex ρ) (det : AnomalyDetector ρ) (feeds : List Feed) : AnomalyDetector ρ :=
  feeds.foldl (fun det feed => (anomalyFeed regex feed.clock det feed.data feed.ts).2) det

def streamOf (feeds : List Feed) : Bytes := feeds.flatMap Feed.data

def textAt (regex : Regex Compiled) (stream region : Bytes) (p : AnomalyPattern Compiled) :
    Option (Nat × Nat) :=
  (regex.exec p.compiled (scratchOf region)).1.map fun off =>
    (stream.length - region.length + off,
      stream.length - region.length + matchEnd p.compiled.expr (scratchOf region) off)

/-- Where the text of the output begins and ends that pattern `k` fires on at the feed with
index `n`: the leftmost match, and the longest one there. -/
def firesAt (regex : Regex Compiled) (det : AnomalyDetector Compiled) (feeds : List Feed)
    (n k : Nat) : Option (Nat × Nat) :=
  (feeds[n]?).bind fun feed =>
    let before := follow regex det (feeds.take n)
    let region := regionAt before feed.data
    if feed.data = [] then none
    else (before.patterns[k]?).bind fun p =>
      if Fires regex feed.ts before.cooldownS region p then
        textAt regex (streamOf (feeds.take (n + 1))) region p
      else none

/-- Pattern `k` is out of its cooldown at the feed with index `n`. -/
def dueAt (regex : Regex ρ) (det : AnomalyDetector ρ) (feeds : List Feed) (n k : Nat) : Bool :=
  (feeds[n]?).any fun feed =>
    let before := follow regex det (feeds.take n)
    feed.data ≠ [] && (before.patterns[k]?).any fun p =>
      decide (¬ (0 < p.lastFireTime ∧ feed.ts - p.lastFireTime < before.cooldownS))

variable {n k : Nat} {feed : Feed}

theorem streamOf_succ {feeds : List Feed} (hfeed : feeds[n]? = some feed) :
    streamOf (feeds.take (n + 1)) = streamOf (feeds.take n) ++ feed.data := by
  rw [streamOf, take_add_one, hfeed, flatMap_append]
  simp [streamOf]

theorem firesAt_spec {regex : Regex Compiled} {det : AnomalyDetector Compiled} {feeds : List Feed}
    {p : Nat × Nat} (hat : firesAt regex det feeds n k = some p) :
    ∃ feed q off, feeds[n]? = some feed ∧ feed.data ≠ [] ∧
      (follow regex det (feeds.take n)).patterns[k]? = some q ∧
      Fires regex feed.ts (follow regex det (feeds.take n)).cooldownS
        (regionAt (follow regex det (feeds.take n)) feed.data) q ∧
      p.1 = (streamOf (feeds.take n) ++ feed.data).length -
        (regionAt (follow regex det (feeds.take n)) feed.data).length + off := by
  obtain ⟨feed, hfeed, hat⟩ := Option.bind_eq_some_iff.mp hat
  dsimp only at hat
  split_ifs at hat with hdata
  obtain ⟨q, hq, hat⟩ := Option.bind_eq_some_iff.mp hat
  split_ifs at hat with hfires
  obtain ⟨off, -, rfl⟩ := Option.map_eq_some_iff.mp hat
  rw [streamOf_succ hfeed]
  exact ⟨feed, q, off, hfeed, hdata, hq, hfires, rfl⟩

variable (regex : Regex ρ) {det : AnomalyDetector ρ}

theorem follows_feed (h : Follows stream det.window) (feed : Feed) :
    Follows (stream ++ feed.data)
      (anomalyFeed regex feed.clock det feed.data feed.ts).2.window := by
  by_cases hdata : feed.data = []
  · rw [anomalyFeed, if_pos hdata, hdata, append_nil]
    exact h
  · rw [anomalyFeed_eq hdata]
    dsimp only
    obtain ⟨-, -, -, -, hwindow, -⟩ := scanPatterns_spec regex feed.clock feed.ts
      ((filledWith det feed.data).window.searchOffset - overlap)
      (filledWith det feed.data).patterns.length 0 0 (filledWith det feed.data)
    rw [hwindow]
    exact (h.fill feed.data).1

theorem follows_follow (h : Follows stream det.window) (feeds : List Feed) :
    Follows (stream ++ streamOf feeds) (follow regex det feeds).window := by
  induction feeds generalizing det stream with
  | nil => rwa [streamOf, flatMap_nil, append_nil]
  | cons feed feeds ih =>
    have hrest := ih (follows_feed regex h feed)
    rw [append_assoc] at hrest
    exact hrest

section Posix

variable {regex : Regex Compiled} {det : AnomalyDetector Compiled} {feeds : List Feed} {p : Nat × Nat}

theorem le_of_firesAt (h : Follows [] det.window) (hat : firesAt regex det feeds n k = some p) :
    (streamOf (feeds.take n)).length ≤ p.1 + overlap := by
  obtain ⟨feed, q, off, -, -, -, -, hp⟩ := firesAt_spec hat
  have hfollows := follows_follow regex h (feeds.take n)
  have hregion : (regionAt (follow regex det (feeds.take n)) feed.data).length ≤
      overlap + feed.data.length := (hfollows.fill feed.data).2
  rw [hp, length_append]
  omega

theorem dueAt_of_firesAt (hat : firesAt regex det feeds n k = some p) :
    dueAt regex det feeds n k := by
  obtain ⟨feed, q, off, hfeed, hdata, hq, hfires, -⟩ := firesAt_spec hat
  rw [dueAt, hfeed, Option.any_some]
  dsimp only
  rw [hq, Option.any_some, decide_eq_true hdata, decide_eq_true hfires.1]
  rfl

theorem isSome_firesAt (hfeed : feeds[n]? = some feed) (hdata : feed.data ≠ [])
    {q : AnomalyPattern Compiled} (hq : (follow regex det (feeds.take n)).patterns[k]? = some q) :
    (firesAt regex det feeds n k).isSome =
      decide (Fires regex feed.ts (follow regex det (feeds.take n)).cooldownS
        (regionAt (follow regex det (feeds.take n)) feed.data) q) := by
  rw [firesAt, hfeed, Option.bind_some]
  dsimp only
  rw [if_neg hdata, hq, Option.bind_some]
  split_ifs with hfires
  · rw [textAt, Option.isSome_map, hfires.2.2, decide_eq_true hfires]
  · rw [decide_eq_false hfires, Option.isSome_none]

theorem bounded_follow (h : Bounded det) (feeds : List Feed) : Bounded (follow regex det feeds) := by
  induction feeds generalizing det with
  | nil => exact h
  | cons feed feeds ih =>
    obtain ⟨-, -, -, -, -, hnext, -⟩ := anomalyFeed_incidents regex feed.clock h feed.data feed.ts
    exact ih hnext

/-- The patterns of which a feed records an incident, in the order of the table. -/
theorem recorded_of_firesAt (h : Bounded det) (hfeed : feeds[n]? = some feed) :
    ∃ kept news, kept <:+ (follow regex det (feeds.take n)).incidents ∧
      (follow regex det (feeds.take (n + 1))).incidents = kept ++ news ∧
      news.map (fun inc => (inc.patternName, inc.timestamp)) =
        ((follow regex det (feeds.take n)).patterns.zipIdx.filter fun p =>
          (firesAt regex det feeds n p.2).isSome).map fun p => (p.1.name, feed.ts) := by
  obtain ⟨before, hbefore⟩ : ∃ before, follow regex det (feeds.take n) = before := ⟨_, rfl⟩
  have hnext : follow regex det (feeds.take (n + 1)) =
      (anomalyFeed regex feed.clock before feed.data feed.ts).2 := by
    rw [← hbefore, follow, take_add_one, hfeed, foldl_append]
    rfl
  obtain ⟨kept, news, hkept, hincidents, -, -, hnews⟩ := anomalyFeed_incidents regex feed.clock
    (hbefore ▸ bounded_follow h (feeds.take n)) feed.data feed.ts
  rw [hnext, hbefore]
  by_cases hdata : feed.data = []
  · have hnone : ∀ k, firesAt regex det feeds n k = none := fun k => by
      rw [firesAt, hfeed, Option.bind_some, if_pos hdata]
    refine ⟨before.incidents, [], suffix_rfl, ?_, ?_⟩
    · rw [anomalyFeed, if_pos hdata, append_nil]
    · simp [hnone]
  · refine ⟨kept, news, hkept, hincidents, ?_⟩
    have hplaces : (before.patterns.zipIdx.filter fun p => (firesAt regex det feeds n p.2).isSome) =
        before.patterns.zipIdx.filter fun p => decide (Fires regex feed.ts before.cooldownS
          (regionAt before feed.data) p.1) := by
      refine filter_congr fun p hp => ?_
      have hq : (follow regex det (feeds.take n)).patterns[p.2]? = some p.1 :=
        hbefore ▸ mem_zipIdx_iff_getElem?.mp hp
      rw [isSome_firesAt hfeed hdata hq, hbefore]
    rw [hnews hdata, firing, hplaces]
    conv_lhs => rw [← zipIdx_map_fst 0 before.patterns, filter_map, map_map]
    rfl

/-- Each feed records the incidents of the patterns that fire at it. Where 256 bytes have come
since the end of the text a pattern fired on before the pattern may fire again, the text it
fires on next is another one, behind it. -/
theorem occurrence_fires_once (accepts : Bytes → Bool) (slow : Ere → Bytes → Bool)
    (det : AnomalyDetector Compiled) (h : Follows [] det.window) (hbounded : Bounded det)
    (feeds : List Feed) :
    let regex := posixRegex accepts slow
    (∀ n feed, feeds[n]? = some feed →
      ∃ kept news, kept <:+ (follow regex det (feeds.take n)).incidents ∧
        (follow regex det (feeds.take (n + 1))).incidents = kept ++ news ∧
        news.map (fun inc => (inc.patternName, inc.timestamp)) =
          ((follow regex det (feeds.take n)).patterns.zipIdx.filter fun p =>
            (firesAt regex det feeds n p.2).isSome).map fun p => (p.1.name, feed.ts)) ∧
      ∀ k, (∀ n m start stop, n < m → firesAt regex det feeds n k = some (start, stop) →
          dueAt regex det feeds m k = true → stop + 256 ≤ (streamOf (feeds.take m)).length) →
        ∀ n m start stop start' stop', n < m → firesAt regex det feeds n k = some (start, stop) →
          firesAt regex det feeds m k = some (start', stop') → stop ≤ start' := by
  refine ⟨fun n feed hfeed => recorded_of_firesAt hbounded hfeed,
    fun k hfar n m start stop start' stop' hlt hn hm => ?_⟩
  have hbehind := hfar n m start stop hlt hn (dueAt_of_firesAt hm)
  exact Nat.le_of_add_le_add_right (hbehind.trans (le_of_firesAt h hm))

end Posix

theorem follows_anomalyInit : Follows [] (anomalyInit : AnomalyDetector ρ).window :=
  ⟨suffix_rfl, rfl, Nat.le_refl _, (by decide : 4096 ≤ 65536)⟩

end Places

def oopsAdded : AnomalyDetector Compiled :=
  (anomalyAddPattern plainRegex anomalyInit (ascii "oops") (ascii "Oops:") (ascii "critical")).1

/-- Two reports, with 256 bytes between the texts. -/
theorem occurrence_fires_once_oops :
    let feeds : List Feed := [⟨fun _ => (0, 0), ascii "Oops:", 1⟩,
      ⟨fun _ => (0, 0), List.replicate 256 97, 2⟩, ⟨fun _ => (0, 0), ascii "Oops:", 7⟩]
    firesAt plainRegex oopsAdded feeds 0 0 = some (0, 5) ∧
      firesAt plainRegex oopsAdded feeds 2 0 = some (261, 266) ∧
      ∀ n m start stop start' stop', n < m →
        firesAt plainRegex oopsAdded feeds n 0 = some (start, stop) →
        firesAt plainRegex oopsAdded feeds m 0 = some (start', stop') → stop ≤ start' := by
  intro feeds
  have hwindow : Follows [] oopsAdded.window := by
    rw [oopsAdded, (tableOnly_anomalyAddPattern ..).window]
    exact follows_anomalyInit
  refine ⟨by decide +kernel, by decide +kernel,
    (occurrence_fires_once _ _ oopsAdded hwindow (bounded_runFrom plainRegex [.add _ _ _]) feeds).2
      0 fun n m start stop hlt hn hdue => ?_⟩
  have hfew : ∀ m, dueAt plainRegex oopsAdded feeds m 0 = true → m < 3 := by
    intro m hm
    by_contra hle
    rw [dueAt, List.getElem?_eq_none_iff.mpr (Nat.le_of_not_lt hle)] at hm
    cases hm
  have hall : ∀ m < 3, ∀ n < m, dueAt plainRegex oopsAdded feeds m 0 = true →
      (firesAt plainRegex oopsAdded feeds n 0).all fun p =>
        decide (p.2 + 256 ≤ (streamOf (feeds.take m)).length) := by decide +kernel
  have hfar := hall m (hfew m hdue) n hlt hdue
  rw [show firesAt plainRegex oopsAdded feeds n 0 = _ from hn] at hfar
  exact of_decide_eq_true hfar

theorem occurrence_fires_again :
    let feeds : List Feed := [⟨fun _ => (0, 0), ascii "Oops:", 1⟩, ⟨fun _ => (0, 0), ascii "x", 7⟩]
    firesAt plainRegex oopsAdded feeds 0 0 = some (0, 5) ∧
      firesAt plainRegex oopsAdded feeds 1 0 = some (0, 5) ∧
      (follow plainRegex oopsAdded feeds).incidents.map
          (fun inc => (inc.patternName, inc.timestamp)) = [(ascii "oops", 1), (ascii "oops", 7)] := by
  decide +kernel

end Smolmux.Anomaly

namespace Smolmux.Broker
open Anomaly

variable {ρ : Type}

def announceIncidents (news : List AnomalyIncident) : M ρ Unit := do
  Proc.each (fun inc => broadcast (incidentMsg inc) none) news
  match (news.filter (·.severity == ascii "critical")).getLast? with
  | none => pure ()
  | some inc => do
    abortExpects (ascii "anomaly") inc.patternName
    processExpectResults

/-- For every detector that any operations lead to and every feed, the number returned is that
of the incidents appended, which stand at the end of the store in the order of the patterns
that fire, and the store keeps its limit. The broker then reports these incidents and no
others, each once and in that order. -/
theorem incidents_accounted (regex : Regex ρ) (ops : List Op) (clock : Nat → Nat × Nat)
    (data : Bytes) (ts : Rat) :
    let det := runFrom regex ops
    let fed := anomalyFeed regex clock det data ts
    ∃ kept news, kept <:+ det.incidents ∧ fed.2.incidents = kept ++ news ∧
      fed.1 = news.length ∧
      (data ≠ [] → news.map (fun inc => (inc.patternName, inc.timestamp)) =
        (firing regex ts det.cooldownS (regionAt det data) det.patterns).map
          fun p => (p.name, ts)) ∧
      fed.2.incidents.length ≤ 1024 ∧ fed.1 ≤ fed.2.incidents.length ∧
      ∀ (e : Env ρ) (b : Broker ρ), e.regex = regex → e.clock b.queries = clock →
        b.anomaly = det →
        feedAnomaly data ts e b =
          announceIncidents news e { b with queries := b.queries + 1, anomaly := fed.2 } := by
  intro det fed
  obtain ⟨kept, news, hsuffix, hincidents, hcount, hbounded, horder⟩ :
      ∃ kept news, kept <:+ det.incidents ∧ fed.2.incidents = kept ++ news ∧
        fed.1 = news.length ∧ Bounded fed.2 ∧ (data ≠ [] →
          news.map (fun inc => (inc.patternName, inc.timestamp)) =
            (firing regex ts det.cooldownS (regionAt det data) det.patterns).map
              fun p => (p.name, ts)) :=
    anomalyFeed_incidents regex clock (bounded_runFrom regex ops) data ts
  have hfresh : fed.2.incidents.drop (fed.2.incidents.length - fed.1) = news := by
    rw [hincidents, hcount, List.length_append, Nat.add_sub_cancel, List.drop_left]
  refine ⟨kept, news, hsuffix, hincidents, hcount, horder, hbounded.incidents, ?_, ?_⟩
  · rw [hincidents, hcount, List.length_append]
    exact Nat.le_add_left _ _
  · rintro e b rfl rfl hanomaly
    have hfed : anomalyFeed e.regex (ask Env.clock e b).1 (ask Env.clock e b).2.anomaly data ts =
        fed := congrArg (fun det => anomalyFeed e.regex (e.clock b.queries) det data ts) hanomaly
    simp only [feedAnomaly, Proc.bind_apply, Proc.env_apply, Proc.get_apply, Proc.modify_apply,
      hfed, hfresh]
    rfl

end Smolmux.Broker
