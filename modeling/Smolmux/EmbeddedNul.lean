import Smolmux.AutoresponderScan
import Smolmux.BootProgress
import Smolmux.ExpectScan

/-! Output with NUL bytes in it. The windows of the expect requests, the boot tracker and the
autoresponder hold the bytes as they came, and the regex engine reads what it searches up to
the first NUL: a match that has no NUL before it is found, one behind a NUL is not. -/

namespace Smolmux
open Lookback RegexEngine List

namespace Expect

def window (stream data : Bytes) : Bytes :=
  (stream ++ data).rtake (min (expectScanLookback + data.length) 65536)

theorem window_eq (stream data : Bytes) :
    (((stream ++ data).rtake maxExpectBufSize).rtake
      (expectScanLookback + data.length)).rtake 65536 = window stream data := by
  rw [rtake_rtake_min, rtake_rtake_min, window]
  congr 1
  rw [maxExpectBufSize]
  omega

variable {regex : Regex Compiled} (hregex : FindsShown regex)
include hregex

theorem reads_or_matched {req : ExpectRequest Compiled} (hfresh : Reading [] req)
    (chunks : List Bytes) :
    (follow regex req chunks).compiled.expr = req.compiled.expr ∧
      (Reading chunks.flatten (follow regex req chunks) ∨
        (follow regex req chunks).matched) := by
  induction chunks using List.reverseRecOn with
  | nil => exact ⟨rfl, .inl hfresh⟩
  | append_singleton chunks data ih =>
    obtain ⟨hexpr, hreading | hmatched⟩ := ih
    · rw [follow_append, flatten_append, flatten_singleton]
      rw [follow, foldl_cons, foldl_nil, feedRequest_buffer _ hreading data]
      dsimp only
      refine ⟨(hregex.keeps _ _).trans hexpr, ?_⟩
      generalize regex.exec _ _ = found
      cases found.1.isSome with
      | true => exact .inr rfl
      | false => exact .inl ⟨by dsimp only, by dsimp only, by dsimp only⟩
    · rw [follow_append, follow_matched hmatched]
      exact ⟨hexpr, .inr hmatched⟩

theorem matched_of_shows {req : ExpectRequest Compiled} (hfresh : Reading [] req)
    (hexpr : req.compiled.expr.Avoids 0) (chunks : List Bytes) (data : Bytes)
    (henabled : (follow regex req chunks).compiled.disabled = false)
    (hshows : Shows req.compiled.expr (window chunks.flatten data)) :
    (follow regex req (chunks ++ [data])).matched := by
  obtain ⟨hsame, hreading | hmatched⟩ := reads_or_matched hregex hfresh chunks
  · rw [← hsame] at hexpr hshows
    rw [← window_eq] at hshows
    rw [follow_append, follow, foldl_cons, foldl_nil, feedRequest_buffer _ hreading data]
    exact hregex.finds _ _ henabled hexpr hshows
  · rw [follow_append, follow_matched hmatched]
    exact hmatched

omit hregex in
/-- A request for `pattern` matches at the portion after which the expression shows in what
the engine reads, whatever came before. -/
def Detects (regex : Regex Compiled) (pattern : Bytes) (expr : Ere) : Prop :=
  ∀ growMem bufMem eng eng' id timeoutS clientId now owner,
    expectAdd regex growMem bufMem eng id pattern timeoutS clientId now owner = (eng', none) →
    ∃ req, (∀ chunks, (feedAll regex eng' chunks).requests =
        (feedAll regex eng chunks).requests ++ [follow regex req chunks]) ∧
      ∀ chunks data, (follow regex req chunks).compiled.disabled = false →
        Shows expr (window chunks.flatten data) →
        (follow regex req (chunks ++ [data])).matched = true

theorem detects {pattern : Bytes} {expr : Ere}
    (hcompile : ∀ re, regex.compile pattern = some re → re.expr = expr)
    (hexpr : expr.Avoids 0) : Detects regex pattern expr := by
  intro growMem bufMem eng eng' id timeoutS clientId now owner hadd
  have hadds := adds_expectAdd regex growMem bufMem eng id pattern timeoutS clientId now owner
  rw [hadd] at hadds
  cases hadds with
  | added compiled hcompiled hrequests hnext =>
  have hsame : compiled.expr = expr := hcompile compiled hcompiled
  refine ⟨newRequest id pattern compiled (now + timeoutS) clientId eng.next owner, ?_, ?_⟩
  · intro chunks
    rw [feedAll_requests, feedAll_requests, hrequests, map_append]
    rfl
  · intro chunks data henabled hshows
    refine matched_of_shows hregex (reading_newRequest ..) ?_ chunks data henabled ?_
    · exact hsame.symm ▸ hexpr
    · exact hsame.symm ▸ hshows

end Expect

namespace BootStage

variable {ρ : Type} (regex : Regex ρ)

def follow (t : BootTracker ρ) (feeds : List (Bytes × Rat)) : BootTracker ρ :=
  feeds.foldl (fun t feed => (bootFeed regex t feed.1 feed.2).2) t

def taken (t : BootTracker ρ) (data : Bytes) : BootTracker ρ :=
  detectReboot regex { t with window := t.window.append data }

def region (t : BootTracker ρ) : Bytes := t.window.data.drop (t.window.searchOffset - 256)

theorem detectReboot_window (t : BootTracker ρ) :
    (detectReboot regex t).window.data <:+ t.window.data ∧
      (detectReboot regex t).window.cap = t.window.cap ∧
      (detectReboot regex t).stages.length = t.stages.length := by
  unfold detectReboot
  split
  · exact ⟨suffix_rfl, rfl, rfl⟩
  next s rest hstages =>
    split
    · exact ⟨suffix_rfl, rfl, rfl⟩
    dsimp only
    split
    · exact ⟨suffix_rfl, rfl, by rw [hstages]; rfl⟩
    · refine ⟨drop_suffix _ _, rfl, ?_⟩
      rw [bootReset, hstages, length_map]
      rfl

theorem reachStages_reached (region : Bytes) (ts : Rat) (i : Nat) (furthest : Int)
    (stages : List (BootStage ρ)) :
    (reachStages regex region ts i furthest stages).2.1.map BootStage.reached =
      stages.map fun s => s.reached || (regex.exec s.compiled region).1.isSome := by
  rw [reachStages_stages, map_map]
  refine map_congr_left fun s _ => ?_
  rw [Function.comp_apply, BootStage.look]
  split
  · next hreached => rw [hreached, Bool.true_or]
  · next hreached => rw [Bool.eq_false_iff.mpr hreached, Bool.false_or]

theorem bootFeed_spec (t : BootTracker ρ) {data : Bytes} (ts : Rat) (hdata : data ≠ [])
    (hstages : t.stages ≠ []) (hcap : t.window.cap ≠ 0) :
    (bootFeed regex t data ts).2.window =
        { (taken regex t data).window with
          searchOffset := (taken regex t data).window.data.length } ∧
      (bootFeed regex t data ts).2.stages.map BootStage.reached =
        (taken regex t data).stages.map fun s =>
          s.reached || (regex.exec s.compiled (region (taken regex t data))).1.isSome := by
  have hfeed : ¬ (data = [] ∨ t.stages = [] ∨ t.window.cap = 0) := by simp [hdata, hstages, hcap]
  rw [bootFeed, if_neg hfeed]
  exact ⟨rfl, reachStages_reached regex _ _ _ _ _⟩

theorem reads_feed {t : BootTracker ρ} {stream : Bytes} (h : t.window.Reads stream)
    (hstages : t.stages ≠ []) (data : Bytes) (ts : Rat) :
    (bootFeed regex t data ts).2.window.Reads (stream ++ data) ∧
      (bootFeed regex t data ts).2.window.cap = t.window.cap ∧
      (bootFeed regex t data ts).2.stages ≠ [] := by
  by_cases hdata : data = []
  · have hsame : (bootFeed regex t data ts).2 = t := by rw [bootFeed, if_pos (.inl hdata)]
    rw [hsame, hdata, append_nil]
    exact ⟨h, rfl, hstages⟩
  · have hcap : t.window.cap ≠ 0 := Nat.ne_zero_of_lt h.short
    obtain ⟨hwindow, hreached⟩ := bootFeed_spec regex t ts hdata hstages hcap
    obtain ⟨hsuffix, hsame, hlength⟩ :=
      detectReboot_window regex { t with window := t.window.append data }
    obtain ⟨hdata', hshort⟩ := h.append data
    have hcap' : (taken regex t data).window.cap = t.window.cap :=
      hsame.trans (Window.append_cap _ _)
    rw [hwindow]
    refine ⟨⟨hsuffix.trans hdata', ?_, rfl⟩, hcap', ?_⟩
    · dsimp only
      rw [hcap']
      exact hsuffix.length_le.trans_lt hshort
    · have hcount := congrArg List.length hreached
      rw [length_map, length_map] at hcount
      exact ne_nil_of_length_pos
        ((hcount.trans hlength).symm ▸ length_pos_iff.mpr hstages)

theorem reads_follow {t : BootTracker ρ} {stream : Bytes} (h : t.window.Reads stream)
    (hstages : t.stages ≠ []) (feeds : List (Bytes × Rat)) :
    (follow regex t feeds).window.Reads (stream ++ feeds.flatMap Prod.fst) ∧
      (follow regex t feeds).window.cap = t.window.cap ∧
      (follow regex t feeds).stages ≠ [] := by
  induction feeds generalizing t stream with
  | nil => exact ⟨by rwa [flatMap_nil, append_nil], rfl, hstages⟩
  | cons feed feeds ih =>
    obtain ⟨hreads, hcap, hstages'⟩ := reads_feed regex h hstages feed.1 feed.2
    obtain ⟨hreads', hcap', hstages''⟩ := ih hreads hstages'
    refine ⟨?_, hcap'.trans hcap, hstages''⟩
    rw [append_assoc] at hreads'
    exact hreads'

theorem reached_of_shows {regex : Regex Compiled} (hregex : FindsShown regex)
    {t : BootTracker Compiled} {stream : Bytes} (h : t.window.Reads stream)
    (hcap : t.window.cap = bootWindowBytes) {data : Bytes} (hdata : data ≠ []) (ts : Rat)
    {k : Nat} {s : BootStage Compiled} (hk : (taken regex t data).stages[k]? = some s)
    (henabled : s.compiled.disabled = false) (hexpr : s.compiled.expr.Avoids 0)
    (hshows : Shows s.compiled.expr (region (taken regex t data))) :
    ((bootFeed regex t data ts).2.stages[k]?).map BootStage.reached = some true := by
  obtain ⟨hsuffix, -, hlength⟩ :=
    detectReboot_window regex { t with window := t.window.append data }
  have hstages : t.stages ≠ [] := by
    rintro hnil
    have hlt := (List.getElem?_eq_some_iff.mp hk).1
    rw [taken, hlength, hnil] at hlt
    exact Nat.not_lt_zero _ hlt
  have hshort : (region (taken regex t data)).length ≤ 65536 := by
    have hwindow := (h.append data).2
    have hle := hsuffix.length_le
    rw [hcap, bootWindowBytes] at hwindow
    rw [region, length_drop, taken]
    dsimp only at hle
    omega
  have hfound := hregex.finds _ (region (taken regex t data)) henabled hexpr
    (by rwa [rtake_of_length_le hshort])
  have hreached := (bootFeed_spec regex t ts hdata hstages (Nat.ne_zero_of_lt h.short)).2
  rw [← getElem?_map, hreached, getElem?_map, hk, Option.map_some, hfound, Bool.or_true]

/-- At every point of the output since a fresh window, a stage of the expression is reached
by the portion after which the expression shows in the end of the output that is searched. -/
def Detects (regex : Regex Compiled) (expr : Ere) : Prop :=
  ∀ (t : BootTracker Compiled), t.window.Reads [] → t.window.cap = bootWindowBytes →
    t.stages ≠ [] → ∀ feeds data ts, data ≠ [] →
    let before := follow regex t feeds
    region (taken regex before data) <:+ feeds.flatMap Prod.fst ++ data ∧
      ∀ (k : Nat) (s : BootStage Compiled), (taken regex before data).stages[k]? = some s →
        s.compiled.expr = expr → s.compiled.disabled = false →
        Shows expr (region (taken regex before data)) →
        ((bootFeed regex before data ts).2.stages[k]?).map BootStage.reached = some true

theorem detects {regex : Regex Compiled} (hregex : FindsShown regex) {expr : Ere}
    (hexpr : expr.Avoids 0) : Detects regex expr := by
  intro t hfresh hcap hstages feeds data ts hdata before
  obtain ⟨hreads, hcap', -⟩ := reads_follow regex hfresh hstages feeds
  rw [nil_append] at hreads
  refine ⟨?_, ?_⟩
  · have hcut := (detectReboot_window regex { before with window := before.window.append data }).1
    exact (drop_suffix _ _).trans (hcut.trans (hreads.append data).1)
  · rintro k s hk rfl henabled hshows
    exact reached_of_shows hregex hreads (hcap'.trans hcap) hdata ts hk henabled hexpr hshows

/-- A first stage in a window that is still empty. -/
theorem Detects.first {regex : Regex Compiled} {expr : Ere} (h : Detects regex expr)
    {t : BootTracker Compiled} (hwindow : t.window = (bootInit : BootTracker Compiled).window)
    (hstages : t.stages ≠ []) {data : Bytes} (hdata : data ≠ [])
    (hstage : ((taken regex t data).stages[0]?).map (fun s => (some s.compiled.expr,
      s.compiled.disabled)) = some (some expr, false))
    (hshows : Shows expr (region (taken regex t data))) (ts : Rat) :
    ((bootFeed regex t data ts).2.stages[0]?).map BootStage.reached = some true := by
  obtain ⟨stage, hk, hfields⟩ := Option.map_eq_some_iff.mp hstage
  obtain ⟨hexpr, henabled⟩ := Prod.mk.inj hfields
  have hreads : t.window.Reads [] := by
    rw [hwindow]
    exact Window.reads_nil rfl rfl (by decide)
  exact (h t hreads (by rw [hwindow]; rfl) hstages [] data ts hdata).2 0 stage hk
    (Option.some.inj hexpr) henabled hshows

end BootStage

namespace Autoresponder

theorem cap_follow {ρ : Type} (regex : Regex ρ) (ar : Autoresponder ρ)
    (feeds : List (Bytes × Rat)) : (follow regex ar feeds).window.cap = ar.window.cap := by
  induction feeds generalizing ar with
  | nil => rfl
  | cons feed feeds ih => exact (ih _).trans (cap_apply regex ar (.feed feed.1 feed.2))

theorem answers_of_shows {regex : Regex Compiled} (hregex : FindsShown regex)
    {ar : Autoresponder Compiled} {stream : Bytes} (h : ar.window.Reads stream)
    (hcap : ar.window.cap = arWindowBytes) {data : Bytes} (hdata : data ≠ []) {ts : Rat}
    {k : Nat} {r : ArRule Compiled} (hk : ar.rules[k]? = some r) (hdue : r.Due ts)
    (henabled : r.compiled.disabled = false) (hexpr : r.compiled.expr.Avoids 0)
    (hroom : (hits regex (searched (ar.window.append data)) ts (ar.rules.take k)).length <
      arMaxFiredPerFeed)
    (hshows : Shows r.compiled.expr (searched (ar.window.append data))) :
    ∃ fired ∈ (autoresponderFeed regex ar data ts).1,
      fired.name = r.name ∧ fired.response = r.response := by
  have hshort : (searched (ar.window.append data)).length ≤ 65536 := by
    have hwindow := (h.append data).2
    rw [hcap, arWindowBytes] at hwindow
    rw [searched, length_drop]
    omega
  have hfound := hregex.finds _ (searched (ar.window.append data)) henabled hexpr
    (by rwa [rtake_of_length_le hshort])
  exact answers_of_found regex hdata (Nat.ne_zero_of_lt h.short) hk hdue hfound hroom

/-- At every point of the output since a fresh window, a rule of the expression that may
answer does so at the portion after which the expression shows in the end of the output that
is searched, unless eight rules before it answer. -/
def Detects (regex : Regex Compiled) (expr : Ere) : Prop :=
  ∀ (ar : Autoresponder Compiled), ar.window.Reads [] → ar.window.cap = arWindowBytes →
    ar.rules ≠ [] → ∀ feeds data ts, data ≠ [] →
    let before := follow regex ar feeds
    searched (before.window.append data) <:+ streamOf feeds ++ data ∧
      ∀ (k : Nat) (r : ArRule Compiled), before.rules[k]? = some r → r.Due ts →
        r.compiled.expr = expr → r.compiled.disabled = false →
        (hits regex (searched (before.window.append data)) ts (before.rules.take k)).length <
          arMaxFiredPerFeed →
        Shows expr (searched (before.window.append data)) →
        ∃ fired ∈ (autoresponderFeed regex before data ts).1,
          fired.name = r.name ∧ fired.response = r.response

theorem detects {regex : Regex Compiled} (hregex : FindsShown regex) {expr : Ere}
    (hexpr : expr.Avoids 0) : Detects regex expr := by
  intro ar hfresh hcap hrules feeds data ts hdata before
  have hreads := (reads_follow regex hfresh hrules feeds).1
  rw [nil_append] at hreads
  refine ⟨(drop_suffix _ _).trans (hreads.append data).1, ?_⟩
  rintro k r hk hdue rfl henabled hroom hshows
  exact answers_of_shows hregex hreads ((cap_follow regex ar feeds).trans hcap) hdata hk hdue
    henabled hexpr hroom hshows

/-- A first rule in a window that is still empty. -/
theorem Detects.first {regex : Regex Compiled} {expr : Ere} (h : Detects regex expr)
    {ar : Autoresponder Compiled}
    (hwindow : ar.window = (autoresponderInit : Autoresponder Compiled).window) {data : Bytes}
    (hdata : data ≠ []) {ts : Rat} {response : Bytes}
    (hrule : (ar.rules[0]?).map (fun r => (some r.compiled.expr, r.compiled.disabled,
      decide (r.Due ts), r.response)) = some (some expr, false, true, response))
    (hshows : Shows expr (searched (ar.window.append data))) :
    ∃ fired ∈ (autoresponderFeed regex ar data ts).1, fired.response = response := by
  obtain ⟨rule, hk, hfields⟩ := Option.map_eq_some_iff.mp hrule
  simp only [Prod.mk.injEq, Option.some.injEq, decide_eq_true_eq] at hfields
  obtain ⟨hexpr, henabled, hdue, hresponse⟩ := hfields
  have hreads : ar.window.Reads [] := by
    rw [hwindow]
    exact Window.reads_nil rfl rfl (by decide)
  have hrules : ar.rules ≠ [] := by
    intro hnil
    rw [hnil] at hk
    cases hk
  obtain ⟨fired, hmem, -, hfired⟩ := (h ar hreads (by rw [hwindow]; rfl) hrules [] data ts
    hdata).2 0 rule hk hdue hexpr henabled (Nat.zero_lt_succ _) hshows
  exact ⟨fired, hmem, hfired.trans hresponse⟩

end Autoresponder

section Results

open Expect BootStage Autoresponder

/-- A pattern that matches no NUL is detected by the expect requests, the boot tracker and the
autoresponder in every output, however it is split, wherever it shows in what they search
without a NUL before it. -/
theorem shown_pattern_detected (accepts : Bytes → Bool) (slow : Ere → Bytes → Bool)
    (pattern : Bytes) (expr : Ere) (hparse : Ere.parse pattern = some expr)
    (hexpr : expr.Avoids 0) :
    Expect.Detects (posixRegex accepts slow) pattern expr ∧
      BootStage.Detects (posixRegex accepts slow) expr ∧
      Autoresponder.Detects (posixRegex accepts slow) expr := by
  have hregex := findsShown_posixRegex accepts slow
  refine ⟨Expect.detects hregex ?_ hexpr, BootStage.detects hregex hexpr,
    Autoresponder.detects hregex hexpr⟩
  intro re hre
  exact Option.some.inj ((regexCompile_expr hre).symm.trans hparse)

/-- A prompt with a NUL behind it is seen by all three. -/
theorem shown_pattern_detected_login :
    let data := ascii "login:" ++ [0]
    let added := expectAdd plainRegex true true expectInit (ascii "1") (ascii "login:") 5
      (ascii "c") 0 none
    let tracker := (bootAddStage plainRegex bootInit (ascii "login") (ascii "login:")).1
    let ar := (autoresponderAdd plainRegex autoresponderInit (ascii "login") (ascii "login:")
      (ascii "root\n") false 0).1
    added.2 = none ∧ (feedAll plainRegex added.1 [data]).requests.map (·.matched) = [true] ∧
      ((bootFeed plainRegex tracker data 1).2.stages[0]?).map BootStage.reached = some true ∧
      ∃ fired ∈ (autoresponderFeed plainRegex ar data 1).1, fired.response = ascii "root\n" := by
  intro data added tracker ar
  have hsome : (Ere.parse (ascii "login:")).isSome = true := by decide +kernel
  obtain ⟨expr, hparse⟩ := Option.isSome_iff_exists.mp hsome
  have hfacts : (Ere.parse (ascii "login:")).all (fun expr => expr.avoids 0 &&
      decide (6 ∈ expr.ends data 0)) = true := by
    decide +kernel
  rw [hparse, Option.all_some, Bool.and_eq_true, decide_eq_true_eq] at hfacts
  have hshows : Shows expr data := ⟨0, 6, Nat.zero_le _, hfacts.2, by simp⟩
  obtain ⟨hexpect, hboot, hanswers⟩ := shown_pattern_detected (fun _ => true) (fun _ _ => false)
    (ascii "login:") expr hparse (Ere.avoids_sound hfacts.1)
  have hnone : added.2 = none := by decide +kernel
  have hadded : added = (added.1, none) := by rw [← hnone]
  refine ⟨hnone, ?_, ?_, ?_⟩
  · obtain ⟨req, hengine, hfinds⟩ := hexpect true true expectInit added.1 (ascii "1") 5 (ascii "c")
      0 none hadded
    have hnew : (feedAll plainRegex added.1 []).requests.map (·.compiled.disabled) = [false] := by
      decide +kernel
    have hbefore : (feedAll plainRegex added.1 []).requests = [Expect.follow plainRegex req []] :=
      hengine []
    rw [hbefore] at hnew
    have hwindow : Expect.window [] data = data := by decide +kernel
    have hmatched := hfinds [] data (List.cons.inj hnew).1 (hwindow.symm ▸ hshows)
    have hafter : (feedAll plainRegex added.1 [data]).requests =
        [Expect.follow plainRegex req [data]] := hengine [data]
    rw [hafter, map_singleton]
    exact congrArg (fun m => [m]) hmatched
  · have hwindow : tracker.window = (bootInit : BootTracker Compiled).window := by
      decide +kernel
    have hstages : tracker.stages ≠ [] := by decide +kernel
    have hstage : ((taken plainRegex tracker data).stages[0]?).map (fun s =>
        (some s.compiled.expr, s.compiled.disabled)) =
          some (Ere.parse (ascii "login:"), false) := by
      decide +kernel
    have hregion : region (taken plainRegex tracker data) = data := by decide +kernel
    clear_value tracker
    exact hboot.first hwindow hstages (by decide) (hparse ▸ hstage) (hregion.symm ▸ hshows) 1
  · have hrule : (ar.rules[0]?).map (fun r => (some r.compiled.expr, r.compiled.disabled,
        decide (r.Due 1), r.response)) =
          some (Ere.parse (ascii "login:"), false, true, ascii "root\n") := by
      decide +kernel
    have hwindow : ar.window = (autoresponderInit : Autoresponder Compiled).window := by
      simp only [ar, add_window]
    have hsearched : searched (ar.window.append data) = data := by decide +kernel
    clear_value ar
    exact hanswers.first hwindow (by decide) (hparse ▸ hrule) (hsearched.symm ▸ hshows)

/-- A NUL before the prompt hides it from all three. -/
theorem nul_hides_pattern :
    let data : Bytes := 0 :: ascii "login:"
    let added := expectAdd plainRegex true true expectInit (ascii "1") (ascii "login:") 5
      (ascii "c") 0 none
    let tracker := (bootAddStage plainRegex bootInit (ascii "login") (ascii "login:")).1
    let ar := (autoresponderAdd plainRegex autoresponderInit (ascii "login") (ascii "login:")
      (ascii "root\n") false 0).1
    ((Ere.parse (ascii "login:")).map fun expr => (expr.avoids 0, expr.ends data 1)) =
        some (true, [7]) ∧
      (feedAll plainRegex added.1 [data]).requests.map (·.matched) = [false] ∧
      (bootFeed plainRegex tracker data 1).2.stages.map (·.reached) = [false] ∧
      (autoresponderFeed plainRegex ar data 1).1.length = 0 := by
  decide +kernel

end Results

end Smolmux
