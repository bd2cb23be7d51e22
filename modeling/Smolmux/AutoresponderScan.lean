import Smolmux.Autoresponder
import Smolmux.RegexEngine
import Smolmux.Window

/-! What the autoresponder answers. A feed searches the line that was not complete and what
has come since; of the rules that find their pattern there, the first eight of the table
answer. -/

namespace Smolmux.Autoresponder
open Protocol RegexEngine List

variable {ρ : Type}

variable {rules : List (ArRule ρ)} {k : Nat} {data : Bytes}

section Feed

def ArRule.Due (r : ArRule ρ) (ts : Rat) : Prop :=
  r.enabled = true ∧ ¬ (0 < r.lastFireTime ∧ ts - r.lastFireTime < r.cooldownS)

instance (r : ArRule ρ) (ts : Rat) : Decidable (r.Due ts) := inferInstanceAs (Decidable (_ ∧ _))

structure Hit (ρ : Type) where
  index : Nat
  rule : ArRule ρ
  off : Nat

def hitsFrom (regex : Regex ρ) (region : Bytes) (ts : Rat) : (k : Nat) → List (ArRule ρ) →
    List (Hit ρ)
  | _, [] => []
  | k, r :: rules =>
    if r.Due ts then
      ((regex.exec r.compiled region).1.toList.map fun off => ⟨k, r, off⟩) ++
        hitsFrom regex region ts (k + 1) rules
    else hitsFrom regex region ts (k + 1) rules

def hits (regex : Regex ρ) (region : Bytes) (ts : Rat) (rules : List (ArRule ρ)) : List (Hit ρ) :=
  hitsFrom regex region ts 0 rules

def searchStart (w : Window) : Nat := Window.lineStart w.data w.searchOffset

def searched (w : Window) : Bytes := w.data.drop (searchStart w)

def answer (w : Window) (h : Hit ρ) : ArFired :=
  let line := w.data.drop (Window.lineStart w.data (min (searchStart w + h.off) w.data.length))
  ⟨h.rule.response, h.rule.name, cString (line.take 127)⟩

variable (regex : Regex ρ) {region : Bytes} {ts : Rat}

theorem hitsFrom_append (k : Nat) (xs ys : List (ArRule ρ)) :
    hitsFrom regex region ts k (xs ++ ys) =
      hitsFrom regex region ts k xs ++ hitsFrom regex region ts (k + xs.length) ys := by
  induction xs generalizing k with
  | nil => rfl
  | cons r xs ih =>
    have hcount : k + (r :: xs).length = k + 1 + xs.length := by
      rw [length_cons]
      omega
    rw [cons_append, hitsFrom, hitsFrom, ih (k + 1), hcount]
    split_ifs
    · rw [append_assoc]
    · rfl

theorem hits_of_found {r : ArRule ρ} {off : Nat} (hk : rules[k]? = some r) (hdue : r.Due ts)
    (hfound : (regex.exec r.compiled region).1 = some off) :
    ∃ after, hits regex region ts rules =
      hits regex region ts (rules.take k) ++ ⟨k, r, off⟩ :: after := by
  obtain ⟨hlt, rfl⟩ := List.getElem?_eq_some_iff.mp hk
  have hsplit : rules = rules.take k ++ rules[k] :: rules.drop (k + 1) := by
    rw [← drop_eq_getElem_cons hlt, take_append_drop]
  have hlength : 0 + (rules.take k).length = k := by
    rw [length_take]
    omega
  refine ⟨hitsFrom regex region ts (k + 1) (rules.drop (k + 1)), ?_⟩
  unfold hits
  conv_lhs => rw [hsplit]
  rw [hitsFrom_append, hlength, hitsFrom, if_pos hdue, hfound]
  rfl

theorem mem_hitsFrom {h : Hit ρ} (hmem : h ∈ hitsFrom regex region ts k rules) :
    ∃ j, h.index = k + j ∧ rules[j]? = some h.rule ∧ h.rule.Due ts ∧
      (regex.exec h.rule.compiled region).1 = some h.off := by
  induction rules generalizing k with
  | nil => cases hmem
  | cons r rules ih =>
    have hrest (hmem : h ∈ hitsFrom regex region ts (k + 1) rules) :
        ∃ j, h.index = k + j ∧ (r :: rules)[j]? = some h.rule ∧ h.rule.Due ts ∧
          (regex.exec h.rule.compiled region).1 = some h.off := by
      obtain ⟨j, hindex, hj⟩ := ih hmem
      exact ⟨j + 1, by omega, hj⟩
    rw [hitsFrom] at hmem
    split_ifs at hmem with hdue
    · rcases mem_append.mp hmem with hmem | hmem
      · obtain ⟨off, hoff, rfl⟩ := mem_map.mp hmem
        exact ⟨0, rfl, rfl, hdue, Option.mem_toList.mp hoff⟩
      · exact hrest hmem
    · exact hrest hmem

theorem mem_hits {h : Hit ρ} (hmem : h ∈ hits regex region ts rules) :
    rules[h.index]? = some h.rule ∧ h.rule.Due ts ∧
      (regex.exec h.rule.compiled region).1 = some h.off := by
  obtain ⟨j, hindex, hj⟩ := mem_hitsFrom regex hmem
  rw [hindex, Nat.zero_add]
  exact hj

theorem checkRule_rule (window : Bytes) (start : Nat) (ts : Rat) (r : ArRule ρ) :
    let r' := (checkRule regex window start ts r).1
    r' = r ∨ ∃ lastFireTime enabled, r' = { r with
      compiled := (regex.exec r.compiled (window.drop start)).2
      lastFireTime := lastFireTime
      enabled := enabled } := by
  unfold checkRule
  dsimp only
  split_ifs
  · exact .inl rfl
  · exact .inl rfl
  · split
    · exact .inr ⟨r.lastFireTime, r.enabled, rfl⟩
    · exact .inr ⟨ts, !r.once, rfl⟩

theorem checkRule_of_not_due (window : Bytes) (start : Nat) {ts : Rat} {r : ArRule ρ}
    (h : ¬ r.Due ts) : checkRule regex window start ts r = (r, none) := by
  unfold checkRule
  split_ifs with henabled hquiet
  · rfl
  · rfl
  · exact absurd ⟨by simpa using henabled, hquiet⟩ h

theorem checkRules_rules (window : Bytes) (start : Nat) (ts : Rat) (room : Nat)
    (rules : List (ArRule ρ)) :
    ∃ n, (checkRules regex window start ts room rules).1 =
      ((rules.take n).map fun r => (checkRule regex window start ts r).1) ++ rules.drop n := by
  induction rules generalizing room with
  | nil => cases room <;> exact ⟨0, rfl⟩
  | cons r rules ih =>
    cases room with
    | zero => exact ⟨0, rfl⟩
    | succ room =>
      rw [checkRules]
      dsimp only
      split
      · obtain ⟨n, hn⟩ := ih (room + 1)
        exact ⟨n + 1, congrArg (_ :: ·) hn⟩
      · obtain ⟨n, hn⟩ := ih room
        exact ⟨n + 1, congrArg (_ :: ·) hn⟩

theorem length_checkRules (window : Bytes) (start : Nat) (ts : Rat) (room : Nat)
    (rules : List (ArRule ρ)) :
    (checkRules regex window start ts room rules).1.length = rules.length := by
  obtain ⟨n, hn⟩ := checkRules_rules regex window start ts room rules
  rw [hn, length_append, length_map, ← length_append, take_append_drop]

theorem checkRules_fired (w : Window) (ts : Rat) (room k : Nat) (rules : List (ArRule ρ)) :
    (checkRules regex w.data (searchStart w) ts room rules).2 =
      ((hitsFrom regex (searched w) ts k rules).take room).map (answer w) := by
  induction rules generalizing room k with
  | nil => cases room <;> rfl
  | cons r rules ih =>
    cases room with
    | zero =>
      rw [checkRules, take_zero]
      rfl
    | succ room =>
      have hregion : w.data.drop (searchStart w) = searched w := rfl
      rw [checkRules, hitsFrom]
      by_cases hdue : r.Due ts
      · have hcheck : (checkRule regex w.data (searchStart w) ts r).2 =
            (regex.exec r.compiled (searched w)).1.map fun off => answer w ⟨k, r, off⟩ := by
          rw [checkRule, if_neg (by simp [hdue.1]), if_neg hdue.2, hregion]
          dsimp only
          cases (regex.exec r.compiled (searched w)).1 <;> rfl
        rw [if_pos hdue]
        dsimp only
        rw [hcheck]
        cases (regex.exec r.compiled (searched w)).1 with
        | none => exact ih (room + 1) (k + 1)
        | some off => exact congrArg (answer w ⟨k, r, off⟩ :: ·) (ih room (k + 1))
      · rw [if_neg hdue, checkRule_of_not_due regex _ _ hdue]
        exact ih (room + 1) (k + 1)

/-- What a feed does when there are rules: the window takes the output in, and the first
eight rules that find their pattern answer. -/
theorem autoresponderFeed_spec {ar : Autoresponder ρ} (ts : Rat) (hdata : data ≠ [])
    (hrules : ar.rules ≠ []) (hcap : ar.window.cap ≠ 0) :
    (autoresponderFeed regex ar data ts).1 =
        ((hits regex (searched (ar.window.append data)) ts ar.rules).take
          arMaxFiredPerFeed).map (answer (ar.window.append data)) ∧
      (autoresponderFeed regex ar data ts).2.rules.length = ar.rules.length ∧
      (autoresponderFeed regex ar data ts).2.window =
        { ar.window.append data with
          searchOffset := (ar.window.append data).data.length } := by
  have hfeed : ¬ (data = [] ∨ ar.rules = [] ∨ ar.window.cap = 0) := by simp [hdata, hrules, hcap]
  rw [autoresponderFeed, if_neg hfeed]
  exact ⟨checkRules_fired .., length_checkRules .., rfl⟩

theorem hitsFrom_sublist (k : Nat) (rules : List (ArRule ρ)) :
    ((hitsFrom regex region ts k rules).map fun h => (h.rule, h.index)).Sublist (rules.zipIdx k) := by
  induction rules generalizing k with
  | nil => exact .slnil
  | cons r rules ih =>
    rw [hitsFrom, zipIdx_cons]
    split_ifs
    · cases (regex.exec r.compiled region).1 with
      | none => exact (ih (k + 1)).cons _
      | some off => exact (ih (k + 1)).cons_cons _
    · exact (ih (k + 1)).cons _

theorem eq_filter_of_sublist {α : Type} {xs ys : List (α × Nat)} (h : ys.Sublist xs)
    (hnodup : (xs.map Prod.snd).Nodup) : ys = xs.filter fun p => p.2 ∈ ys.map Prod.snd := by
  induction h with
  | slnil => rfl
  | cons x h ih =>
    obtain ⟨hx, hnodup⟩ := nodup_cons.mp hnodup
    rw [filter_cons_of_neg, ← ih hnodup]
    exact fun hmem => hx ((h.map _).subset (of_decide_eq_true hmem))
  | cons_cons x h ih =>
    obtain ⟨hx, hnodup⟩ := nodup_cons.mp hnodup
    rw [filter_cons_of_pos (by simp)]
    conv_lhs => rw [ih hnodup]
    refine congrArg (x :: ·) (filter_congr fun p hp => ?_)
    have hne : p.2 ≠ x.2 := fun heq => hx (heq ▸ mem_map_of_mem hp)
    exact decide_eq_decide.mpr ((mem_cons.trans (or_iff_right hne)).symm)

theorem answers_of_found {ar : Autoresponder ρ} (hdata : data ≠ []) (hcap : ar.window.cap ≠ 0)
    {r : ArRule ρ} (hk : ar.rules[k]? = some r) (hdue : r.Due ts)
    (hfound : (regex.exec r.compiled (searched (ar.window.append data))).1.isSome)
    (hroom : (hits regex (searched (ar.window.append data)) ts (ar.rules.take k)).length <
      arMaxFiredPerFeed) :
    ∃ fired ∈ (autoresponderFeed regex ar data ts).1,
      fired.name = r.name ∧ fired.response = r.response := by
  obtain ⟨off, hoff⟩ := Option.isSome_iff_exists.mp hfound
  obtain ⟨after, hhits⟩ := hits_of_found regex hk hdue hoff
  have hrules : ar.rules ≠ [] := by
    rintro hnil
    rw [hnil] at hk
    cases hk
  rw [(autoresponderFeed_spec regex ts hdata hrules hcap).1]
  refine ⟨_, mem_map.mpr ⟨⟨k, r, off⟩, ?_, rfl⟩, rfl, rfl⟩
  rw [hhits, take_append]
  refine mem_append_right _ ?_
  obtain ⟨n, hn⟩ := Nat.exists_eq_succ_of_ne_zero (Nat.sub_ne_zero_of_lt hroom)
  rw [hn]
  exact mem_cons_self

end Feed

variable {feeds : List (Bytes × Rat)} {n : Nat}

section Stream

def follow (regex : Regex ρ) (ar : Autoresponder ρ) (feeds : List (Bytes × Rat)) :
    Autoresponder ρ :=
  feeds.foldl (fun ar feed => (autoresponderFeed regex ar feed.1 feed.2).2) ar

def streamOf (feeds : List (Bytes × Rat)) : Bytes := feeds.flatMap Prod.fst

/-- Where the text of the output begins and ends that rule `k` answers at the feed with index
`n`: the leftmost match, and the longest one there. -/
def answersAt (regex : Regex Compiled) (ar : Autoresponder Compiled) (feeds : List (Bytes × Rat))
    (n k : Nat) : Option (Nat × Nat) :=
  (feeds[n]?).bind fun feed =>
    let before := follow regex ar (feeds.take n)
    let region := searched (before.window.append feed.1)
    let base := (streamOf (feeds.take (n + 1))).length - region.length
    if feed.1 = [] then none
    else
      (((hits regex region feed.2 before.rules).take arMaxFiredPerFeed).find? (·.index == k)).map
        fun h => (base + h.off, base + matchEnd h.rule.compiled.expr region h.off)

variable (regex : Regex ρ)

/-- Rule `k` is enabled and not quiet at the feed with index `n`. -/
def dueAt (ar : Autoresponder ρ) (feeds : List (Bytes × Rat)) (n k : Nat) : Bool :=
  (feeds[n]?).any fun feed => feed.1 ≠ [] &&
    ((follow regex ar (feeds.take n)).rules[k]?).any fun r => decide (r.Due feed.2)

theorem reads_feed {ar : Autoresponder ρ} {stream : Bytes} (h : ar.window.Reads stream)
    (hrules : ar.rules ≠ []) (data : Bytes) (ts : Rat) :
    (autoresponderFeed regex ar data ts).2.window.Reads (stream ++ data) ∧
      (autoresponderFeed regex ar data ts).2.rules ≠ [] := by
  have hcap : ar.window.cap ≠ 0 := Nat.ne_zero_of_lt h.short
  by_cases hdata : data = []
  · have hsame : (autoresponderFeed regex ar data ts).2 = ar := by
      rw [autoresponderFeed, if_pos (.inl hdata)]
    rw [hsame, hdata, append_nil]
    exact ⟨h, hrules⟩
  · obtain ⟨-, hlength, hwindow⟩ := autoresponderFeed_spec regex ts hdata hrules hcap
    obtain ⟨hsuffix, hshort⟩ := h.append data
    rw [hwindow]
    refine ⟨⟨hsuffix, ?_, rfl⟩, ?_⟩
    · rw [Window.append_cap]
      exact hshort
    · exact ne_nil_of_length_pos (hlength ▸ length_pos_iff.mpr hrules)

theorem reads_follow {ar : Autoresponder ρ} {stream : Bytes} (h : ar.window.Reads stream)
    (hrules : ar.rules ≠ []) (feeds : List (Bytes × Rat)) :
    (follow regex ar feeds).window.Reads (stream ++ streamOf feeds) ∧
      (follow regex ar feeds).rules ≠ [] := by
  induction feeds generalizing ar stream with
  | nil => exact ⟨by rwa [streamOf, flatMap_nil, append_nil], hrules⟩
  | cons feed feeds ih =>
    obtain ⟨hreads, hrules'⟩ := reads_feed regex h hrules feed.1 feed.2
    obtain ⟨hreads', hrules''⟩ := ih hreads hrules'
    refine ⟨?_, hrules''⟩
    rw [append_assoc] at hreads'
    exact hreads'

theorem follow_of_nil {ar : Autoresponder ρ} (hrules : ar.rules = [])
    (feeds : List (Bytes × Rat)) : follow regex ar feeds = ar := by
  induction feeds with
  | nil => rfl
  | cons feed feeds ih =>
    have hsame : (autoresponderFeed regex ar feed.1 feed.2).2 = ar := by
      rw [autoresponderFeed, if_pos (.inr (.inl hrules))]
    rw [follow, foldl_cons, hsame]
    exact ih

section Posix

variable {regex : Regex Compiled} {ar : Autoresponder Compiled} {p : Nat × Nat}

theorem answersAt_spec (hat : answersAt regex ar feeds n k = some p) :
    ∃ data ts r off, feeds[n]? = some (data, ts) ∧ data ≠ [] ∧
      (follow regex ar (feeds.take n)).rules[k]? = some r ∧ r.Due ts ∧
      p.1 = (streamOf (feeds.take n) ++ data).length -
        (searched ((follow regex ar (feeds.take n)).window.append data)).length + off := by
  obtain ⟨⟨data, ts⟩, hfeed, hat⟩ := Option.bind_eq_some_iff.mp hat
  have hstream : streamOf (feeds.take (n + 1)) = streamOf (feeds.take n) ++ data := by
    rw [streamOf, take_add_one, hfeed, flatMap_append]
    simp [streamOf]
  dsimp only at hat
  split_ifs at hat with hdata
  obtain ⟨h, hfind, rfl⟩ := Option.map_eq_some_iff.mp hat
  have hmem := mem_of_mem_take (mem_of_find?_eq_some hfind)
  have hindex : h.index = k := by simpa using find?_some hfind
  obtain ⟨hrule, hdue, -⟩ := mem_hits regex hmem
  rw [hindex] at hrule
  rw [hstream]
  exact ⟨data, ts, h.rule, h.off, hfeed, hdata, hrule, hdue, rfl⟩

theorem lt_of_answersAt (h : ar.window.Reads []) {x : Nat}
    (hat : answersAt regex ar feeds n k = some p)
    (hx : (streamOf (feeds.take n))[x]? = some 10) : x < p.1 := by
  obtain ⟨data, ts, r, off, -, -, hrule, -, hp⟩ := answersAt_spec hat
  have hrules : ar.rules ≠ [] := by
    intro hnil
    rw [follow_of_nil regex hnil, hnil] at hrule
    cases hrule
  have hreads := (reads_follow regex h hrules (feeds.take n)).1
  rw [nil_append] at hreads
  have hlength : (searched ((follow regex ar (feeds.take n)).window.append data)).length ≤
      ((streamOf (feeds.take n) ++ data).drop (x + 1)).length :=
    (hreads.searched_behind data hx).length_le
  have hlt := (List.getElem?_eq_some_iff.mp hx).1
  rw [length_drop, length_append] at hlength
  rw [hp, length_append]
  omega

theorem dueAt_of_answersAt (hat : answersAt regex ar feeds n k = some p) :
    dueAt regex ar feeds n k := by
  obtain ⟨data, ts, r, off, hfeed, hdata, hrule, hdue, -⟩ := answersAt_spec hat
  rw [dueAt, hfeed, Option.any_some, hrule, Option.any_some, decide_eq_true hdue,
    decide_eq_true hdata]
  rfl

/-- The rules that a feed has answer, in the order of the table. -/
theorem fired_of_answersAt (h : ar.window.Reads []) {data : Bytes} {ts : Rat}
    (hfeed : feeds[n]? = some (data, ts)) :
    (autoresponderFeed regex (follow regex ar (feeds.take n)) data ts).1.map
        (fun fired => (fired.name, fired.response)) =
      ((follow regex ar (feeds.take n)).rules.zipIdx.filter fun r =>
        (answersAt regex ar feeds n r.2).isSome).map fun r => (r.1.name, r.1.response) := by
  obtain ⟨before, hbefore⟩ : ∃ before, follow regex ar (feeds.take n) = before := ⟨_, rfl⟩
  rw [hbefore]
  by_cases hdata : data = []
  · have hnone : ∀ k, answersAt regex ar feeds n k = none := fun k => by
      rw [answersAt, hfeed, Option.bind_some, if_pos hdata]
    rw [autoresponderFeed, if_pos (.inl hdata)]
    simp [hnone]
  by_cases hrules : before.rules = []
  · rw [autoresponderFeed, if_pos (.inr (.inl hrules)), hrules]
    rfl
  · have hcap : before.window.cap ≠ 0 := by
      have har : ar.rules ≠ [] := fun hnil =>
        hrules (hbefore ▸ (follow_of_nil regex hnil (feeds.take n)).symm ▸ hnil)
      exact hbefore ▸ Nat.ne_zero_of_lt (reads_follow regex h har (feeds.take n)).1.short
    rw [(autoresponderFeed_spec regex ts hdata hrules hcap).1]
    obtain ⟨found, hfound⟩ : ∃ found, (hits regex (searched (before.window.append data)) ts
        before.rules).take arMaxFiredPerFeed = found := ⟨_, rfl⟩
    have hsub : (found.map fun h => (h.rule, h.index)).Sublist before.rules.zipIdx :=
      ((hfound ▸ take_sublist ..).map _).trans (hitsFrom_sublist regex 0 before.rules)
    have hat : ∀ r : ArRule Compiled × Nat, (answersAt regex ar feeds n r.2).isSome =
        decide (r.2 ∈ (found.map fun h => (h.rule, h.index)).map Prod.snd) := by
      intro r
      rw [answersAt, hfeed, Option.bind_some]
      dsimp only
      rw [if_neg hdata, Option.isSome_map, hbefore, hfound, Bool.eq_iff_iff]
      simp [find?_isSome]
    have hnodup : (before.rules.zipIdx.map Prod.snd).Nodup := by
      rw [zipIdx_map_snd]
      exact nodup_range'
    simp only [hat]
    rw [hfound, ← eq_filter_of_sublist hsub hnodup, map_map, map_map]
    rfl

/-- Each feed has the rules answer that find a text to answer. Where a newline has come behind
the end of the text a rule answered before the rule may answer again, the text it answers next
is another one, behind it. -/
theorem prompt_answered_once (accepts : Bytes → Bool) (slow : Ere → Bytes → Bool)
    (ar : Autoresponder Compiled) (h : ar.window.Reads []) (feeds : List (Bytes × Rat)) :
    let regex := posixRegex accepts slow
    (∀ n data ts, feeds[n]? = some (data, ts) →
      (autoresponderFeed regex (follow regex ar (feeds.take n)) data ts).1.map
          (fun fired => (fired.name, fired.response)) =
        ((follow regex ar (feeds.take n)).rules.zipIdx.filter fun r =>
          (answersAt regex ar feeds n r.2).isSome).map fun r => (r.1.name, r.1.response)) ∧
      ∀ k, (∀ n m start stop, n < m → answersAt regex ar feeds n k = some (start, stop) →
          dueAt regex ar feeds m k = true → 10 ∈ (streamOf (feeds.take m)).drop stop) →
        ∀ n m start stop start' stop', n < m → answersAt regex ar feeds n k = some (start, stop) →
          answersAt regex ar feeds m k = some (start', stop') → stop < start' := by
  refine ⟨fun n data ts hfeed => fired_of_answersAt h hfeed,
    fun k hline n m start stop start' stop' hlt hn hm => ?_⟩
  have hnewline := hline n m start stop hlt hn (dueAt_of_answersAt hm)
  obtain ⟨i, hi⟩ := mem_iff_getElem?.mp hnewline
  rw [getElem?_drop] at hi
  exact (Nat.le_add_right stop i).trans_lt (lt_of_answersAt h hm hi)

end Posix

end Stream

theorem add_window (ar : Autoresponder ρ) (name pattern response : Bytes) (once : Bool)
    (cooldownMs : Int) :
    (autoresponderAdd regex ar name pattern response once cooldownMs).1.window = ar.window := by
  unfold autoresponderAdd
  split
  · rfl
  split
  · rfl
  split
  · rfl
  dsimp only
  split
  · rfl
  · split <;> rfl

def loginAdded (cooldownMs : Int) : Autoresponder Compiled :=
  (autoresponderAdd plainRegex autoresponderInit (ascii "login") (ascii "login:") (ascii "root\n")
    false cooldownMs).1

theorem prompt_answered_once_login :
    let ar := loginAdded 5000
    let feeds : List (Bytes × Rat) := [(ascii "login: ", 1), (ascii "\n", 2), (ascii "login: ", 7)]
    answersAt plainRegex ar feeds 0 0 = some (0, 6) ∧
      answersAt plainRegex ar feeds 2 0 = some (8, 14) ∧
      ∀ n m start stop start' stop', n < m → answersAt plainRegex ar feeds n 0 = some (start, stop) →
        answersAt plainRegex ar feeds m 0 = some (start', stop') → stop < start' := by
  intro ar feeds
  have hwindow : (loginAdded 5000).window.Reads [] := by
    rw [loginAdded, add_window]
    exact Window.reads_nil rfl rfl (by decide)
  have hall : ∀ m < 3, ∀ n < m, dueAt plainRegex ar feeds m 0 = true →
      (answersAt plainRegex ar feeds n 0).all fun p =>
        decide (10 ∈ (streamOf (feeds.take m)).drop p.2) := by decide +kernel
  refine ⟨by decide +kernel, by decide +kernel, (prompt_answered_once _ _ ar hwindow feeds).2 0
    fun n m start stop hlt hn hdue => ?_⟩
  have hm : m < 3 := by
    by_contra hle
    have hnone : feeds[m]? = none := List.getElem?_eq_none_iff.mpr (Nat.le_of_not_lt hle)
    rw [dueAt, hnone] at hdue
    cases hdue
  have hline := hall m hm n hlt hdue
  rw [show answersAt plainRegex ar feeds n 0 = _ from hn] at hline
  exact of_decide_eq_true hline

/-- One more byte on the line of an answered prompt, after the rule was quiet: the prompt is
answered again. -/
theorem prompt_answered_again :
    let ar := loginAdded 1000
    let feeds : List (Bytes × Rat) := [(ascii "login: ", 1), (ascii "r", 3)]
    answersAt plainRegex ar feeds 0 0 = some (0, 6) ∧
      answersAt plainRegex ar feeds 1 0 = some (0, 6) ∧
      (autoresponderFeed plainRegex (follow plainRegex ar (feeds.take 1)) (ascii "r") 3).1.map
        (·.response) = [ascii "root\n"] := by
  decide +kernel

section Contiguous

inductive Op where
  | linkUp
  | add (name pattern response : Bytes) (once : Bool) (cooldownMs : Int)
  | setOwner (name owner : Bytes)
  | remove (name : Bytes)
  | feed (data : Bytes) (ts : Rat)

def Op.apply (regex : Regex ρ) (ar : Autoresponder ρ) : Op → Autoresponder ρ
  | .linkUp => autoresponderResetWindow ar
  | .add name pattern response once cooldownMs =>
    (autoresponderAdd regex ar name pattern response once cooldownMs).1
  | .setOwner name owner => autoresponderSetOwner ar name owner
  | .remove name => (autoresponderRemove ar name).1
  | .feed data ts => (autoresponderFeed regex ar data ts).2

def runOps (regex : Regex ρ) (ops : List Op) : Autoresponder ρ :=
  ops.foldl (Op.apply regex) autoresponderInit

def Op.hear (heard : Bytes) : Op → Bytes
  | .linkUp => []
  | .feed data _ => heard ++ data
  | _ => heard

def heard (ops : List Op) : Bytes := ops.foldl Op.hear []

def Op.Joins (ar : Autoresponder ρ) : Op → Prop
  | .feed data _ => data ≠ [] → ar.rules = [] → ar.window.data = []
  | _ => True

variable (regex : Regex ρ)

def Unbroken (ops : List Op) : Prop :=
  ∀ (n : Nat) (op : Op), ops[n]? = some op → op.Joins (runOps regex (ops.take n))

theorem reads_apply {ar : Autoresponder ρ} {stream : Bytes} (h : ar.window.Reads stream)
    (op : Op) (hop : op.Joins ar) : (op.apply regex ar).window.Reads (op.hear stream) := by
  cases op with
  | linkUp => exact Window.reads_nil rfl rfl (Nat.zero_lt_of_lt h.short)
  | add name pattern response once cooldownMs =>
    rw [Op.apply, add_window]
    exact h
  | setOwner name owner =>
    have hsame : (autoresponderSetOwner ar name owner).window = ar.window := by
      unfold autoresponderSetOwner
      cases ar.rules.findIdx? (·.name == name) <;> rfl
    rw [Op.apply, hsame]
    exact h
  | remove name =>
    have hsame : (autoresponderRemove ar name).1.window = ar.window := by
      unfold autoresponderRemove
      cases ar.rules.findIdx? (·.name == name) <;> rfl
    rw [Op.apply, hsame]
    exact h
  | feed data ts =>
    by_cases hrules : ar.rules = []
    · have hsame : (autoresponderFeed regex ar data ts).2 = ar := by
        rw [autoresponderFeed, if_pos (.inr (.inl hrules))]
      rw [Op.apply, hsame, Op.hear]
      by_cases hdata : data = []
      · rwa [hdata, append_nil]
      · have hempty := hop hdata hrules
        exact ⟨hempty ▸ nil_suffix, h.short, h.searched⟩
    · exact (reads_feed regex h hrules data ts).1

theorem reads_runOps (ops : List Op) (hjoins : Unbroken regex ops) :
    (runOps regex ops).window.Reads (heard ops) := by
  induction ops using List.reverseRecOn with
  | nil => exact Window.reads_nil rfl rfl (Nat.zero_lt_succ _)
  | append_singleton ops op ih =>
    have hbefore : Unbroken regex ops := by
      intro n op' hop
      have hlt := (List.getElem?_eq_some_iff.mp hop).1
      have hjoin := hjoins n op' (by rw [getElem?_append_left hlt, hop])
      rwa [take_append_of_le_length (Nat.le_of_lt hlt)] at hjoin
    have hlast := hjoins ops.length op getElem?_concat_length
    rw [take_left] at hlast
    have hstep := reads_apply regex (ih hbefore) op hlast
    rw [runOps, foldl_append, heard, foldl_append]
    exact hstep

/-- Whatever links come up and rules come and go, as long as no output passes by a table
without rules while the window holds text: what a rule answers is part of the output since
the link came up, and so is the window. -/
theorem answers_contiguous_text (ops : List Op) (hjoins : Unbroken regex ops) (data : Bytes)
    (ts : Rat) :
    (runOps regex ops).window.data <:+ heard ops ∧
      ∀ fired ∈ (autoresponderFeed regex (runOps regex ops) data ts).1,
        ∃ r ∈ (runOps regex ops).rules, fired.name = r.name ∧ fired.response = r.response ∧
          ∃ text, text <:+: heard (ops ++ [.feed data ts]) ∧
            (regex.exec r.compiled text).1.isSome = true := by
  have hreads := reads_runOps regex ops hjoins
  refine ⟨hreads.data, fun fired hfired => ?_⟩
  have hheard : heard (ops ++ [.feed data ts]) = heard ops ++ data := by
    rw [heard, foldl_append]
    rfl
  by_cases hskip : data = [] ∨ (runOps regex ops).rules = [] ∨ (runOps regex ops).window.cap = 0
  · rw [autoresponderFeed, if_pos hskip] at hfired
    cases hfired
  · push Not at hskip
    obtain ⟨hdata, hrules, hcap⟩ := hskip
    rw [(autoresponderFeed_spec regex ts hdata hrules hcap).1] at hfired
    obtain ⟨hit, hmem, rfl⟩ := mem_map.mp hfired
    obtain ⟨hrule, -, hfound⟩ := mem_hits regex (mem_of_mem_take hmem)
    refine ⟨hit.rule, mem_of_getElem? hrule, rfl, rfl,
      searched ((runOps regex ops).window.append data), ?_, by rw [hfound]; rfl⟩
    rw [hheard]
    exact ((drop_suffix _ _).trans (hreads.append data).1).isInfix

theorem answers_contiguous_text_login :
    let ops : List Op := [.linkUp, .add (ascii "login") (ascii "login:") (ascii "root\n") false 0,
      .feed (ascii "lo") 1]
    ∃ fired ∈ (autoresponderFeed wordRegex (runOps wordRegex ops) (ascii "gin:") 2).1,
      ∃ r ∈ (runOps wordRegex ops).rules, fired.response = r.response ∧
        ∃ text, text <:+: ascii "login:" ∧ (wordRegex.exec r.compiled text).1.isSome = true := by
  intro ops
  have hjoins : Unbroken wordRegex ops := by
    intro n op hop
    rcases n with _ | _ | _ | n
    · cases hop
      trivial
    · cases hop
      trivial
    · cases hop
      exact fun _ hrules => by cases hrules
    · cases hop
  obtain ⟨-, hall⟩ := answers_contiguous_text wordRegex ops hjoins (ascii "gin:") 2
  have hheard : heard (ops ++ [.feed (ascii "gin:") 2]) = ascii "login:" := by decide +kernel
  have hsome : 0 < (autoresponderFeed wordRegex (runOps wordRegex ops) (ascii "gin:") 2).1.length :=
    by decide +kernel
  obtain ⟨fired, hfired⟩ := exists_mem_of_length_pos hsome
  obtain ⟨r, hr, -, hresponse, htext⟩ := hall fired hfired
  rw [hheard] at htext
  exact ⟨fired, hfired, r, hr, hresponse, htext⟩

/-- A rule that is removed for a while joins what came before and after. -/
theorem answers_joined_text :
    let login : Op := .add (ascii "login") (ascii "login:") (ascii "root\n") false 0
    let ops : List Op := [.linkUp, login, .feed (ascii "lo") 1, .remove (ascii "login"),
      .feed (ascii "XX") 2, login]
    (autoresponderFeed wordRegex (runOps wordRegex ops) (ascii "gin:") 3).1.map (·.response) =
        [ascii "root\n"] ∧
      ¬ ascii "login:" <:+: heard (ops ++ [.feed (ascii "gin:") 3]) := by
  intro login ops
  refine ⟨by decide +kernel, ?_⟩
  rw [← firstAt_isSome]
  decide +kernel

end Contiguous

section Room

variable (regex : Regex ρ)

theorem cap_apply (ar : Autoresponder ρ) (op : Op) :
    (op.apply regex ar).window.cap = ar.window.cap := by
  cases op with
  | linkUp => rfl
  | add name pattern response once cooldownMs => rw [Op.apply, add_window]
  | setOwner name owner =>
    rw [Op.apply, autoresponderSetOwner]
    cases ar.rules.findIdx? (·.name == name) <;> rfl
  | remove name =>
    rw [Op.apply, autoresponderRemove]
    cases ar.rules.findIdx? (·.name == name) <;> rfl
  | feed data ts =>
    rw [Op.apply, autoresponderFeed]
    split_ifs
    · rfl
    · exact Window.append_cap _ _

theorem cap_runOps (ops : List Op) : (runOps regex ops).window.cap = arWindowBytes := by
  induction ops using List.reverseRecOn with
  | nil => rfl
  | append_singleton ops op ih =>
    rw [runOps, foldl_append]
    exact (cap_apply regex _ op).trans ih

/-- Of the rules that may answer and find their pattern in what a chunk lets them search,
each answers in that feed that has fewer than eight such rules before it in the table. -/
theorem matching_rule_answers (ops : List Op) (data : Bytes) (hdata : data ≠ []) (ts : Rat)
    (k : Nat) (r : ArRule ρ) (hk : (runOps regex ops).rules[k]? = some r) (hdue : r.Due ts)
    (hfound : (regex.exec r.compiled
      (searched ((runOps regex ops).window.append data))).1.isSome = true)
    (hroom : (hits regex (searched ((runOps regex ops).window.append data)) ts
      ((runOps regex ops).rules.take k)).length < 8) :
    ∃ fired ∈ (autoresponderFeed regex (runOps regex ops) data ts).1,
      fired.name = r.name ∧ fired.response = r.response := by
  have hcap : (runOps regex ops).window.cap ≠ 0 := by
    rw [cap_runOps]
    decide
  exact answers_of_found regex hdata hcap hk hdue hfound hroom

def nineRules : List Op :=
  (ascii "123456789").map fun name => .add [name] (ascii "x") (ascii "y") false 0

theorem matching_rule_answers_eighth :
    ∃ fired ∈ (autoresponderFeed wordRegex (runOps wordRegex nineRules) (ascii "x\n") 1).1,
      fired.name = ascii "8" := by
  obtain ⟨r, hr⟩ : ∃ r, (runOps wordRegex nineRules).rules[7]? = some r := ⟨_, rfl⟩
  have hfacts : ((runOps wordRegex nineRules).rules[7]?).all (fun r =>
      r.name == ascii "8" && decide (r.Due 1) && (wordRegex.exec r.compiled
        (searched ((runOps wordRegex nineRules).window.append (ascii "x\n")))).1.isSome) =
      true := by decide +kernel
  rw [hr, Option.all_some, Bool.and_eq_true, Bool.and_eq_true, beq_iff_eq,
    decide_eq_true_eq] at hfacts
  obtain ⟨⟨hname, hdue⟩, hfound⟩ := hfacts
  obtain ⟨fired, hfired, hsame, -⟩ := matching_rule_answers wordRegex nineRules (ascii "x\n")
    (by decide) 1 7 r hr hdue hfound (by decide +kernel)
  exact ⟨fired, hfired, hsame.trans hname⟩

theorem compiled_checkRules {S : Set ρ} (hstays : ∀ c ∈ S, ∀ text, (regex.exec c text).2 ∈ S)
    (window : Bytes) (start : Nat) (ts : Rat) (room : Nat) (hrules : ∀ r ∈ rules, r.compiled ∈ S) :
    ∀ r ∈ (checkRules regex window start ts room rules).1, r.compiled ∈ S := by
  obtain ⟨n, hn⟩ := checkRules_rules regex window start ts room rules
  intro r hr
  rw [hn] at hr
  cases mem_append.mp hr with
  | inl hr =>
    obtain ⟨old, hold, rfl⟩ := mem_map.mp hr
    have hcompiled := hrules old (mem_of_mem_take hold)
    obtain h | ⟨_, _, h⟩ := checkRule_rule regex window start ts old
    · rwa [h]
    · rw [h]
      exact hstays _ hcompiled _
  | inr hr => exact hrules r (mem_of_mem_drop hr)

/-- The window has read a stream in which the byte `c` does not follow the newline at `x`,
and no rule finds anything where the byte is not. -/
structure Passed (c : UInt8) (S : Set ρ) (stream : Bytes) (x : Nat) (ar : Autoresponder ρ) :
    Prop where
  reads : ar.window.Reads stream
  rules : ar.rules ≠ []
  compiled : ∀ r ∈ ar.rules, r.compiled ∈ S
  newline : stream[x]? = some 10
  clear : c ∉ stream.drop (x + 1)

variable {regex} {c : UInt8} {S : Set ρ} {stream : Bytes} {x : Nat} {ar : Autoresponder ρ}

theorem Passed.feed (h : Passed c S stream x ar)
    (hstays : ∀ p ∈ S, ∀ text, (regex.exec p text).2 ∈ S)
    (hblank : ∀ p ∈ S, ∀ text, c ∉ text → (regex.exec p text).1 = none) (hdata : c ∉ data)
    (ts : Rat) :
    (autoresponderFeed regex ar data ts).1 = [] ∧
      Passed c S (stream ++ data) x (autoresponderFeed regex ar data ts).2 := by
  have hlt := (List.getElem?_eq_some_iff.mp h.newline).1
  have hclear : c ∉ (stream ++ data).drop (x + 1) := by
    rw [drop_append_of_le_length hlt]
    exact fun hmem => (mem_append.mp hmem).elim h.clear hdata
  obtain ⟨hreads, hrules⟩ := reads_feed regex h.reads h.rules data ts
  have hnewline : (stream ++ data)[x]? = some 10 := by
    rw [getElem?_append_left hlt, h.newline]
  have hcap : ar.window.cap ≠ 0 := Nat.ne_zero_of_lt h.reads.short
  refine ⟨?_, hreads, hrules, ?_, hnewline, hclear⟩
  · by_cases hnil : data = []
    · rw [autoresponderFeed, if_pos (.inl hnil)]
    have hnone : hits regex (searched (ar.window.append data)) ts ar.rules = [] := by
      refine eq_nil_iff_forall_not_mem.mpr fun hit hmem => ?_
      obtain ⟨hrule, -, hfound⟩ := mem_hits regex hmem
      have hbehind : c ∉ searched (ar.window.append data) := fun hmem =>
        hclear ((h.reads.searched_behind data h.newline).subset hmem)
      rw [hblank _ (h.compiled _ (mem_of_getElem? hrule)) _ hbehind] at hfound
      cases hfound
    rw [(autoresponderFeed_spec regex ts hnil h.rules hcap).1, hnone]
    rfl
  · rw [autoresponderFeed]
    split_ifs
    · exact h.compiled
    · exact compiled_checkRules regex hstays _ _ _ _ h.compiled

theorem Passed.follow (h : Passed c S stream x ar)
    (hstays : ∀ p ∈ S, ∀ text, (regex.exec p text).2 ∈ S)
    (hblank : ∀ p ∈ S, ∀ text, c ∉ text → (regex.exec p text).1 = none)
    (hfeeds : c ∉ streamOf feeds) :
    ∃ stream', Passed c S stream' x (follow regex ar feeds) := by
  induction feeds generalizing ar stream with
  | nil => exact ⟨stream, h⟩
  | cons feed feeds ih =>
    rw [streamOf, flatMap_cons, mem_append, not_or] at hfeeds
    exact ih (h.feed hstays hblank hfeeds.1 feed.2).2 hfeeds.2

/-- Nine rules for one line: the ninth does not answer with the others, and no later output
without the text makes any rule answer. -/
theorem ninth_rule_starved :
    let ar := runOps wordRegex nineRules
    let fed := autoresponderFeed wordRegex ar (ascii "x\n") 1
    ar.rules.length = 9 ∧
      (∀ r ∈ ar.rules, r.Due 1 ∧ (wordRegex.exec r.compiled (ascii "x\n")).1.isSome = true) ∧
      fed.1.map (·.name) = (ascii "12345678").map ([·]) ∧
      ∀ feeds data ts, 120 ∉ streamOf feeds → 120 ∉ data →
        (autoresponderFeed wordRegex (follow wordRegex fed.2 feeds) data ts).1 = [] := by
  intro ar fed
  have hcompiled : ∀ r ∈ fed.2.rules, r.compiled ∈ ({ascii "x"} : Set Bytes) := by
    have hall : fed.2.rules.all (fun r => r.compiled == ascii "x") = true := by decide +kernel
    exact fun r hr => beq_iff_eq.mp (all_eq_true.mp hall r hr)
  have hpassed : Passed 120 {ascii "x"} (ascii "x\n") 1 fed.2 := by
    refine ⟨⟨?_, ?_, ?_⟩, ?_, hcompiled, by decide, by decide⟩
    · have hdata : fed.2.window.data = ascii "x\n" := by decide +kernel
      exact hdata ▸ suffix_rfl
    · decide +kernel
    · decide +kernel
    · decide +kernel
  have hstays : ∀ p ∈ ({ascii "x"} : Set Bytes), ∀ text, (wordRegex.exec p text).2 ∈
      ({ascii "x"} : Set Bytes) := fun p hp _ => hp
  have hblank : ∀ p ∈ ({ascii "x"} : Set Bytes), ∀ text, 120 ∉ text →
      (wordRegex.exec p text).1 = none := by
    rintro p rfl text htext
    refine Option.not_isSome_iff_eq_none.mp fun hfound => htext ?_
    exact ((firstAt_isSome (ascii "x") text).mp hfound).subset (by decide)
  have hfirst : ar.rules.length = 9 ∧ fed.1.map (·.name) = (ascii "12345678").map ([·]) := by
    decide +kernel
  refine ⟨hfirst.1, ?_, hfirst.2, ?_⟩
  · have hall : ar.rules.all (fun r => decide (r.Due 1) &&
        (wordRegex.exec r.compiled (ascii "x\n")).1.isSome) = true := by decide +kernel
    intro r hr
    have hone := all_eq_true.mp hall r hr
    rw [Bool.and_eq_true, decide_eq_true_eq] at hone
    exact hone
  · intro feeds data ts hfeeds hdata
    obtain ⟨stream', hlater⟩ := hpassed.follow hstays hblank hfeeds
    exact (hlater.feed hstays hblank hdata ts).1

end Room

end Smolmux.Autoresponder
