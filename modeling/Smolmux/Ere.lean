import Smolmux.Bytes

/-! Extended regular expressions over bytes: their syntax trees, how `regcomp` reads a
pattern's text, and where the matches of an expression end that begin at a given place of a
text. Anchors look at the whole text and back-references at what groups have matched, so a
match is a way through a text that keeps the words of the groups. -/

namespace Smolmux
open List

/-- Letters, digits and the underscore. -/
def isWord (c : UInt8) : Bool :=
  (48 ≤ c && c ≤ 57) || (65 ≤ c && c ≤ 90) || c == 95 || (97 ≤ c && c ≤ 122)

inductive Look where
  | bol
  | eol
  | wordStart
  | wordEnd
  | boundary
  | inside
  deriving DecidableEq, Repr

inductive Ere where
  | empty
  | lit (c : UInt8)
  | any
  | set (negated : Bool) (ranges : List (UInt8 × UInt8))
  | look (l : Look)
  | cat (a b : Ere)
  | alt (a b : Ere)
  | rep (r : Ere) (least : Nat) (most : Option Nat)
  | group (n : Nat) (r : Ere)
  | back (n : Nat)
  deriving DecidableEq, Repr

def wordBefore (text : List UInt8) (i : Nat) : Bool := 0 < i && (text[i - 1]?).any isWord

def wordAfter (text : List UInt8) (i : Nat) : Bool := (text[i]?).any isWord

def Look.holds (text : List UInt8) (i : Nat) : Look → Bool
  | .bol => i == 0
  | .eol => i == text.length
  | .wordStart => !wordBefore text i && wordAfter text i
  | .wordEnd => wordBefore text i && !wordAfter text i
  | .boundary => wordBefore text i != wordAfter text i
  | .inside => wordBefore text i == wordAfter text i

namespace Ere

/-- How far a match has come, and the words its groups have matched, the latest first. -/
structure Place where
  pos : Nat
  kept : List (Nat × List UInt8)

def Place.on (p : Place) (n : Nat) : Place := { p with pos := p.pos + n }

def Place.keep (p : Place) (n : Nat) (word : List UInt8) : Place :=
  { p with kept := (n, word) :: p.kept }

def slice (text : List UInt8) (i j : Nat) : List UInt8 := (text.take j).drop i

variable {r : Ere} {text : List UInt8} {p q : Place}

def step (text : List UInt8) (p : Place) (ok : UInt8 → Bool) : List Place :=
  if (text[p.pos]?).any ok then [p.on 1] else []

def iterate (f : Place → List Place) : (n : Nat) → Place → List Place
  | 0, p => [p]
  | n + 1, p => (f p).flatMap (iterate f n)

/-- Up to `n` steps that all move. -/
def within (f : Place → List Place) : (n : Nat) → Place → List Place
  | 0, p => [p]
  | n + 1, p => p :: ((f p).filter fun q => p.pos < q.pos).flatMap (within f n)

/-- How many steps a repetition may add to its least number; one without a bound makes no
more than there are bytes left. -/
def spare (least : Nat) : (most : Option Nat) → (left : Nat) → Nat
  | some most, _ => most - least
  | none, left => left

def runs : Ere → (text : List UInt8) → Place → List Place
  | .empty, _, p => [p]
  | .lit c, text, p => step text p (· == c)
  | .any, text, p => step text p fun _ => true
  | .set negated ranges, text, p =>
    step text p fun c => ranges.any (fun r => r.1 ≤ c && c ≤ r.2) != negated
  | .look l, text, p => if l.holds text p.pos then [p] else []
  | .cat a b, text, p => (a.runs text p).flatMap (b.runs text)
  | .alt a b, text, p => a.runs text p ++ b.runs text p
  | .rep r least most, text, p =>
    -- the empty text is a step of its own only where it is the whole repetition
    (if least = 0 ∧ most ≠ some 0 then (r.runs text p).filter (·.pos == p.pos) else []) ++
      (iterate (r.runs text) least p).flatMap
        (within (r.runs text) (spare least most (text.length - p.pos)))
  | .group n r, text, p => (r.runs text p).map fun q => q.keep n (slice text p.pos q.pos)
  | .back n, text, p =>
    ((p.kept.lookup n).filter fun word => slice text p.pos (p.pos + word.length) = word).toList.map
      fun word => p.on word.length

/-- The ends of the matches that begin at `i`. -/
def ends (r : Ere) (text : List UInt8) (i : Nat) : List Nat := (r.runs text ⟨i, []⟩).map Place.pos

def search (r : Ere) (text : List UInt8) : Option Nat :=
  (List.range (text.length + 1)).find? fun i => r.ends text i ≠ []

/-- Where the longest match ends that begins at `i`. -/
def reach (r : Ere) (text : List UInt8) (i : Nat) : Nat := (r.ends text i).foldl max i

theorem search_isSome :
    (r.search text).isSome ↔ ∃ i ≤ text.length, r.ends text i ≠ [] := by
  simp [search, find?_isSome, Nat.lt_succ_iff]

/-- The digits at the front, `fetch_number` of the library. -/
def number (s : List UInt8) : Option Nat × List UInt8 :=
  let digits := s.takeWhile fun c => 48 ≤ c && c ≤ 57
  if digits = [] then (none, s)
  else (some (digits.foldl (fun n c => n * 10 + (c.toNat - 48)) 0), s.drop digits.length)

def bounds (s : List UInt8) : Option ((Nat × Option Nat) × List UInt8) :=
  match number s with
  | (some least, 125 :: rest) => some ((least, some least), rest)
  | (least, 44 :: rest) =>
    match number rest with
    | (most, 125 :: rest) => some ((least.getD 0, most), rest)
    | _ => none
  | _ => none

def interval (s : List UInt8) : Option ((Nat × Option Nat) × List UInt8) :=
  (bounds s).filter fun b => b.1.2.all (b.1.1 ≤ ·) && b.1.2.getD b.1.1 ≤ 32767

def quantifier : List UInt8 → Option ((Nat × Option Nat) × List UInt8)
  | 42 :: s => some ((0, none), s)
  | 43 :: s => some ((1, none), s)
  | 63 :: s => some ((0, some 1), s)
  | 123 :: s => interval s
  | _ => none

def quantified : (fuel : Nat) → Ere → List UInt8 → Ere × List UInt8
  | 0, r, s => (r, s)
  | fuel + 1, r, s =>
    match quantifier s with
    | some ((least, most), rest) => quantified fuel (.rep r least most) rest
    | none => (r, s)

/-- The bytes of the character classes, in the C locale. -/
def classes : List (String × List (UInt8 × UInt8)) :=
  [("alpha", [(65, 90), (97, 122)]), ("digit", [(48, 57)]),
   ("alnum", [(48, 57), (65, 90), (97, 122)]), ("upper", [(65, 90)]), ("lower", [(97, 122)]),
   ("space", [(9, 13), (32, 32)]), ("blank", [(9, 9), (32, 32)]),
   ("punct", [(33, 47), (58, 64), (91, 96), (123, 126)]), ("print", [(32, 126)]),
   ("graph", [(33, 126)]), ("cntrl", [(0, 31), (127, 127)]),
   ("xdigit", [(48, 57), (65, 70), (97, 102)])]

def charClass (s : List UInt8) : Option (List (UInt8 × UInt8) × List UInt8) :=
  let name := s.takeWhile (· ≠ 58)
  match classes.find? (fun c => ascii c.1 == name), s.drop name.length with
  | some c, 58 :: 93 :: rest => some (c.2, rest)
  | _, _ => none

def ranges : (fuel : Nat) → (first : Bool) → List UInt8 →
    Option (List (UInt8 × UInt8) × List UInt8)
  | 0, _, _ => none
  | _ + 1, _, [] => none
  | fuel + 1, _, 91 :: 58 :: s =>
    (charClass s).bind fun c => (ranges fuel false c.2).map fun r => (c.1 ++ r.1, r.2)
  | fuel + 1, _, 91 :: 46 :: a :: 46 :: 93 :: s =>
    (ranges fuel false s).map fun r => ((a, a) :: r.1, r.2)
  | fuel + 1, _, 91 :: 61 :: a :: 61 :: 93 :: s =>
    (ranges fuel false s).map fun r => ((a, a) :: r.1, r.2)
  | fuel + 1, first, a :: s =>
    if a = 93 ∧ first = false then some ([], s)
    else
      match s with
      | 45 :: 93 :: s => some ([(a, a), (45, 45)], s)
      | 45 :: b :: s =>
        if b < a then none else (ranges fuel false s).map fun r => ((a, b) :: r.1, r.2)
      | s => (ranges fuel false s).map fun r => ((a, a) :: r.1, r.2)

def bracket (s : List UInt8) : Option (Ere × List UInt8) :=
  match s with
  | 94 :: s => (ranges (s.length + 1) true s).map fun r => (.set true r.1, r.2)
  | s => (ranges (s.length + 1) true s).map fun r => (.set false r.1, r.2)

def wordRanges : List (UInt8 × UInt8) := [(48, 57), (65, 90), (95, 95), (97, 122)]

def spaceRanges : List (UInt8 × UInt8) := [(9, 13), (32, 32)]

/-- What `regcomp` reads behind a backslash: anchors, classes, back-references, and every
other byte as itself. -/
def escaped : List UInt8 → Option (Ere × List UInt8)
  | [] => none
  | d :: rest =>
    let r : Ere :=
      if d = 96 then .look .bol
      else if d = 39 then .look .eol
      else if d = 60 then .look .wordStart
      else if d = 62 then .look .wordEnd
      else if d = 98 then .look .boundary
      else if d = 66 then .look .inside
      else if d = 119 then .set false wordRanges
      else if d = 87 then .set true wordRanges
      else if d = 115 then .set false spaceRanges
      else if d = 83 then .set true spaceRanges
      else if 49 ≤ d ∧ d ≤ 57 then .back (d.toNat - 48)
      else .lit d
    some (r, rest)

def isLook : Ere → Bool
  | .look _ => true
  | _ => false

def isQuantifier (c : UInt8) : Bool := c == 42 || c == 43 || c == 63 || c == 123

mutual

def alternation : (fuel depth : Nat) → List UInt8 → Option (Ere × List UInt8)
  | 0, _, _ => none
  | fuel + 1, depth, s =>
    match branch fuel depth s with
    | some (a, 124 :: rest) =>
      (alternation fuel depth rest).map fun b => (.alt a b.1, b.2)
    | r => r

def branch : (fuel depth : Nat) → List UInt8 → Option (Ere × List UInt8)
  | 0, _, _ => none
  | fuel + 1, depth, s =>
    match s with
    | [] => some (.empty, [])
    | c :: _ =>
      if c = 124 ∨ (c = 41 ∧ 0 < depth) then some (.empty, s)
      else
        match atom fuel depth s with
        | none => none
        | some (a, rest) =>
          -- an anchor is not repeated
          let q := if a.isLook then (a, rest) else quantified rest.length a rest
          (branch fuel depth q.2).map fun b => (.cat q.1 b.1, b.2)

def atom : (fuel depth : Nat) → List UInt8 → Option (Ere × List UInt8)
  | 0, _, _ => none
  | _ + 1, _, [] => none
  | fuel + 1, depth, c :: s =>
    if c = 40 then
      match alternation fuel (depth + 1) s with
      | some (r, 41 :: rest) => some (.group 0 r, rest)
      | _ => none
    else if c = 91 then bracket s
    else if c = 46 then some (.any, s)
    else if c = 94 then some (.look .bol, s)
    else if c = 36 then some (.look .eol, s)
    else if c = 92 then escaped s
    else if isQuantifier c then none
    else some (.lit c, s)

end

/-- Groups have the numbers of their opening parentheses, and a back-reference is to a group
that is closed. The state holds the groups opened so far and the numbers of the closed ones. -/
def numbered : Ere → (opened : Nat) → (closed : List Nat) → Option (Ere × Nat × List Nat)
  | .group _ r, opened, closed =>
    (numbered r (opened + 1) closed).map fun s => (.group (opened + 1) s.1, s.2.1, (opened + 1) :: s.2.2)
  | .back n, opened, closed => if n ∈ closed then some (.back n, opened, closed) else none
  | .cat a b, opened, closed =>
    (numbered a opened closed).bind fun s => (numbered b s.2.1 s.2.2).map fun t => (.cat s.1 t.1, t.2)
  | .alt a b, opened, closed =>
    (numbered a opened closed).bind fun s => (numbered b s.2.1 s.2.2).map fun t => (.alt s.1 t.1, t.2)
  | .rep r least most, opened, closed =>
    (numbered r opened closed).map fun s => (.rep s.1 least most, s.2)
  | r, opened, closed => some (r, opened, closed)

def parse (pattern : List UInt8) : Option Ere :=
  match alternation (3 * pattern.length + 3) 0 pattern with
  | some (r, []) => (numbered r 0 []).map Prod.fst
  | _ => none

section Ways

theorem mem_step {ok : UInt8 → Bool} :
    q ∈ step text p ok ↔ (∃ c, text[p.pos]? = some c ∧ ok c = true) ∧ q = p.on 1 := by
  rw [step]
  cases text[p.pos]? with
  | none => simp
  | some c => cases h : ok c <;> simp [h]

theorem mem_look {l : Look} :
    q ∈ (Ere.look l).runs text p ↔ l.holds text p.pos = true ∧ q = p := by
  rw [runs]
  split_ifs with h <;> simp [h]

theorem mem_back {n : Nat} : q ∈ (Ere.back n).runs text p ↔ ∃ word, p.kept.lookup n = some word ∧
    slice text p.pos (p.pos + word.length) = word ∧ q = p.on word.length := by
  rw [runs]
  cases p.kept.lookup n with
  | none => simp
  | some word =>
    by_cases h : slice text p.pos (p.pos + word.length) = word <;> simp [h, Option.filter_some]

theorem mem_rep {least : Nat} {most : Option Nat} :
    q ∈ (Ere.rep r least most).runs text p ↔
      ((least = 0 ∧ most ≠ some 0) ∧ q ∈ r.runs text p ∧ q.pos = p.pos) ∨
        ∃ s ∈ iterate (r.runs text) least p,
          q ∈ within (r.runs text) (spare least most (text.length - p.pos)) s := by
  rw [runs, mem_append, mem_flatMap]
  split_ifs with h <;> simp [h]

section

variable {f : Place → List Place} {n : Nat} {R : Place → Place → Prop} (hrefl : ∀ p, R p p)
  (htrans : ∀ {p q s}, R p q → R q s → R p s) (hf : ∀ p, ∀ q ∈ f p, R p q)
include hrefl htrans hf

theorem rel_iterate (hq : q ∈ iterate f n p) : R p q := by
  induction n generalizing p with
  | zero => exact mem_singleton.mp hq ▸ hrefl p
  | succ n ih =>
    obtain ⟨s, hs, hsq⟩ := mem_flatMap.mp hq
    exact htrans (hf p s hs) (ih hsq)

theorem rel_within (hq : q ∈ within f n p) : R p q := by
  induction n generalizing p with
  | zero => exact mem_singleton.mp hq ▸ hrefl p
  | succ n ih =>
    rcases mem_cons.mp hq with rfl | hq
    · exact hrefl q
    · obtain ⟨s, hs, hsq⟩ := mem_flatMap.mp hq
      exact htrans (hf p s (mem_filter.mp hs).1) (ih hsq)

end

/-- What every step of a repetition does, the repetition does. -/
theorem rel_rep {R : Place → Place → Prop} (hrefl : ∀ p, R p p)
    (htrans : ∀ {p q s}, R p q → R q s → R p s) (hr : ∀ p, ∀ q ∈ r.runs text p, R p q)
    {least : Nat} {most : Option Nat} (hq : q ∈ (Ere.rep r least most).runs text p) : R p q := by
  rcases mem_rep.mp hq with ⟨-, hq, -⟩ | ⟨s, hs, hsq⟩
  · exact hr p q hq
  · exact htrans (rel_iterate hrefl htrans hr hs) (rel_within hrefl htrans hr hsq)

def Onward (size : Nat) (p q : Place) : Prop := p.pos ≤ q.pos ∧ (p.pos ≤ size → q.pos ≤ size)

theorem Onward.refl (size : Nat) (p : Place) : Onward size p p := ⟨Nat.le_refl _, id⟩

theorem Onward.trans {size : Nat} {s : Place} (hpq : Onward size p q) (hqs : Onward size q s) :
    Onward size p s := ⟨hpq.1.trans hqs.1, hqs.2 ∘ hpq.2⟩

theorem onward_step {ok : UInt8 → Bool} (hq : q ∈ step text p ok) : Onward text.length p q := by
  obtain ⟨⟨c, hc, -⟩, rfl⟩ := mem_step.mp hq
  exact ⟨Nat.le_succ _, fun _ => (List.getElem?_eq_some_iff.mp hc).1⟩

theorem onward_runs (hq : q ∈ r.runs text p) : Onward text.length p q := by
  induction r generalizing p q with
  | empty => exact mem_singleton.mp hq ▸ .refl _ _
  | lit | any | set => exact onward_step hq
  | look => exact (mem_look.mp hq).2 ▸ .refl _ _
  | cat a b iha ihb =>
    obtain ⟨s, hs, hsq⟩ := mem_flatMap.mp hq
    exact (iha hs).trans (ihb hsq)
  | alt a b iha ihb => exact (mem_append.mp hq).elim iha ihb
  | rep r least most ih => exact rel_rep (.refl _) .trans (fun p q => ih) hq
  | group n r ih =>
    obtain ⟨s, hs, rfl⟩ := mem_map.mp hq
    exact ih (q := s) hs
  | back n =>
    obtain ⟨word, -, hword, rfl⟩ := mem_back.mp hq
    have hlength := congrArg length hword
    rw [slice, length_drop, length_take] at hlength
    refine ⟨Nat.le_add_right _ _, fun hp => ?_⟩
    rw [Place.on]
    dsimp only
    omega

end Ways

section Elsewhere

def looks : Ere → List Look
  | .look l => [l]
  | .cat a b | .alt a b => a.looks ++ b.looks
  | .rep r _ _ | .group _ r => r.looks
  | _ => []

def Place.shift (k : Nat) (p : Place) : Place := { p with pos := k + p.pos }

variable {text' : List UInt8} {k cut n : Nat}

theorem slice_shift (hbytes : ∀ i < cut, text'[k + i]? = text[i]?) {i j : Nat} (hj : j ≤ cut) :
    slice text' (k + i) (k + j) = slice text i j := by
  refine ext_getElem? fun m => ?_
  rw [slice, slice, getElem?_drop, getElem?_drop, getElem?_take, getElem?_take, Nat.add_assoc]
  by_cases hm : i + m < j
  · rw [if_pos (Nat.add_lt_add_left hm k), if_pos hm, hbytes _ (hm.trans_le hj)]
  · rw [if_neg fun h => hm (Nat.lt_of_add_lt_add_left h), if_neg hm]

section

variable {f g : Place → List Place} (hon : ∀ p, ∀ q ∈ f p, p.pos ≤ q.pos)
  (hfg : ∀ p, ∀ q ∈ f p, q.pos ≤ cut → q.shift k ∈ g (p.shift k))
include hon hfg

theorem mem_iterate_shift (hq : q ∈ iterate f n p) (hcut : q.pos ≤ cut) :
    q.shift k ∈ iterate g n (p.shift k) := by
  induction n generalizing p with
  | zero => exact mem_singleton.mpr (congrArg _ (mem_singleton.mp hq))
  | succ n ih =>
    obtain ⟨s, hs, hsq⟩ := mem_flatMap.mp hq
    have hle : s.pos ≤ q.pos :=
      rel_iterate (R := fun p q => p.pos ≤ q.pos) (fun _ => Nat.le_refl _) Nat.le_trans hon hsq
    exact mem_flatMap.mpr ⟨_, hfg p s hs (hle.trans hcut), ih hsq⟩

/-- Steps that move need no more room than there are bytes between their ends. -/
theorem mem_within_shift {m : Nat} (hq : q ∈ within f n p) (hcut : q.pos ≤ cut)
    (hm : n ≤ m ∨ q.pos ≤ p.pos + m) : q.shift k ∈ within g m (p.shift k) := by
  have hself : ∀ (m : Nat) (p : Place), p ∈ within g m p := by
    intro m p
    cases m <;> simp [within]
  induction n generalizing p m with
  | zero => exact mem_singleton.mp hq ▸ hself m _
  | succ n ih =>
    rcases mem_cons.mp hq with rfl | hq
    · exact hself m _
    · obtain ⟨s, hs, hsq⟩ := mem_flatMap.mp hq
      obtain ⟨hs, hmoves⟩ := mem_filter.mp hs
      have hmoves : p.pos < s.pos := of_decide_eq_true hmoves
      have hle : s.pos ≤ q.pos :=
        rel_within (R := fun p q => p.pos ≤ q.pos) (fun _ => Nat.le_refl _) Nat.le_trans hon hsq
      obtain ⟨m, rfl⟩ : ∃ m', m = m' + 1 := ⟨m - 1, by omega⟩
      have hshift : decide ((p.shift k).pos < (s.shift k).pos) = true :=
        decide_eq_true (Nat.add_lt_add_left hmoves k)
      refine mem_cons_of_mem _ (mem_flatMap.mpr
        ⟨_, mem_filter.mpr ⟨hfg p s hs (hle.trans hcut), hshift⟩, ih hsq ?_⟩)
      omega

end

/-- A match in a text is one in another text that has the bytes up to its end at a distance
`k`, when what the anchors of the expression ask holds there too. -/
theorem runs_shift (hbytes : ∀ i < cut, text'[k + i]? = text[i]?) (hroom : k + cut ≤ text'.length)
    (hlooks : ∀ l ∈ r.looks, ∀ i ≤ cut, l.holds text i → l.holds text' (k + i))
    (hq : q ∈ r.runs text p) (hcut : q.pos ≤ cut) : q.shift k ∈ r.runs text' (p.shift k) := by
  have hstep : ∀ {p q : Place} {ok : UInt8 → Bool}, q ∈ step text p ok → q.pos ≤ cut →
      q.shift k ∈ step text' (p.shift k) ok := by
    intro p q ok hq hcut
    obtain ⟨⟨c, hc, hok⟩, rfl⟩ := mem_step.mp hq
    exact mem_step.mpr ⟨⟨c, (hbytes _ hcut).trans hc, hok⟩, rfl⟩
  induction r generalizing p q with
  | empty => exact mem_singleton.mpr (congrArg _ (mem_singleton.mp hq))
  | lit | any | set => exact hstep hq hcut
  | look l =>
    obtain ⟨hl, rfl⟩ := mem_look.mp hq
    exact mem_look.mpr ⟨hlooks l (mem_singleton_self l) _ hcut hl, rfl⟩
  | cat a b iha ihb =>
    obtain ⟨s, hs, hsq⟩ := mem_flatMap.mp hq
    exact mem_flatMap.mpr
      ⟨_, iha (fun l hl => hlooks l (mem_append_left _ hl)) hs ((onward_runs hsq).1.trans hcut),
        ihb (fun l hl => hlooks l (mem_append_right _ hl)) hsq hcut⟩
  | alt a b iha ihb =>
    rcases mem_append.mp hq with hq | hq
    · exact mem_append_left _ (iha (fun l hl => hlooks l (mem_append_left _ hl)) hq hcut)
    · exact mem_append_right _ (ihb (fun l hl => hlooks l (mem_append_right _ hl)) hq hcut)
  | rep r least most ih =>
    have hon : ∀ p, ∀ q ∈ r.runs text p, p.pos ≤ q.pos := fun p q hq => (onward_runs hq).1
    have hfg := fun p q => ih (p := p) (q := q) hlooks
    rcases mem_rep.mp hq with ⟨hzero, hq, hstays⟩ | ⟨s, hs, hsq⟩
    · exact mem_rep.mpr (.inl ⟨hzero, ih hlooks hq hcut, congrArg (k + ·) hstays⟩)
    · have hps : p.pos ≤ s.pos :=
        rel_iterate (R := fun p q => p.pos ≤ q.pos) (fun _ => Nat.le_refl _) Nat.le_trans hon hs
      have hsq' : s.pos ≤ q.pos :=
        rel_within (R := fun p q => p.pos ≤ q.pos) (fun _ => Nat.le_refl _) Nat.le_trans hon hsq
      refine mem_rep.mpr (.inr ⟨_, mem_iterate_shift hon hfg hs (hsq'.trans hcut),
        mem_within_shift hon hfg hsq hcut ?_⟩)
      cases most with
      | some most => exact .inl (Nat.le_refl _)
      | none =>
        refine .inr ?_
        simp only [spare, Place.shift]
        omega
  | group n r ih =>
    obtain ⟨s, hs, rfl⟩ := mem_map.mp hq
    refine mem_map.mpr ⟨_, ih hlooks hs hcut, ?_⟩
    exact congrArg (fun word => (s.shift k).keep n word) (slice_shift hbytes hcut)
  | back n =>
    obtain ⟨word, hkept, hword, rfl⟩ := mem_back.mp hq
    refine mem_back.mpr ⟨word, hkept, ?_, ?_⟩
    · exact (congrArg (slice text' _) (Nat.add_assoc ..)).trans
        ((slice_shift hbytes hcut).trans hword)
    · simp only [Place.shift, Place.on, Nat.add_assoc]

theorem mem_ends {i j : Nat} : j ∈ r.ends text i ↔ ∃ q ∈ r.runs text ⟨i, []⟩, q.pos = j := mem_map

theorem ends_shift (hbytes : ∀ i < cut, text'[k + i]? = text[i]?) (hroom : k + cut ≤ text'.length)
    (hlooks : ∀ l ∈ r.looks, ∀ i ≤ cut, l.holds text i → l.holds text' (k + i)) {i j : Nat}
    (hj : j ∈ r.ends text i) (hcut : j ≤ cut) : k + j ∈ r.ends text' (k + i) := by
  obtain ⟨q, hq, rfl⟩ := mem_ends.mp hj
  exact mem_ends.mpr ⟨_, runs_shift hbytes hroom hlooks hq hcut, rfl⟩

theorem onward_ends {i j : Nat} (hj : j ∈ r.ends text i) :
    i ≤ j ∧ (i ≤ text.length → j ≤ text.length) := by
  obtain ⟨q, hq, rfl⟩ := mem_ends.mp hj
  exact onward_runs hq

/-- No part of the expression asks what stands before it. -/
def looksAhead (r : Ere) : Bool := r.looks.all (· == .eol)

theorem search_append_left (h : r.looksAhead) (hfound : (r.search text).isSome)
    (before : List UInt8) : (r.search (before ++ text)).isSome := by
  obtain ⟨i, hi, hne⟩ := search_isSome.mp hfound
  obtain ⟨j, hj⟩ := exists_mem_of_ne_nil _ hne
  have hmem : before.length + j ∈ r.ends (before ++ text) (before.length + i) := by
    refine ends_shift (fun m _ => ?_) (length_append).ge (fun l hl m _ hm => ?_) hj
      ((onward_ends hj).2 hi)
    · rw [getElem?_append_right (Nat.le_add_right ..), Nat.add_sub_cancel_left]
    · obtain rfl : l = .eol := by simpa using all_eq_true.mp h l hl
      simpa [Look.holds] using hm
  refine search_isSome.mpr ⟨before.length + i, ?_, ne_nil_of_mem hmem⟩
  rw [length_append]
  omega

end Elsewhere

section Cut

variable {c : UInt8} {i j : Nat}

def Clear (text : List UInt8) (c : UInt8) (i j : Nat) : Prop :=
  ∀ m, i ≤ m → m < j → text[m]? ≠ some c

theorem Clear.refl (text : List UInt8) (c : UInt8) (i : Nat) : Clear text c i i :=
  fun _ hi hj => absurd (hi.trans_lt hj) (Nat.lt_irrefl i)

theorem Clear.trans {k : Nat} (hij : Clear text c i j) (hjk : Clear text c j k) :
    Clear text c i k := fun m hi hk =>
  (Nat.lt_or_ge m j).elim (hij m hi) fun hj => hjk m hj hk

/-- No match of the expression contains the byte. -/
def Avoids (r : Ere) (c : UInt8) : Prop := ∀ text i j, j ∈ r.ends text i → Clear text c i j

def avoids (c : UInt8) : Ere → Bool
  | .lit d => d ≠ c
  | .any | .back _ => false
  | .set negated ranges => ranges.any (fun r => r.1 ≤ c && c ≤ r.2) = negated
  | .cat a b | .alt a b => a.avoids c && b.avoids c
  | .rep r _ _ | .group _ r => r.avoids c
  | _ => true

theorem clear_step {ok : UInt8 → Bool} (hq : q ∈ step text p ok) (hok : ok c = false) :
    Clear text c p.pos q.pos := by
  obtain ⟨⟨d, hd, hdok⟩, rfl⟩ := mem_step.mp hq
  intro m hpm hmq hm
  obtain rfl : m = p.pos := Nat.le_antisymm (Nat.le_of_lt_succ hmq) hpm
  obtain rfl := Option.some.inj (hd.symm.trans hm)
  exact Bool.false_ne_true (hok.symm.trans hdok)

theorem clear_runs (h : r.avoids c) (hq : q ∈ r.runs text p) : Clear text c p.pos q.pos := by
  induction r generalizing p q with
  | empty => exact mem_singleton.mp hq ▸ .refl _ _ _
  | lit d => exact clear_step hq (beq_false_of_ne (of_decide_eq_true h).symm)
  | any | back => cases h
  | set negated ranges =>
    exact clear_step hq (bne_eq_false_iff_eq.mpr (of_decide_eq_true h))
  | look => exact (mem_look.mp hq).2 ▸ .refl _ _ _
  | cat a b iha ihb =>
    obtain ⟨ha, hb⟩ := (Bool.and_eq_true _ _).mp h
    obtain ⟨s, hs, hsq⟩ := mem_flatMap.mp hq
    exact (iha ha hs).trans (ihb hb hsq)
  | alt a b iha ihb =>
    obtain ⟨ha, hb⟩ := (Bool.and_eq_true _ _).mp h
    exact (mem_append.mp hq).elim (iha ha) (ihb hb)
  | rep r least most ih =>
    exact rel_rep (R := fun p q => Clear text c p.pos q.pos) (fun p => .refl _ _ _) .trans
      (fun p q => ih h) hq
  | group n r ih =>
    obtain ⟨s, hs, rfl⟩ := mem_map.mp hq
    exact ih (q := s) h hs

theorem avoids_sound (h : r.avoids c) : r.Avoids c := by
  intro text i j hj
  obtain ⟨q, hq, rfl⟩ := mem_ends.mp hj
  exact clear_runs h hq

/-- A text that ends at the first byte `c` keeps the matches before it. To an anchor the end of
the text is like a byte that is in no word. -/
theorem search_takeWhile (hc : isWord c = false) (hr : r.Avoids c) (hi : i ≤ text.length)
    (hj : j ∈ r.ends text i) (hbefore : c ∉ text.take i) :
    (r.search (text.takeWhile (· ≠ c))).isSome := by
  obtain ⟨hij, hjle⟩ := onward_ends hj
  obtain ⟨part, hpart⟩ : ∃ part, text.takeWhile (· ≠ c) = part := ⟨_, rfl⟩
  have hsplit : text = part ++ text.dropWhile (· ≠ c) := by rw [← hpart, takeWhile_append_dropWhile]
  have hstop : ∀ d, text[part.length]? = some d → d = c := by
    intro d hd
    rw [hsplit, getElem?_append_right (Nat.le_refl _), Nat.sub_self, ← head?_eq_getElem?] at hd
    have hnot := head?_dropWhile_not (· ≠ c) text
    rw [hd] at hnot
    simpa using hnot
  have hbytes : ∀ m < part.length, part[m]? = text[m]? := fun m hm => by
    conv_rhs => rw [hsplit, getElem?_append_left hm]
  -- the match ends before the first byte `c`
  have hlong : j ≤ part.length := by
    by_contra hshort
    have hlt : part.length < text.length := by
      have := hjle hi
      omega
    have hat : text[part.length]? = some c := by
      rw [getElem?_eq_getElem hlt, hstop _ (getElem?_eq_getElem hlt)]
    rcases Nat.lt_or_ge part.length i with hlow | hhigh
    · exact hbefore (mem_of_getElem? ((getElem?_take_of_lt hlow).trans hat))
    · exact hr text i j hj _ hhigh (by omega) hat
  have hwords : ∀ m ≤ part.length,
      wordBefore part m = wordBefore text m ∧ wordAfter part m = wordAfter text m := by
    intro m hm
    refine ⟨?_, ?_⟩
    · cases m with
      | zero => rfl
      | succ m => rw [wordBefore, wordBefore, Nat.add_sub_cancel, hbytes m hm]
    · rw [wordAfter, wordAfter]
      rcases Nat.eq_or_lt_of_le hm with rfl | hm
      · rw [getElem?_eq_none (Nat.le_refl _)]
        cases hd : text[part.length]? with
        | none => rfl
        | some d => rw [hstop d hd, Option.any_some, hc, Option.any_none]
      · rw [hbytes m hm]
  have hends : 0 + j ∈ r.ends part (0 + i) := by
    refine ends_shift (k := 0) (fun m hm => ?_) (Nat.zero_add _).le (fun l _ m hm hl => ?_) hj hlong
    · rw [Nat.zero_add, hbytes m hm]
    · obtain ⟨hleft, hright⟩ := hwords m hm
      rw [Nat.zero_add]
      cases l with
      | eol =>
        have hlength := congrArg length hsplit
        have hend : m = text.length := beq_iff_eq.mp hl
        rw [length_append] at hlength
        exact beq_iff_eq.mpr (by omega)
      | bol => exact hl
      | _ => simpa only [Look.holds, hleft, hright] using hl
  rw [Nat.zero_add, Nat.zero_add] at hends
  rw [hpart]
  exact search_isSome.mpr ⟨i, hij.trans hlong, ne_nil_of_mem hends⟩

end Cut

/-- Words of which one stands at the start of every match; the flag says that the match is
the word. -/
def heads : Ere → List (List UInt8 × Bool)
  | .lit c => [([c], true)]
  | .empty | .look _ => [([], true)]
  | .any | .set _ _ | .back _ => [([], false)]
  | .cat a b => a.heads.flatMap fun h =>
    if h.2 then b.heads.map fun t => (h.1 ++ t.1, t.2) else [h]
  | .alt a b => a.heads ++ b.heads
  | .rep _ 0 _ => [([], false)]
  | .rep r (_ + 1) _ => r.heads.map fun h => (h.1, false)
  | .group _ r => r.heads

theorem heads_of_runs (hq : q ∈ r.runs text p) :
    ∃ h ∈ r.heads, h.1 <+: text.drop p.pos ∧ (h.2 → q.pos = p.pos + h.1.length) := by
  induction r generalizing p q with
  | empty =>
    exact ⟨([], true), mem_singleton_self _, nil_prefix,
      fun _ => congrArg Place.pos (mem_singleton.mp hq)⟩
  | look =>
    exact ⟨([], true), mem_singleton_self _, nil_prefix,
      fun _ => congrArg Place.pos (mem_look.mp hq).2⟩
  | lit c =>
    obtain ⟨⟨d, hd, hdc⟩, rfl⟩ := mem_step.mp hq
    obtain rfl := beq_iff_eq.mp hdc
    obtain ⟨hi, rfl⟩ := List.getElem?_eq_some_iff.mp hd
    refine ⟨([text[p.pos]], true), mem_singleton_self _, ?_, fun _ => rfl⟩
    rw [drop_eq_getElem_cons hi]
    exact ⟨text.drop (p.pos + 1), rfl⟩
  | any | set | back => exact ⟨([], false), mem_singleton_self _, nil_prefix, Bool.noConfusion⟩
  | cat a b iha ihb =>
    obtain ⟨s, hs, hsq⟩ := mem_flatMap.mp hq
    obtain ⟨⟨w, exact'⟩, hw, hstart, hend⟩ := iha hs
    cases exact' with
    | false => exact ⟨(w, false), mem_flatMap.mpr ⟨_, hw, mem_singleton_self _⟩, hstart,
        Bool.noConfusion⟩
    | true =>
      obtain ⟨⟨v, last⟩, hv, hnext, hlast⟩ := ihb hsq
      refine ⟨(w ++ v, last), mem_flatMap.mpr ⟨_, hw, mem_map.mpr ⟨_, hv, rfl⟩⟩, ?_, ?_⟩
      · obtain ⟨rest, hrest⟩ := hstart
        rw [hend rfl, ← drop_drop, ← hrest, drop_left] at hnext
        rw [← hrest]
        exact (prefix_append_right_inj w).mpr hnext
      · intro h
        rw [hlast h, hend rfl, length_append, Nat.add_assoc]
  | alt a b iha ihb =>
    rcases mem_append.mp hq with hq | hq
    · obtain ⟨h, hh, hfacts⟩ := iha hq
      exact ⟨h, mem_append_left _ hh, hfacts⟩
    · obtain ⟨h, hh, hfacts⟩ := ihb hq
      exact ⟨h, mem_append_right _ hh, hfacts⟩
  | rep r least most ih =>
    cases least with
    | zero => exact ⟨([], false), mem_singleton_self _, nil_prefix, Bool.noConfusion⟩
    | succ least =>
      rcases mem_rep.mp hq with ⟨⟨hzero, -⟩, -⟩ | ⟨s, hs, -⟩
      · exact absurd hzero (Nat.succ_ne_zero _)
      · obtain ⟨t, ht, -⟩ := mem_flatMap.mp hs
        obtain ⟨h, hh, hstart, -⟩ := ih ht
        exact ⟨(h.1, false), mem_map.mpr ⟨h, hh, rfl⟩, hstart, Bool.noConfusion⟩
  | group n r ih =>
    obtain ⟨s, hs, rfl⟩ := mem_map.mp hq
    exact ih (q := s) hs

theorem heads_of_search (h : (r.search text).isSome) :
    ∃ word ∈ r.heads, word.1 <:+: text := by
  obtain ⟨i, -, hne⟩ := search_isSome.mp h
  obtain ⟨j, hj⟩ := exists_mem_of_ne_nil _ hne
  obtain ⟨q, hq, -⟩ := mem_ends.mp hj
  obtain ⟨word, hword, hstart, -⟩ := heads_of_runs hq
  exact ⟨word, hword, hstart.isInfix.trans (drop_suffix i text).isInfix⟩

def BeginsWith (r : Ere) (w : List UInt8) : Prop := ∀ h ∈ r.heads, w <+: h.1

theorem BeginsWith.of_search {w : List UInt8} (h : r.BeginsWith w)
    (hfound : (r.search text).isSome) : w <:+: text := by
  obtain ⟨word, hword, hin⟩ := heads_of_search hfound
  exact (h word hword).isInfix.trans hin

variable {c : UInt8}

def isPlain (c : UInt8) : Bool := !([91, 40, 46, 42, 43, 63, 124, 92, 94, 36, 123].contains c)

/-- What follows leaves the last byte before it in every match: it begins with no quantifier,
or with one that asks for the byte and is the only one. -/
def firm (s : List UInt8) : Bool :=
  match quantifier s with
  | none => true
  | some (bounds, rest) => 0 < bounds.1 && (quantifier rest).isNone

theorem isPlain_ne (h : isPlain c) :
    c ≠ 91 ∧ c ≠ 40 ∧ c ≠ 46 ∧ c ≠ 42 ∧ c ≠ 43 ∧ c ≠ 63 ∧ c ≠ 124 ∧ c ≠ 92 ∧ c ≠ 94 ∧ c ≠ 36 ∧
      c ≠ 123 := by
  simpa [isPlain] using h

theorem quantifier_plain (h : isPlain c) (s : List UInt8) :
    quantifier (c :: s) = none := by
  obtain ⟨-, -, -, h42, h43, h63, -, -, -, -, h123⟩ := isPlain_ne h
  unfold quantifier
  split <;> simp_all

theorem firm_plain (h : isPlain c) (s : List UInt8) : firm (c :: s) := by
  rw [firm, quantifier_plain h]

theorem atom_plain (h : isPlain c) (fuel depth : Nat) (s : List UInt8) :
    atom (fuel + 1) depth (c :: s) = some (.lit c, s) := by
  obtain ⟨h91, h40, h46, h42, h43, h63, -, h92, h94, h36, h123⟩ := isPlain_ne h
  rw [atom, if_neg h40, if_neg h91, if_neg h46, if_neg h94, if_neg h36, if_neg h92]
  simp [isQuantifier, h42, h43, h63, h123]

theorem quantified_firm {s : List UInt8} (h : firm s) (c : UInt8) (fuel : Nat) :
    ∃ flag, (quantified fuel (.lit c) s).1.heads = [([c], flag)] ∧
      (quantifier s = none → flag ∧ (quantified fuel (.lit c) s).2 = s) := by
  cases fuel with
  | zero => exact ⟨true, rfl, fun _ => ⟨rfl, rfl⟩⟩
  | succ fuel =>
    rw [firm] at h
    rw [quantified]
    split at h
    · next hnone =>
      rw [hnone]
      exact ⟨true, rfl, fun _ => ⟨rfl, rfl⟩⟩
    · next bounds rest hsome =>
      obtain ⟨hpos, hlast⟩ := (Bool.and_eq_true _ _).mp h
      obtain ⟨least, hleast⟩ := Nat.exists_eq_succ_of_ne_zero (of_decide_eq_true hpos).ne'
      have hstop : quantified fuel (.rep (.lit c) bounds.1 bounds.2) rest =
          (.rep (.lit c) bounds.1 bounds.2, rest) := by
        cases fuel with
        | zero => rfl
        | succ fuel => rw [quantified, Option.isNone_iff_eq_none.mp hlast]
      rw [hsome]
      refine ⟨false, ?_, fun hnone => absurd hnone (Option.some_ne_none _)⟩
      dsimp only
      rw [hstop, hleast]
      rfl

theorem branch_beginsWith {run rest : List UInt8} (hrun : ∀ c ∈ run, isPlain c)
    (hrest : firm rest) {fuel : Nat} {t : List UInt8}
    (h : branch fuel 0 (run ++ rest) = some (r, t)) : r.BeginsWith run := by
  induction run generalizing fuel r t with
  | nil => exact fun _ _ => nil_prefix
  | cons c run ih =>
    have hc := hrun c mem_cons_self
    have hrun' : ∀ d ∈ run, isPlain d := fun d hd => hrun d (mem_cons_of_mem _ hd)
    have hbar : ¬ (c = 124 ∨ (c = 41 ∧ 0 < 0)) := by
      have := (isPlain_ne hc).2.2.2.2.2.2.1
      simpa using this
    match fuel, h with
    | 1, h =>
      rw [cons_append, branch, if_neg hbar, atom] at h
      exact absurd h (Option.some_ne_none _).symm
    | fuel + 2, h =>
      rw [cons_append, branch, if_neg hbar, atom_plain hc] at h
      have hquantified : ¬ (Ere.lit c).isLook = true := Bool.false_ne_true
      dsimp only at h
      rw [if_neg hquantified] at h
      obtain ⟨b, hb, heq⟩ := Option.map_eq_some_iff.mp h
      obtain rfl := congrArg Prod.fst heq
      have hfirm : firm (run ++ rest) := by
        cases run with
        | nil => exact hrest
        | cons d run => exact firm_plain (hrun' d mem_cons_self) _
      obtain ⟨flag, hheads, hplain⟩ := quantified_firm hfirm c (run ++ rest).length
      intro w hw
      rw [heads, hheads, flatMap_singleton] at hw
      cases run with
      | nil =>
        cases flag with
        | false => exact mem_singleton.mp hw ▸ prefix_rfl
        | true =>
          obtain ⟨v, -, rfl⟩ := mem_map.mp hw
          exact prefix_append [c] v.1
      | cons d run =>
        obtain ⟨rfl, hsame⟩ := hplain (quantifier_plain (hrun' d mem_cons_self) _)
        rw [hsame] at hb
        obtain ⟨v, hv, rfl⟩ := mem_map.mp hw
        exact (prefix_append_right_inj [c]).mpr (ih hrun' hb v hv)

def isAlt : Ere → Bool
  | .alt _ _ => true
  | _ => false

theorem numbered_heads {opened : Nat} {closed : List Nat} {s : Ere × Nat × List Nat}
    (h : numbered r opened closed = some s) : s.1.heads = r.heads ∧ s.1.isAlt = r.isAlt := by
  induction r generalizing opened closed s with
  | group n r ih =>
    obtain ⟨t, ht, rfl⟩ := Option.map_eq_some_iff.mp h
    exact ⟨(ih ht).1, rfl⟩
  | back n =>
    rw [numbered] at h
    split_ifs at h
    cases h
    exact ⟨rfl, rfl⟩
  | cat a b iha ihb =>
    obtain ⟨t, ht, h⟩ := Option.bind_eq_some_iff.mp h
    obtain ⟨u, hu, rfl⟩ := Option.map_eq_some_iff.mp h
    exact ⟨by rw [heads, (iha ht).1, (ihb hu).1, heads], rfl⟩
  | alt a b iha ihb =>
    obtain ⟨t, ht, h⟩ := Option.bind_eq_some_iff.mp h
    obtain ⟨u, hu, rfl⟩ := Option.map_eq_some_iff.mp h
    exact ⟨by rw [heads, (iha ht).1, (ihb hu).1, heads], rfl⟩
  | rep r least most ih =>
    obtain ⟨t, ht, rfl⟩ := Option.map_eq_some_iff.mp h
    refine ⟨?_, rfl⟩
    cases least with
    | zero => rfl
    | succ least => rw [heads, (ih ht).1, heads]
  | _ =>
    cases h
    exact ⟨rfl, rfl⟩

theorem parse_beginsWith {run rest : List UInt8} (hrun : ∀ c ∈ run, isPlain c)
    (hrest : firm rest) (h : parse (run ++ rest) = some r) (halt : r.isAlt = false) : r.BeginsWith run := by
  rw [parse] at h
  split at h
  · next parsed hparsed =>
    obtain ⟨s, hs, rfl⟩ := Option.map_eq_some_iff.mp h
    obtain ⟨hheads, hsame⟩ := numbered_heads hs
    rw [BeginsWith, hheads]
    rw [hsame] at halt
    rw [alternation] at hparsed
    split at hparsed
    · obtain ⟨b, -, heq⟩ := Option.map_eq_some_iff.mp hparsed
      obtain rfl := congrArg Prod.fst heq
      exact absurd halt Bool.noConfusion
    · exact branch_beginsWith hrun hrest hparsed
  · exact absurd h (Option.some_ne_none r).symm

end Ere

end Smolmux
