import Smolmux.AutoresponderScan
import Smolmux.RuleTables
import Smolmux.Trace
import Mathlib.Tactic.Linarith

/-! How often a rule answers. The operations on an autoresponder are recorded with the add each
rule of the table goes back to, through rules that move up and rules that are replaced, and the
record is held to a law: an answer is that of the latest add of its name, a rule for one answer
gives one, and two answers are a cooldown apart. -/

namespace Smolmux.Autoresponder
open List

variable {ρ : Type}

/-- A note of what was done: an add that was taken, or an answer with the place of the note
of the add it goes back to. -/
inductive Note where
  | added (name response : Bytes) (once : Bool) (cooldownS : Rat)
  | fired (place : Nat) (ts : Rat) (response : Bytes)
deriving DecidableEq

def Note.response : Note → Bytes
  | .added _ response _ _ => response
  | .fired _ _ response => response

structure Origin where
  place : Nat
  name : Bytes

structure Recorded (ρ : Type) where
  ar : Autoresponder ρ
  origins : List Origin
  notes : List Note

def cooldownOf (cooldownMs : Int) : Rat :=
  (if 0 < cooldownMs then cooldownMs else arDefaultCooldownMs : Int) / 1000

def firedNotes (regex : Regex ρ) (window : Bytes) (start : Nat) (ts : Rat) :
    (room : Nat) → List (ArRule ρ × Origin) → List Note
  | 0, _ => []
  | _, [] => []
  | room + 1, e :: table =>
    match (checkRule regex window start ts e.1).2 with
    | none => firedNotes regex window start ts (room + 1) table
    | some f => .fired e.2.place ts f.response :: firedNotes regex window start ts room table

def Recorded.table (s : Recorded ρ) : List (ArRule ρ × Origin) := s.ar.rules.zip s.origins

def Recorded.answers (regex : Regex ρ) (s : Recorded ρ) (data : Bytes) (ts : Rat) : List Note :=
  if data = [] ∨ s.ar.rules = [] ∨ s.ar.window.cap = 0 then []
  else
    let w := s.ar.window.append data
    firedNotes regex w.data (Window.lineStart w.data w.searchOffset) ts arMaxFiredPerFeed s.table

def Recorded.step (regex : Regex ρ) (s : Recorded ρ) (op : Op) : Recorded ρ :=
  let ar := op.apply regex s.ar
  match op with
  | .add name pattern response once cooldownMs =>
    if (autoresponderAdd regex s.ar name pattern response once cooldownMs).2 = true then
      let origin : Origin := ⟨s.notes.length, name⟩
      { ar := ar
        origins :=
          match s.ar.rules.findIdx? (·.name == name) with
          | some i => s.origins.set i origin
          | none => s.origins ++ [origin]
        notes := s.notes ++ [.added name response once (cooldownOf cooldownMs)] }
    else { s with ar := ar }
  | .remove name =>
    { s with
      ar := ar
      origins :=
        match s.ar.rules.findIdx? (·.name == name) with
        | some i => s.origins.eraseIdx i
        | none => s.origins }
  | .feed data ts => { s with ar := ar, notes := s.notes ++ s.answers regex data ts }
  | _ => { s with ar := ar }

def record (regex : Regex ρ) (ops : List Op) : Recorded ρ :=
  ops.foldl (Recorded.step regex) ⟨autoresponderInit, [], []⟩

/-- What an answer may be after the notes before it: it goes back to an add that has its
response, none of that name has come since when the name is kept whole, and every answer that
goes back to the same add is a cooldown earlier, if the rule is not for one answer only. -/
def Lawful (before : List Note) : Note → Prop
  | .added .. => True
  | .fired place ts response => ∃ name once cooldownS,
      before[place]? = some (.added name response once cooldownS) ∧
      (∀ ts' response', .fired place ts' response' ∈ before →
        once = false ∧ cooldownS ≤ ts - ts') ∧
      (name.length < 64 → ∀ response' once' cooldownS',
        .added name response' once' cooldownS' ∉ before.drop (place + 1))

structure Kept (notes : List Note) (r : ArRule ρ) (o : Origin) : Prop where
  added : notes[o.place]? = some (.added o.name r.response r.once r.cooldownS)
  name : r.name = stored 64 o.name
  positive : 0 < r.cooldownS
  fires : ∀ ts response, .fired o.place ts response ∈ notes →
    0 < r.lastFireTime ∧ ts ≤ r.lastFireTime ∧ (r.once = true → r.enabled = false)
  latest : o.name.length < 64 → ∀ response once cooldownS,
    .added o.name response once cooldownS ∉ notes.drop (o.place + 1)

/-- Two rules of the table, in their order: they go back to different adds, and the search for
a name that is kept whole does not stop before the rule added under it. -/
def Apart (a b : Bytes × Origin) : Prop :=
  a.2.place ≠ b.2.place ∧ (b.2.name.length < 64 → a.1 ≠ b.2.name)

structure Consistent (table : List (ArRule ρ × Origin)) (notes : List Note) : Prop where
  kept : ∀ e ∈ table, Kept notes e.1 e.2
  apart : (table.map fun e => (e.1.name, e.2)).Pairwise Apart
  lawful : EachAfter Lawful notes

variable {regex : Regex ρ} {notes : List Note} {r r' : ArRule ρ} {o : Origin}
  {table front back : List (ArRule ρ × Origin)}

theorem Kept.place_lt (h : Kept notes r o) : o.place < notes.length :=
  (List.getElem?_eq_some_iff.mp h.added).1

theorem Kept.append (h : Kept notes r o) {note : Note}
    (hfired : ∀ ts response, note ≠ .fired o.place ts response)
    (hadded : o.name.length < 64 → ∀ response once cooldownS,
      note ≠ .added o.name response once cooldownS) : Kept (notes ++ [note]) r o where
  added := by rw [getElem?_append_left h.place_lt]; exact h.added
  name := h.name
  positive := h.positive
  fires ts response hmem := by
    rcases mem_append.mp hmem with hold | hnew
    · exact h.fires ts response hold
    · exact absurd (mem_singleton.mp hnew).symm (hfired ts response)
  latest hname response once cooldownS hmem := by
    rw [drop_append_of_le_length h.place_lt] at hmem
    rcases mem_append.mp hmem with hold | hnew
    · exact h.latest hname response once cooldownS hold
    · exact hadded hname response once cooldownS (mem_singleton.mp hnew).symm

theorem lawful_concat {note : Note} (h : EachAfter Lawful notes) (hnote : Lawful notes note) :
    EachAfter Lawful (notes ++ [note]) :=
  h.append (.single (by simpa using hnote))

namespace Consistent

theorem sublist (h : Consistent table notes) (hsub : front.Sublist table) :
    Consistent front notes :=
  ⟨fun e he => h.kept e (hsub.subset he), h.apart.sublist (hsub.map _), h.lawful⟩

theorem replace (h : Consistent (front ++ (r, o) :: back) notes) (hname : r'.name = r.name)
    (hkept : Kept notes r' o) : Consistent (front ++ (r', o) :: back) notes := by
  refine ⟨fun e he => ?_, by simpa [hname] using h.apart, h.lawful⟩
  rcases mem_append.mp he with hfront | hback
  · exact h.kept e (mem_append_left _ hfront)
  · rcases mem_cons.mp hback with rfl | hback
    · exact hkept
    · exact h.kept e (mem_append_right _ (mem_cons_of_mem _ hback))

theorem place_ne (h : Consistent (front ++ (r, o) :: back) notes) {e : ArRule ρ × Origin}
    (he : e ∈ front ++ back) : e.2.place ≠ o.place := by
  have hapart := h.apart
  rw [map_append, map_cons, pairwise_append] at hapart
  rcases mem_append.mp he with hfront | hback
  · exact (hapart.2.2 _ (mem_map_of_mem hfront) _ mem_cons_self).1
  · exact ((pairwise_cons.mp hapart.2.1).1 _ (mem_map_of_mem hback)).1.symm

theorem fire (h : Consistent (front ++ (r, o) :: back) notes) {ts : Rat} (hts : 0 < ts)
    (hdue : r.Due ts) (compiled : ρ) :
    Consistent (front ++ ({ r with
        compiled := compiled, lastFireTime := ts, enabled := !r.once }, o) :: back)
      (notes ++ [.fired o.place ts r.response]) := by
  have hkept : Kept notes r o := h.kept (r, o) (by simp)
  -- what was answered before was a cooldown ago
  have hquiet : ∀ ts' response, .fired o.place ts' response ∈ notes →
      r.once = false ∧ r.cooldownS ≤ ts - ts' := by
    intro ts' response hmem
    obtain ⟨hpos, hle, honce⟩ := hkept.fires ts' response hmem
    refine ⟨?_, ?_⟩
    · by_contra hone
      have hoff := honce (by simpa using hone)
      rw [hdue.1] at hoff
      cases hoff
    · have := not_and.mp hdue.2 hpos
      simp only [not_lt] at this
      linarith
  refine ⟨fun e he => ?_, by simpa using h.apart, lawful_concat h.lawful
    ⟨o.name, r.once, r.cooldownS, hkept.added, hquiet, hkept.latest⟩⟩
  have hcases : e = ({ r with compiled := compiled, lastFireTime := ts, enabled := !r.once }, o) ∨
      e ∈ front ++ back := by
    simp only [mem_append, mem_cons] at he ⊢
    tauto
  rcases hcases with rfl | hother
  · refine ⟨?_, hkept.name, hkept.positive, fun ts' response hmem => ?_, ?_⟩
    · rw [getElem?_append_left hkept.place_lt]
      exact hkept.added
    · rcases mem_append.mp hmem with hold | hnew
      · have := (hquiet ts' response hold).2
        have := hkept.positive
        exact ⟨hts, show ts' ≤ ts by linarith, fun hone => by simp_all⟩
      · simp only [mem_singleton, Note.fired.injEq] at hnew
        exact ⟨hts, hnew.2.1.le, fun hone => by simp_all⟩
    · intro hname response once cooldownS hmem
      rw [drop_append_of_le_length hkept.place_lt] at hmem
      simp only [mem_append, mem_singleton, reduceCtorEq, or_false] at hmem
      exact hkept.latest hname response once cooldownS hmem
  · have hne := h.place_ne hother
    have hold : e ∈ front ++ (r, o) :: back := by
      simp only [mem_append, mem_cons] at hother ⊢
      tauto
    exact (h.kept e hold).append (fun _ _ heq => hne (Note.fired.inj heq).1.symm)
      (fun _ _ _ _ heq => by cases heq)

theorem check (regex : Regex ρ) (window : Bytes) (start : Nat) {ts : Rat} (hts : 0 < ts)
    (room : Nat) (front : List (ArRule ρ × Origin)) (h : Consistent (front ++ table) notes) :
    Consistent (front ++ (checkRules regex window start ts room (table.map Prod.fst)).1.zip
        (table.map Prod.snd)) (notes ++ firedNotes regex window start ts room table) := by
  induction table generalizing front notes room with
  | nil => cases room <;> simpa [checkRules, firedNotes] using h
  | cons e table ih =>
    obtain ⟨r, o⟩ := e
    cases room with
    | zero =>
      rw [checkRules, firedNotes, zip_map', append_nil]
      simpa using h
    | succ room =>
      have hkept : Kept notes r o := h.kept (r, o) (by simp)
      -- a rule that does not answer differs in its matcher at most
      have hquiet (compiled : ρ) :
          Consistent (front ++ [({ r with compiled := compiled }, o)] ++ table) notes := by
        rw [append_assoc]
        exact h.replace rfl
          ⟨hkept.added, hkept.name, hkept.positive, hkept.fires, hkept.latest⟩
      rw [map_cons, map_cons, checkRules, firedNotes]
      dsimp only
      by_cases hdue : r.Due ts
      · rw [checkRule, if_neg (by rw [hdue.1]; decide), if_neg hdue.2]
        dsimp only
        cases (regex.exec r.compiled (window.drop start)).1 with
        | none =>
          have hrest := ih (room + 1) _ (hquiet (regex.exec r.compiled (window.drop start)).2)
          rwa [append_assoc] at hrest
        | some off =>
          have hfire := h.fire hts hdue (regex.exec r.compiled (window.drop start)).2
          rw [← singleton_append, ← append_assoc] at hfire
          have hrest := ih room _ hfire
          rwa [append_assoc, append_assoc] at hrest
      · rw [checkRule_of_not_due regex window start hdue]
        have hrest := ih (room + 1) _ (hquiet r.compiled)
        rwa [append_assoc] at hrest

theorem add {name response : Bytes} {once : Bool} {cooldownS : Rat}
    (h : Consistent (front ++ back) notes) (hpos : 0 < cooldownS)
    (hfront : ∀ e ∈ front, e.1.name ≠ name)
    (hback : ∀ e ∈ back, e.2.name.length < 64 → stored 64 name ≠ e.2.name)
    (hr : r.name = stored 64 name ∧ r.response = response ∧ r.once = once ∧
      r.cooldownS = cooldownS) :
    Consistent (front ++ (r, ⟨notes.length, name⟩) :: back)
      (notes ++ [.added name response once cooldownS]) := by
  obtain ⟨hname, rfl, rfl, rfl⟩ := hr
  have hother : ∀ e ∈ front ++ back, e.2.name.length < 64 → e.2.name ≠ name := by
    intro e he hlen heq
    rcases mem_append.mp he with hin | hin
    · refine hfront e hin ?_
      rw [(h.kept e he).name, stored_fits hlen, heq]
    · refine hback e hin hlen ?_
      rw [← heq, stored_fits hlen]
  have hplace : ∀ e ∈ front ++ back, e.2.place ≠ notes.length := fun e he =>
    (h.kept e he).place_lt.ne
  have hnotfired : ∀ ts response, .fired notes.length ts response ∉ notes := by
    intro ts response hmem
    obtain ⟨pre, post, hsplit⟩ := append_of_mem hmem
    obtain ⟨_, _, _, hadded, -⟩ := h.lawful _ _ _ hsplit
    have := (List.getElem?_eq_some_iff.mp hadded).1
    rw [hsplit] at this
    simp at this
  refine ⟨fun e he => ?_, ?_, lawful_concat h.lawful trivial⟩
  · have hcases : e = (r, ⟨notes.length, name⟩) ∨ e ∈ front ++ back := by
      simp only [mem_append, mem_cons] at he ⊢
      tauto
    rcases hcases with rfl | hin
    · refine ⟨by simp, hname, hpos, fun ts response hmem => ?_, fun _ _ _ _ => by simp⟩
      simp only [mem_append, mem_singleton, reduceCtorEq, or_false] at hmem
      exact absurd hmem (hnotfired ts response)
    · exact (h.kept e hin).append (fun _ _ heq => by cases heq)
        fun hlen _ _ _ heq => hother e hin hlen (Note.added.inj heq).1.symm
  · have hapart := h.apart
    rw [map_append, pairwise_append] at hapart
    rw [map_append, map_cons, pairwise_append, pairwise_cons]
    refine ⟨hapart.1, ⟨fun b hb => ?_, hapart.2.1⟩, fun a ha b hb => ?_⟩
    · obtain ⟨e, he, rfl⟩ := mem_map.mp hb
      exact ⟨(hplace e (mem_append_right _ he)).symm, fun hlen => hname ▸ hback e he hlen⟩
    · rcases mem_cons.mp hb with rfl | hb
      · obtain ⟨e, he, rfl⟩ := mem_map.mp ha
        exact ⟨hplace e (mem_append_left _ he), fun _ => hfront e he⟩
      · exact hapart.2.2 a ha b hb

end Consistent

theorem cooldownOf_pos (cooldownMs : Int) : 0 < cooldownOf cooldownMs := by
  have hpos : 0 < (if 0 < cooldownMs then cooldownMs else arDefaultCooldownMs) := by
    split
    · assumption
    · decide
  have : (0 : Rat) < (if 0 < cooldownMs then cooldownMs else arDefaultCooldownMs : Int) := by
    exact_mod_cast hpos
  rw [cooldownOf]
  linarith

structure Recorded.Sound (s : Recorded ρ) (table : List (ArRule ρ × Origin)) : Prop where
  rules : s.ar.rules = table.map Prod.fst
  origins : s.origins = table.map Prod.snd
  consistent : Consistent table s.notes

variable {s : Recorded ρ}

theorem Recorded.Sound.table_eq (h : s.Sound table) : s.table = table := by
  rw [Recorded.table, h.rules, h.origins, zip_map']
  simp

theorem Recorded.Sound.split (h : s.Sound table) {name : Bytes} {i : Nat}
    (hi : s.ar.rules.findIdx? (·.name == name) = some i) :
    ∃ front r o back, table = front ++ (r, o) :: back ∧ front.length = i ∧ r.name = name ∧
      ∀ e ∈ front, e.1.name ≠ name := by
  have hi' : table.findIdx? (fun e => e.1.name == name) = some i := by
    rw [← hi, h.rules, findIdx?_map]
    rfl
  obtain ⟨front, e, back, rfl, hlen, hname, hnot⟩ := Keyed.findIdx_split hi'
  exact ⟨front, e.1, e.2, back, rfl, hlen, hname, fun e' he' heq =>
    hnot (mem_map.mpr ⟨e', he', heq⟩)⟩

theorem modify_middle {α β : Type} (f : α → β) (front back : List α) (x : α) (g : β → β) :
    ((front ++ x :: back).map f).modify front.length g =
      front.map f ++ g (f x) :: back.map f := by
  rw [modify_eq_take_drop, map_append, take_left' (by simp),
    drop_left' (by simp)]
  rfl

theorem Recorded.Sound.add (h : s.Sound table) (name pattern response : Bytes) (once : Bool)
    (cooldownMs : Int) :
    ∃ table', (s.step regex (.add name pattern response once cooldownMs)).Sound table' := by
  simp only [Recorded.step, Op.apply]
  cases hd : requested regex name pattern response once cooldownMs with
  | none =>
    rw [autoresponderAdd_none hd]
    exact ⟨table, h⟩
  | some d =>
    obtain ⟨hresponse, honce, hcooldown⟩ := requested_spec hd
    have hpos := cooldownOf_pos cooldownMs
    rw [autoresponderAdd_some hd, Keyed.put]
    cases hi : s.ar.rules.findIdx? (·.name == name) with
    | none =>
      have hnot : ∀ e ∈ table, e.1.name ≠ name := by
        intro e he heq
        refine Keyed.not_mem_of_findIdx hi ?_
        rw [h.rules, map_map]
        exact mem_map.mpr ⟨e, he, heq⟩
      dsimp only
      by_cases hfull : maxAutoresponders ≤ s.ar.rules.length
      · simp only [if_pos hfull, Bool.false_eq_true, if_false]
        exact ⟨table, h⟩
      · simp only [if_neg hfull, if_true]
        exact ⟨table ++ [(d.rule (stored 64 name) [], ⟨s.notes.length, name⟩)], by simp [h.rules],
          by simp [h.origins], Consistent.add (by simpa using h.consistent) hpos hnot (by simp)
            ⟨rfl, hresponse, honce, hcooldown⟩⟩
    | some i =>
      obtain ⟨front, r, o, back, rfl, rfl, hname, hfront⟩ := h.split hi
      have hapart := h.consistent.apart
      rw [map_append, map_cons, pairwise_append, pairwise_cons] at hapart
      have hkept : Kept s.notes r o := h.consistent.kept (r, o) (by simp)
      have hshort : stored 64 name = name := by
        rw [← hname, hkept.name]
        exact stored_stored 64 o.name
      refine ⟨front ++ (d.rule (stored 64 name) r.createdBy, ⟨s.notes.length, name⟩) :: back,
        ?_, ?_, Consistent.add (h.consistent.sublist (by simp)) hpos hfront (fun e he hlen => ?_)
          ⟨rfl, hresponse, honce, hcooldown⟩⟩
      · rw [h.rules]
        simpa using modify_middle Prod.fst front back (r, o) _
      · simp [h.origins]
      · rw [hshort, ← hname]
        exact (hapart.2.1.1 _ (mem_map_of_mem he)).2 hlen

theorem Recorded.Sound.step (h : s.Sound table) {op : Op}
    (hop : ∀ data ts, op = .feed data ts → 0 < ts) :
    ∃ table', (s.step regex op).Sound table' := by
  cases op with
  | linkUp => exact ⟨table, h.rules, h.origins, h.consistent⟩
  | add name pattern response once cooldownMs => exact h.add name pattern response once cooldownMs
  | setOwner name owner =>
    simp only [Recorded.step, Op.apply, autoresponderSetOwner]
    cases hi : s.ar.rules.findIdx? (·.name == name) with
    | none => exact ⟨table, h⟩
    | some i =>
      obtain ⟨front, r, o, back, rfl, rfl, -, -⟩ := h.split hi
      have hkept : Kept s.notes r o := h.consistent.kept (r, o) (by simp)
      refine ⟨front ++ ({ r with createdBy := stored 64 owner }, o) :: back, ?_, ?_,
        h.consistent.replace rfl ?_⟩
      · rw [h.rules]
        simpa using modify_middle Prod.fst front back (r, o) _
      · simpa using h.origins
      · exact ⟨hkept.added, hkept.name, hkept.positive, hkept.fires, hkept.latest⟩
  | remove name =>
    simp only [Recorded.step, Op.apply, autoresponderRemove]
    cases hi : s.ar.rules.findIdx? (·.name == name) with
    | none => exact ⟨table, h⟩
    | some i =>
      obtain ⟨front, r, o, back, rfl, rfl, -, -⟩ := h.split hi
      refine ⟨front ++ back, ?_, ?_, h.consistent.sublist (by simp)⟩
      · simp [h.rules, eraseIdx_append_of_length_le]
      · simp [h.origins, eraseIdx_append_of_length_le]
  | feed data ts =>
    simp only [Recorded.step, Op.apply, autoresponderFeed, Recorded.answers]
    split_ifs with hskip
    · exact ⟨table, by simpa using h.rules, h.origins, by simpa using h.consistent⟩
    · rw [h.table_eq, h.rules]
      refine ⟨_, ?_, ?_, Consistent.check regex _ _ (hop data ts rfl) arMaxFiredPerFeed []
        h.consistent⟩
      · rw [nil_append, map_fst_zip]
        simp [length_checkRules]
      · rw [nil_append, map_snd_zip, h.origins]
        simp [length_checkRules]

theorem responses_firedNotes (window : Bytes) (start : Nat) (ts : Rat) (room : Nat) :
    (firedNotes regex window start ts room table).map Note.response =
      (checkRules regex window start ts room (table.map Prod.fst)).2.map ArFired.response := by
  induction table generalizing room with
  | nil => cases room <;> rfl
  | cons e table ih =>
    cases room with
    | zero => rfl
    | succ room =>
      rw [map_cons, firedNotes, checkRules]
      dsimp only
      cases (checkRule regex window start ts e.1).2 with
      | none => exact ih (room + 1)
      | some f => exact congrArg (f.response :: ·) (ih room)

theorem sound_record (regex : Regex ρ) (ops : List Op)
    (hts : ∀ data ts, .feed data ts ∈ ops → 0 < ts) : ∃ table, (record regex ops).Sound table := by
  induction ops using List.reverseRecOn with
  | nil => exact ⟨[], rfl, rfl, fun e he => by (cases he), List.Pairwise.nil, .nil _⟩
  | append_singleton ops op ih =>
    obtain ⟨table, h⟩ := ih fun data ts hmem => hts data ts (mem_append_left _ hmem)
    rw [record, foldl_append]
    exact h.step fun data ts hop => hts data ts (by simp [hop])

/-- Whatever is added, removed and fed, with timestamps that are positive: the record is that of
the autoresponder, every feed's answers are on it, and every answer on it is lawful. -/
theorem autoresponder_rate_law (regex : Regex ρ) (ops : List Op)
    (hts : ∀ data ts, .feed data ts ∈ ops → 0 < ts) :
    let s := record regex ops
    s.ar = runOps regex ops ∧ EachAfter Lawful s.notes ∧
      ∀ data ts, (s.answers regex data ts).map Note.response =
        (autoresponderFeed regex s.ar data ts).1.map ArFired.response := by
  intro s
  obtain ⟨table, h⟩ := sound_record regex ops hts
  refine ⟨?_, h.consistent.lawful, fun data ts => ?_⟩
  · have hstep : ∀ (s : Recorded ρ) (op : Op), (s.step regex op).ar = op.apply regex s.ar := by
      intro s op
      cases op with
      | add name pattern response once cooldownMs =>
        simp only [Recorded.step]
        split <;> rfl
      | _ => rfl
    exact (foldl_hom Recorded.ar (fun s op => (hstep s op).symm)).symm
  · rw [Recorded.answers, autoresponderFeed]
    split_ifs
    · rfl
    · rw [h.table_eq, responses_firedNotes, ← h.rules]

theorem autoresponder_rate_law_again :
    let ops : List Op := [.add (ascii "a") (ascii "x") (ascii "1") true 0,
      .add (ascii "b") (ascii "x") (ascii "2") false 2000, .feed (ascii "x") 5, .feed (ascii "x") 6,
      .add (ascii "a") (ascii "x") (ascii "3") true 0, .feed (ascii "x") 7]
    (record wordRegex ops).notes =
      [.added (ascii "a") (ascii "1") true 1, .added (ascii "b") (ascii "2") false 2,
        .fired 0 5 (ascii "1"), .fired 1 5 (ascii "2"), .added (ascii "a") (ascii "3") true 1,
        .fired 4 7 (ascii "3"), .fired 1 7 (ascii "2")] ∧
      EachAfter Lawful (record wordRegex ops).notes := by
  intro ops
  refine ⟨by decide +kernel, (autoresponder_rate_law wordRegex ops fun data ts hmem => ?_).2.1⟩
  simp only [ops, mem_cons, not_mem_nil, or_false, reduceCtorEq, false_or,
    Op.feed.injEq] at hmem
  rcases hmem with h | h | h <;> rw [h.2] <;> decide

end Smolmux.Autoresponder
