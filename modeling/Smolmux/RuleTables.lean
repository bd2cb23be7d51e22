import Smolmux.Anomaly
import Smolmux.Autoresponder
import Smolmux.Keyed
import Smolmux.Window

/-! The tables of the autoresponder and of the anomaly detector as maps from names to
definitions. An entry keeps at most 63 bytes of its name and is found by the name as it is
given, so the tables are maps for names that fit. -/

namespace Smolmux

namespace Autoresponder

variable {ρ : Type}

structure ArDefinition (ρ : Type) where
  pattern : Bytes
  compiled : ρ
  response : Bytes
  once : Bool
  enabled : Bool
  cooldownS : Rat
  lastFireTime : Rat

def ArRule.definition (r : ArRule ρ) : ArDefinition ρ :=
  ⟨r.pattern, r.compiled, r.response, r.once, r.enabled, r.cooldownS, r.lastFireTime⟩

def ArDefinition.rule (d : ArDefinition ρ) (name createdBy : Bytes) : ArRule ρ :=
  ⟨name, d.pattern, d.compiled, d.response, d.once, d.enabled, d.cooldownS, d.lastFireTime,
    createdBy⟩

def requested (regex : Regex ρ) (name pattern response : Bytes) (once : Bool)
    (cooldownMs : Int) : Option (ArDefinition ρ) :=
  if (name = [] ∨ pattern = []) ∨ arResponseMax < response.length then none
  else
    (regex.compile pattern).map fun compiled =>
      let cooldown : Int := if 0 < cooldownMs then cooldownMs else arDefaultCooldownMs
      ⟨stored 256 pattern, compiled, response, once, true, cooldown / 1000, 0⟩

inductive TableOp where
  | add (name pattern response : Bytes) (once : Bool) (cooldownMs : Int)
  | remove (name : Bytes)

namespace TableOp

def name : TableOp → Bytes
  | add name _ _ _ _ => name
  | remove name => name

def apply (regex : Regex ρ) (ar : Autoresponder ρ) : TableOp → Autoresponder ρ × Bool
  | add name pattern response once cooldownMs =>
    autoresponderAdd regex ar name pattern response once cooldownMs
  | remove name => autoresponderRemove ar name

noncomputable def onMap (regex : Regex ρ) (m : Bytes → Option (ArDefinition ρ)) :
    TableOp → (Bytes → Option (ArDefinition ρ)) × Bool
  | add name pattern response once cooldownMs =>
    match requested regex name pattern response once cooldownMs with
    | none => (m, false)
    | some d => Keyed.define maxAutoresponders m name d
  | remove name => Keyed.delete m name

end TableOp

def Represents (ar : Autoresponder ρ) (m : Bytes → Option (ArDefinition ρ)) : Prop :=
  Keyed.Represents ArRule.name ArRule.definition ar.rules m

variable {regex : Regex ρ} {name pattern response : Bytes} {once : Bool} {cooldownMs : Int}

theorem autoresponderAdd_none {ar : Autoresponder ρ}
    (h : requested regex name pattern response once cooldownMs = none) :
    autoresponderAdd regex ar name pattern response once cooldownMs = (ar, false) := by
  unfold requested at h
  unfold autoresponderAdd
  by_cases hbad : (name = [] ∨ pattern = []) ∨ arResponseMax < response.length
  · rcases hbad with hempty | hlong
    · rw [if_pos hempty]
    · rw [if_pos hlong, ite_self]
  · rw [if_neg hbad] at h
    rw [not_or] at hbad
    rw [if_neg hbad.1, if_neg hbad.2, Option.map_eq_none_iff.mp h]

theorem requested_spec {d : ArDefinition ρ}
    (h : requested regex name pattern response once cooldownMs = some d) :
    d.response = response ∧ d.once = once ∧
      d.cooldownS = (if 0 < cooldownMs then cooldownMs else arDefaultCooldownMs : Int) / 1000 := by
  unfold requested at h
  by_cases hbad : (name = [] ∨ pattern = []) ∨ arResponseMax < response.length
  · rw [if_pos hbad] at h
    contradiction
  rw [if_neg hbad] at h
  obtain ⟨compiled, -, rfl⟩ := Option.map_eq_some_iff.mp h
  exact ⟨rfl, rfl, rfl⟩

theorem autoresponderAdd_some {ar : Autoresponder ρ} {d : ArDefinition ρ}
    (h : requested regex name pattern response once cooldownMs = some d) :
    let put := Keyed.put ArRule.name maxAutoresponders name
      (fun r => d.rule (stored 64 name) r.createdBy) (d.rule (stored 64 name) []) ar.rules
    autoresponderAdd regex ar name pattern response once cooldownMs =
      ({ ar with rules := put.1 }, put.2) := by
  unfold requested at h
  by_cases hbad : (name = [] ∨ pattern = []) ∨ arResponseMax < response.length
  · rw [if_pos hbad] at h
    contradiction
  rw [if_neg hbad] at h
  obtain ⟨compiled, hcompiled, rfl⟩ := Option.map_eq_some_iff.mp h
  rw [not_or] at hbad
  unfold autoresponderAdd Keyed.put
  rw [if_neg hbad.1, if_neg hbad.2, hcompiled]
  dsimp only
  cases ar.rules.findIdx? (·.name == name) with
  | some i => rfl
  | none =>
    dsimp only
    by_cases hfull : maxAutoresponders ≤ ar.rules.length
    · rw [if_pos hfull, if_pos hfull]
    · rw [if_neg hfull, if_neg hfull]
      rfl

theorem autoresponderRemove_eq (ar : Autoresponder ρ) (name : Bytes) :
    let drop := Keyed.drop ArRule.name name ar.rules
    autoresponderRemove ar name = ({ ar with rules := drop.1 }, drop.2) := by
  unfold autoresponderRemove Keyed.drop
  cases ar.rules.findIdx? (·.name == name) <;> rfl

theorem TableOp.apply_represents (regex : Regex ρ) (op : TableOp) (hname : op.name.length < 64)
    (ar : Autoresponder ρ) (m : Bytes → Option (ArDefinition ρ)) (h : Represents ar m) :
    Represents (op.apply regex ar).1 (op.onMap regex m).1 ∧
      (op.apply regex ar).2 = (op.onMap regex m).2 := by
  cases op with
  | add name pattern response once cooldownMs =>
    have hkept : stored 64 name = name := stored_fits hname
    unfold apply onMap
    dsimp only
    cases hd : requested regex name pattern response once cooldownMs with
    | none =>
      rw [autoresponderAdd_none hd]
      exact ⟨h, rfl⟩
    | some d =>
      rw [autoresponderAdd_some hd, hkept]
      exact Keyed.Represents.put h ⟨rfl, rfl⟩ fun _ _ => ⟨rfl, rfl⟩
  | remove name =>
    unfold apply onMap
    dsimp only
    rw [autoresponderRemove_eq]
    exact Keyed.Represents.drop h

theorem autoresponderAdd_refused (regex : Regex ρ) (ar : Autoresponder ρ)
    (name pattern response : Bytes) (once : Bool) (cooldownMs : Int)
    (h : (autoresponderAdd regex ar name pattern response once cooldownMs).2 = false) :
    (autoresponderAdd regex ar name pattern response once cooldownMs).1 = ar := by
  cases hd : requested regex name pattern response once cooldownMs with
  | none => rw [autoresponderAdd_none hd]
  | some d =>
    rw [autoresponderAdd_some hd] at h ⊢
    rw [Keyed.put_refused h]

end Autoresponder

namespace Anomaly

variable {ρ : Type}

structure AnomalyDefinition (ρ : Type) where
  severity : Bytes
  literal : Bytes
  compiled : ρ
  lastFireTime : Rat

def AnomalyPattern.definition (p : AnomalyPattern ρ) : AnomalyDefinition ρ :=
  ⟨p.severity, p.literal, p.compiled, p.lastFireTime⟩

def AnomalyDefinition.pattern (d : AnomalyDefinition ρ) (name : Bytes) : AnomalyPattern ρ :=
  ⟨name, d.severity, d.literal, d.compiled, d.lastFireTime⟩

structure TableOp where
  name : Bytes
  pattern : Bytes
  severity : Bytes

namespace TableOp

def requested (regex : Regex ρ) (op : TableOp) : Option (AnomalyDefinition ρ) :=
  if op.name = [] then none
  else
    (regex.compile op.pattern).map fun compiled =>
      ⟨stored 16 op.severity, extractLiteralPrefix op.pattern 48, compiled, 0⟩

def apply (regex : Regex ρ) (det : AnomalyDetector ρ) (op : TableOp) : AnomalyDetector ρ × Bool :=
  anomalyAddPattern regex det op.name op.pattern op.severity

noncomputable def onMap (regex : Regex ρ) (m : Bytes → Option (AnomalyDefinition ρ))
    (op : TableOp) : (Bytes → Option (AnomalyDefinition ρ)) × Bool :=
  match op.requested regex with
  | none => (m, false)
  | some d => Keyed.define maxAnomalyPatterns m op.name d

end TableOp

def Represents (det : AnomalyDetector ρ) (m : Bytes → Option (AnomalyDefinition ρ)) : Prop :=
  Keyed.Represents AnomalyPattern.name AnomalyPattern.definition det.patterns m

theorem apply_none {regex : Regex ρ} {det : AnomalyDetector ρ} {op : TableOp}
    (h : op.requested regex = none) : op.apply regex det = (det, false) := by
  unfold TableOp.requested at h
  unfold TableOp.apply anomalyAddPattern
  split_ifs at h with hempty
  · rw [if_pos hempty]
  · rw [if_neg hempty, Option.map_eq_none_iff.mp h]

theorem apply_some {regex : Regex ρ} {det : AnomalyDetector ρ} {op : TableOp}
    {d : AnomalyDefinition ρ} (h : op.requested regex = some d) :
    let put := Keyed.put AnomalyPattern.name maxAnomalyPatterns op.name
      (fun p => d.pattern p.name) (d.pattern (stored 64 op.name)) det.patterns
    op.apply regex det = ({ det with patterns := put.1 }, put.2) := by
  unfold TableOp.requested at h
  split_ifs at h with hempty
  obtain ⟨compiled, hcompiled, rfl⟩ := Option.map_eq_some_iff.mp h
  unfold TableOp.apply anomalyAddPattern Keyed.put
  rw [if_neg hempty, hcompiled]
  dsimp only
  cases det.patterns.findIdx? (·.name == op.name) with
  | some i => rfl
  | none =>
    dsimp only
    split_ifs <;> rfl

theorem TableOp.apply_represents (regex : Regex ρ) (op : TableOp) (hname : op.name.length < 64)
    (det : AnomalyDetector ρ) (m : Bytes → Option (AnomalyDefinition ρ))
    (h : Represents det m) :
    Represents (op.apply regex det).1 (op.onMap regex m).1 ∧
      (op.apply regex det).2 = (op.onMap regex m).2 := by
  unfold onMap
  cases hd : op.requested regex with
  | none =>
    rw [apply_none hd]
    exact ⟨h, rfl⟩
  | some d =>
    rw [apply_some hd, stored_fits hname]
    exact Keyed.Represents.put h ⟨rfl, rfl⟩ fun _ hp => ⟨hp, rfl⟩

theorem apply_refused (regex : Regex ρ) (det : AnomalyDetector ρ) (op : TableOp)
    (h : (op.apply regex det).2 = false) : (op.apply regex det).1 = det := by
  cases hd : op.requested regex with
  | none => rw [apply_none hd]
  | some d =>
    rw [apply_some hd] at h ⊢
    rw [Keyed.put_refused h]

end Anomaly

/-- With names of less than 64 bytes each table is the map of the definitions asked for: all
operations are answered as by the map, at the end the table has one entry for each name of
the map with the definition the map has. A definition that is not taken, of whatever name,
changes nothing. -/
theorem rule_tables_are_maps {ρ : Type} (regex : Regex ρ) :
    (∀ (ops : List Autoresponder.TableOp) (ar : Autoresponder ρ)
        (m : Bytes → Option (Autoresponder.ArDefinition ρ)),
      (∀ op ∈ ops, op.name.length < 64) → Autoresponder.Represents ar m →
        let table := Keyed.run (Autoresponder.TableOp.apply regex) ar ops
        let map := Keyed.run (Autoresponder.TableOp.onMap regex) m ops
        Autoresponder.Represents table.1 map.1 ∧ table.2 = map.2) ∧
    (∀ (ops : List Anomaly.TableOp) (det : Anomaly.AnomalyDetector ρ)
        (m : Bytes → Option (Anomaly.AnomalyDefinition ρ)),
      (∀ op ∈ ops, op.name.length < 64) → Anomaly.Represents det m →
        let table := Keyed.run (Anomaly.TableOp.apply regex) det ops
        let map := Keyed.run (Anomaly.TableOp.onMap regex) m ops
        Anomaly.Represents table.1 map.1 ∧ table.2 = map.2) ∧
    (∀ (ar : Autoresponder ρ) (name pattern response : Bytes) (once : Bool)
        (cooldownMs : Int),
      let added := Autoresponder.autoresponderAdd regex ar name pattern response once cooldownMs
      added.2 = false → added.1 = ar) ∧
    ∀ (det : Anomaly.AnomalyDetector ρ) (op : Anomaly.TableOp),
      (op.apply regex det).2 = false → (op.apply regex det).1 = det := by
  refine ⟨fun ops ar m hnames h => ?_, fun ops det m hnames h => ?_,
    Autoresponder.autoresponderAdd_refused regex, Anomaly.apply_refused regex⟩
  · exact Keyed.run_simulates
      (fun op hop ar m h => op.apply_represents regex (hnames op hop) ar m h) h
  · exact Keyed.run_simulates
      (fun op hop det m h => op.apply_represents regex (hnames op hop) det m h) h

theorem rule_tables_are_maps_two_names :
    let ops : List Autoresponder.TableOp :=
      [.add (ascii "login") (ascii "login:") (ascii "root") false 0,
        .add (ascii "prompt") (ascii "$") (ascii "ls") false 0, .remove (ascii "login")]
    let table := Keyed.run (Autoresponder.TableOp.apply wordRegex)
      Autoresponder.autoresponderInit ops
    let map := Keyed.run (Autoresponder.TableOp.onMap wordRegex) (fun _ => none) ops
    (Autoresponder.Represents table.1 map.1 ∧ table.2 = map.2) ∧
      table.1.rules.map (·.name) = [ascii "prompt"] := by
  refine ⟨(rule_tables_are_maps wordRegex).1 _ _ _ ?_ (Keyed.Represents.nil _ _),
    by decide +kernel⟩
  iterate 3 refine List.forall_mem_cons.mpr ⟨by decide +kernel, ?_⟩
  exact List.forall_mem_nil _

/-- A name of 64 bytes is kept as 63 bytes and never found again: added twice it has two
entries, it cannot be removed, and what is added next under those 63 bytes replaces it. -/
theorem long_name_added_twice :
    let name : Bytes := List.replicate 64 97
    let short : Bytes := List.replicate 63 97
    let rules := Keyed.run (Autoresponder.TableOp.apply wordRegex) Autoresponder.autoresponderInit
    let patterns := Keyed.run (Anomaly.TableOp.apply wordRegex) Anomaly.anomalyInit
    let twice := rules [.add name (ascii "x") (ascii "1") false 0,
      .add name (ascii "y") (ascii "2") false 0, .remove name]
    let other := rules [.add name (ascii "x") (ascii "1") false 0,
      .add short (ascii "y") (ascii "2") false 0]
    let twicePatterns := patterns [⟨name, ascii "x", ascii "warning"⟩,
      ⟨name, ascii "y", ascii "critical"⟩]
    let otherPattern := patterns [⟨name, ascii "x", ascii "warning"⟩,
      ⟨short, ascii "y", ascii "critical"⟩]
    (twice.2 = [true, true, false] ∧ twice.1.rules.map (·.name) = [short, short]) ∧
      other.1.rules.map (fun r => (r.name, r.response)) = [(short, ascii "2")] ∧
      (twicePatterns.2 = [true, true] ∧
        twicePatterns.1.patterns.map (·.name) = [short, short]) ∧
      otherPattern.1.patterns.map (fun p => (p.name, p.severity)) =
        [(short, ascii "critical")] := by
  decide +kernel

end Smolmux
