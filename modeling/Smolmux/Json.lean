import Mathlib.Algebra.Order.Ring.Rat
import Smolmux.Bytes

/-! JSON values as the code sees them through its JSON library, and the field
getters of `json_helpers.c`. A number is the exact value of its double. Strings
are byte strings without the final NUL; keys are the code's own words. -/

namespace Smolmux

inductive Json where
  | null
  | bool (b : Bool)
  | num (q : Rat)
  | str (s : Bytes)
  | arr (items : List Json)
  | obj (fields : List (String × Json))

namespace Json

def item : Json → String → Option Json
  | obj fields, key => (fields.find? fun f => f.1 == key).map Prod.snd
  | _, _ => none

def getString (j : Json) (key : String) : Option Bytes :=
  match j.item key with
  | some (str s) => some s
  | _ => none

def getNumber (j : Json) (key : String) : Option Rat :=
  match j.item key with
  | some (num q) => some q
  | _ => none

def getArray (j : Json) (key : String) : Option (List Json) :=
  match j.item key with
  | some (arr items) => some items
  | _ => none

/-- The library's `valueint`: a double cut towards zero and clamped to `int`. -/
def valueInt (q : Rat) : Int :=
  if 2 ^ 31 - 1 ≤ q then 2 ^ 31 - 1
  else if q ≤ -(2 ^ 31) then -(2 ^ 31)
  else q.num.tdiv q.den

def getInt (j : Json) (key : String) (dflt : Int) : Int :=
  (j.getNumber key).elim dflt valueInt

def getDouble (j : Json) (key : String) (dflt : Rat) : Rat :=
  (j.getNumber key).getD dflt

def getBool (j : Json) (key : String) (dflt : Bool) : Bool :=
  match j.item key with
  | some (bool b) => b
  | _ => dflt

def add (j : Json) (key : String) (v : Json) : Json :=
  match j with
  | obj fields => obj (fields ++ [(key, v)])
  | j => j

/-- `cJSON_AddStringToObject`, which adds nothing for a null pointer. -/
def addString (j : Json) (key : String) (s : Option Bytes) : Json :=
  match s with
  | some s => j.add key (str s)
  | none => j

@[simp] theorem item_obj_nil (key : String) : (obj []).item key = none := rfl

@[simp] theorem item_obj_cons (k : String) (v : Json) (fields : List (String × Json))
    (key : String) :
    (obj ((k, v) :: fields)).item key = if k = key then some v else (obj fields).item key := by
  by_cases h : k = key <;> simp [item, h]

theorem getString_add {j : Json} {key : String} {s : Bytes} (h : j.getString key = some s)
    (key' : String) (v : Json) : (j.add key' v).getString key = some s := by
  cases j with
  | obj fields =>
    have hitem : ∃ f, fields.find? (fun f => f.1 == key) = some f := by
      cases hfind : fields.find? (fun f => f.1 == key) with
      | some f => exact ⟨f, rfl⟩
      | none => simp [getString, item, hfind] at h
    obtain ⟨f, hfind⟩ := hitem
    simpa [getString, item, add, List.find?_append, hfind] using h
  | _ => exact h

theorem getString_ite {c : Prop} [Decidable c] {p q : Json} {key : String} {s : Bytes}
    (hp : p.getString key = some s) (hq : q.getString key = some s) :
    (if c then p else q).getString key = some s := by
  split
  · exact hp
  · exact hq

@[simp] theorem add_obj (fields : List (String × Json)) (key : String) (v : Json) :
    (obj fields).add key v = obj (fields ++ [(key, v)]) := rfl

end Json

end Smolmux
