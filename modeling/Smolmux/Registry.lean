import Mathlib.Data.Set.Insert

/-! A registry of members who sit at places, of whom one that is eligible may hold
the floor. Some members cannot be in together; who enters makes the others leave.
A registry carries the proofs that it is in order, so every operation shows that it
keeps it so. -/

namespace Smolmux

variable {ι M : Type*}

/-- Where members sit, who may hold the floor, and who clashes with whom. -/
structure Rules (ι M : Type*) where
  seat : M → ι
  eligible : M → Prop
  clash : M → M → Prop
  clash_symm : ∀ {m m'}, clash m m' → clash m' m

structure Registry (R : Rules ι M) where
  members : Set M
  holder : Option ι
  seat_inj : ∀ m ∈ members, ∀ m' ∈ members, R.seat m = R.seat m' → m = m'
  holder_eligible : ∀ i, holder = some i → ∃ m ∈ members, R.seat m = i ∧ R.eligible m
  apart : ∀ m ∈ members, ∀ m' ∈ members, R.clash m m' → m = m'

namespace Registry

open Classical

variable {R : Rules ι M}

def empty : Registry R where
  members := ∅
  holder := none
  seat_inj := by simp
  holder_eligible := by simp
  apart := by simp

def staying (r : Registry R) (m : M) : Set M :=
  {x ∈ r.members | R.seat x ≠ R.seat m ∧ ¬R.clash x m}

/-- A member takes its place; a holder that does not stay loses the floor. -/
noncomputable def enter (r : Registry R) (m : M) : Registry R where
  members := insert m (r.staying m)
  holder := if ∃ x ∈ r.staying m, r.holder = some (R.seat x) then r.holder else none
  seat_inj := by
    rintro x (rfl | hx) y (rfl | hy) h
    · rfl
    · exact absurd h.symm hy.2.1
    · exact absurd h hx.2.1
    · exact r.seat_inj x hx.1 y hy.1 h
  holder_eligible := by
    intro i hi
    split_ifs at hi with hstay
    obtain ⟨x, hx, hseat⟩ := hstay
    obtain ⟨y, hy, hyseat, heligible⟩ := r.holder_eligible i hi
    have hxi : R.seat x = i := Option.some.inj (hseat.symm.trans hi)
    have hxy : x = y := r.seat_inj x hx.1 y hy (hxi.trans hyseat.symm)
    exact ⟨x, .inr hx, hxi, hxy ▸ heligible⟩
  apart := by
    rintro x (rfl | hx) y (rfl | hy) h
    · rfl
    · exact absurd (R.clash_symm h) hy.2.2
    · exact absurd h hx.2.2
    · exact r.apart x hx.1 y hy.1 h

noncomputable def leave (r : Registry R) (i : ι) : Registry R where
  members := {x ∈ r.members | R.seat x ≠ i}
  holder := if r.holder = some i then none else r.holder
  seat_inj x hx y hy h := r.seat_inj x hx.1 y hy.1 h
  holder_eligible := by
    intro j hj
    split_ifs at hj with h
    obtain ⟨x, hx, rfl, heligible⟩ := r.holder_eligible j hj
    exact ⟨x, ⟨hx, fun hi => h (hi ▸ hj)⟩, rfl, heligible⟩
  apart x hx y hy h := r.apart x hx.1 y hy.1 h

def take (r : Registry R) (m : M) (hm : m ∈ r.members) (h : R.eligible m) : Registry R where
  members := r.members
  holder := some (R.seat m)
  seat_inj := r.seat_inj
  holder_eligible := by
    rintro i ⟨⟩
    exact ⟨m, hm, rfl, h⟩
  apart := r.apart

def release (r : Registry R) : Registry R where
  members := r.members
  holder := none
  seat_inj := r.seat_inj
  holder_eligible := by simp
  apart := r.apart

/-- What may happen to a registry. The floor is taken only when it is free or by
who has it. -/
inductive Step : Registry R → Registry R → Prop
  | stay (r : Registry R) : Step r r
  | enter (r : Registry R) (m : M) : Step r (r.enter m)
  | leave (r : Registry R) (i : ι) : Step r (r.leave i)
  | take (r : Registry R) (m : M) (hm : m ∈ r.members) (h : R.eligible m)
      (hfree : r.holder = none ∨ r.holder = some (R.seat m)) : Step r (r.take m hm h)
  | release (r : Registry R) : Step r r.release

variable {m : M} (r : Registry R)

theorem holder_enter_of_staying {x : M} (hx : x ∈ r.staying m) (h : r.holder = some (R.seat x)) : (r.enter m).holder = r.holder :=
  if_pos ⟨x, hx, h⟩

theorem holder_enter_of_leaving (h : ∀ x ∈ r.staying m, r.holder ≠ some (R.seat x)) : (r.enter m).holder = none :=
  if_neg fun ⟨x, hx, hholder⟩ => h x hx hholder

theorem holder_enter (hclash : ∀ x ∈ r.members, ¬R.clash x m) (hseat : r.holder ≠ some (R.seat m)) : (r.enter m).holder = r.holder := by
  cases hholder : r.holder with
  | none => exact r.holder_enter_of_leaving fun x _ => by simp [hholder]
  | some i =>
    obtain ⟨x, hx, rfl, -⟩ := r.holder_eligible i hholder
    have hne : R.seat x ≠ R.seat m := fun heq => hseat (heq ▸ hholder)
    exact (r.holder_enter_of_staying ⟨hx, hne, hclash x hx⟩ hholder).trans hholder

theorem holder_leave_self {i : ι} (h : r.holder = some i) :
    (r.leave i).holder = none := if_pos h

theorem holder_leave_ne {i : ι} (h : r.holder ≠ some i) :
    (r.leave i).holder = r.holder := if_neg h

end Registry

end Smolmux
