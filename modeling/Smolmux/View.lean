import Smolmux.Proc

/-! Procedures seen through a view: a part of the state and an account that only
grows. What a procedure makes of its view is said with a postcondition on its
result, on what it adds to the account and on the part it leaves; the rules follow
the shape of the procedure. -/

namespace Smolmux

variable {ε σ α β γ τ : Type}

/-- The procedure adds to the account `g` and leaves the part `f` so that the
postcondition holds. -/
def Tells (f : σ → γ) (g : σ → List τ) (e : ε) (p : Proc ε σ α) (R : α → List τ → γ → Prop)
    (s : σ) : Prop :=
  ∃ ts, g (p e s).2 = g s ++ ts ∧ R (p e s).1 ts (f (p e s).2)

def TellsAt (f : σ → γ) (g : σ → List τ) (e : ε) (p : Proc ε σ α) (R : α → List τ → γ → Prop)
    (c : γ) : Prop :=
  ∀ s, f s = c → Tells f g e p R s

section Rules

variable {f : σ → γ} {g : σ → List τ} {e : ε} {p : Proc ε σ α} {R R' : α → List τ → γ → Prop} {c : γ}

theorem tells_read {k : σ → Proc ε σ α} {s : σ} (h : TellsAt f g e (k s) R (f s)) :
    Tells f g e (Proc.get >>= k) R s := h s rfl

theorem TellsAt.mono (h : TellsAt f g e p R c) (hR : ∀ a ts d, R a ts d → R' a ts d) :
    TellsAt f g e p R' c := by
  intro s hs
  obtain ⟨ts, htold, hpost⟩ := h s hs
  exact ⟨ts, htold, hR _ _ _ hpost⟩

theorem tells_pure {a : α} (h : R a [] c) : TellsAt f g e (pure a : Proc ε σ α) R c := by
  rintro s rfl
  exact ⟨[], (List.append_nil _).symm, h⟩

theorem tells_unchanged (hp : (Frame.unchanged fun s => (f s, g s)).KeepsAt e p)
    (h : ∀ a, R a [] c) : TellsAt f g e p R c := by
  rintro s rfl
  have hrel := Prod.mk.inj (hp.rel s)
  refine ⟨[], by rw [hrel.2, List.append_nil], ?_⟩
  rw [hrel.1]
  exact h _

theorem tells_bind {k : α → Proc ε σ β} {Q : β → List τ → γ → Prop}
    (h : TellsAt f g e p (fun a ts d => TellsAt f g e (k a) (fun b us => Q b (ts ++ us)) d) c) :
    TellsAt f g e (p >>= k) Q c := by
  intro s hs
  obtain ⟨ts, htold, hnext⟩ := h s hs
  obtain ⟨us, htold', hpost⟩ := hnext _ rfl
  exact ⟨ts ++ us, by rw [Proc.bind_apply, htold', htold, List.append_assoc], hpost⟩

theorem tells_get {k : σ → Proc ε σ α} (h : ∀ s, f s = c → TellsAt f g e (k s) R c) :
    TellsAt f g e (Proc.get >>= k) R c := fun s hs => h s hs s hs

theorem tells_env {k : ε → Proc ε σ α} (h : TellsAt f g e (k e) R c) :
    TellsAt f g e (Proc.env >>= k) R c := h

theorem tells_ite {b : Prop} [Decidable b] {q : Proc ε σ α} (hp : b → TellsAt f g e p R c)
    (hq : ¬b → TellsAt f g e q R c) : TellsAt f g e (if b then p else q) R c := by
  split
  case isTrue h => exact hp h
  case isFalse h => exact hq h

theorem tells_when {b : Prop} [Decidable b] {p : Proc ε σ Unit} {R : Unit → List τ → γ → Prop}
    (hp : b → TellsAt f g e p R c) (hq : ¬b → R () [] c) :
    TellsAt f g e (Proc.when b p) R c := tells_ite hp fun h => tells_pure (hq h)

end Rules

end Smolmux
