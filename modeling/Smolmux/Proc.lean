import Mathlib.Logic.Relation

/-! Procedures over a shared state. A procedure reads an environment, changes the
state and returns a value. What procedures may do to the state is said with
frames: reflexive and transitive relations between the state before and the
state after, so that a sequence of calls is in a frame when each call is. -/

namespace Smolmux

def Proc (ε σ α : Type) : Type := ε → σ → α × σ

/-- A relation between states that sequences of steps stay in. -/
structure Frame (σ : Type) where
  rel : σ → σ → Prop
  refl : ∀ s, rel s s
  trans : ∀ {s t u}, rel s t → rel t u → rel s u

namespace Proc

variable {ε σ α β : Type}

instance : Monad (Proc ε σ) where
  pure a := fun _ s => (a, s)
  bind p f := fun e s => f (p e s).1 e (p e s).2

def env : Proc ε σ ε := fun e s => (e, s)

def get : Proc ε σ σ := fun _ s => (s, s)

def modify (f : σ → σ) : Proc ε σ Unit := fun _ s => ((), f s)

def when (c : Prop) [Decidable c] (p : Proc ε σ Unit) : Proc ε σ Unit := if c then p else pure ()

def each (f : α → Proc ε σ Unit) : List α → Proc ε σ Unit
  | [] => pure ()
  | x :: xs => do
    f x
    each f xs

@[simp] theorem pure_apply (a : α) (e : ε) (s : σ) : (pure a : Proc ε σ α) e s = (a, s) := rfl

@[simp] theorem bind_apply (p : Proc ε σ α) (f : α → Proc ε σ β) (e : ε) (s : σ) :
    (p >>= f) e s = f (p e s).1 e (p e s).2 := rfl

@[simp] theorem env_apply (e : ε) (s : σ) : (env : Proc ε σ ε) e s = (e, s) := rfl

@[simp] theorem get_apply (e : ε) (s : σ) : (get : Proc ε σ σ) e s = (s, s) := rfl

@[simp] theorem modify_apply (f : σ → σ) (e : ε) (s : σ) :
    (modify f : Proc ε σ Unit) e s = ((), f s) := rfl

@[simp] theorem ite_apply (c : Prop) [Decidable c] (p q : Proc ε σ α) (e : ε) (s : σ) :
    (if c then p else q) e s = if c then p e s else q e s := by
  split <;> rfl

@[simp] theorem each_cons (f : α → Proc ε σ Unit) (x : α) (xs : List α) (e : ε) (s : σ) :
    each f (x :: xs) e s = each f xs e (f x e s).2 := rfl

end Proc

namespace Frame

variable {ε σ α β γ : Type}

/-- Every run of `p` stays in the frame. -/
structure Keeps (F : Frame σ) (p : Proc ε σ α) : Prop where
  rel : ∀ e s, F.rel s (p e s).2

structure KeepsAt (F : Frame σ) (e : ε) (p : Proc ε σ α) : Prop where
  rel : ∀ s, F.rel s (p e s).2

def ofInvariant (I : σ → Prop) : Frame σ where
  rel s t := I s → I t
  refl _ h := h
  trans h₁ h₂ h := h₂ (h₁ h)

def unchanged (f : σ → γ) : Frame σ where
  rel s t := f t = f s
  refl _ := rfl
  trans h₁ h₂ := h₂.trans h₁

def inter (F G : Frame σ) : Frame σ where
  rel s t := F.rel s t ∧ G.rel s t
  refl s := ⟨F.refl s, G.refl s⟩
  trans h₁ h₂ := ⟨F.trans h₁.1 h₂.1, G.trans h₁.2 h₂.2⟩

/-- Sequences of atomic steps. -/
def closure (atom : σ → σ → Prop) : Frame σ where
  rel := Relation.ReflTransGen atom
  refl _ := .refl
  trans := .trans

variable {s t : σ}

theorem closure_atom {atom : σ → σ → Prop} (h : atom s t) : (closure atom).rel s t :=
  .single h

theorem closure_le {atom : σ → σ → Prop} (F : Frame σ) (h : ∀ s t, atom s t → F.rel s t)
    (hst : (closure atom).rel s t) : F.rel s t := by
  induction hst with
  | refl => exact F.refl s
  | tail _ hatom ih => exact F.trans ih (h _ _ hatom)

variable {F G : Frame σ}

variable {p : Proc ε σ α}

theorem Keeps.mono (hp : F.Keeps p) (h : ∀ s t, F.rel s t → G.rel s t) :
    G.Keeps p := ⟨fun e s => h _ _ (hp.rel e s)⟩

theorem Keeps.left (hp : (F.inter G).Keeps p) : F.Keeps p :=
  hp.mono fun _ _ h => h.1

theorem Keeps.right (hp : (F.inter G).Keeps p) : G.Keeps p :=
  hp.mono fun _ _ h => h.2

theorem keeps_inter (hF : F.Keeps p) (hG : G.Keeps p) : (F.inter G).Keeps p :=
  ⟨fun e s => ⟨hF.rel e s, hG.rel e s⟩⟩

theorem Keeps.at (hp : F.Keeps p) (e : ε) : F.KeepsAt e p := ⟨hp.rel e⟩

theorem keeps_of_at (hp : ∀ e, F.KeepsAt e p) : F.Keeps p :=
  ⟨fun e => (hp e).rel⟩

theorem KeepsAt.mono {e : ε} (hp : F.KeepsAt e p) (h : ∀ s t, F.rel s t → G.rel s t) : G.KeepsAt e p := ⟨fun s => h _ _ (hp.rel s)⟩

variable {f : α → Proc ε σ β} {q : Proc ε σ α}

section OneWorld

variable {e : ε}

theorem keepsAt_pure (a : α) : F.KeepsAt e (pure a : Proc ε σ α) := ⟨F.refl⟩

theorem keepsAt_bind (hp : F.KeepsAt e p) (hf : ∀ a, F.KeepsAt e (f a)) : F.KeepsAt e (p >>= f) :=
  ⟨fun s => F.trans (hp.rel s) ((hf _).rel _)⟩

theorem keepsAt_env {f : ε → Proc ε σ β} (hf : F.KeepsAt e (f e)) :
    F.KeepsAt e (Proc.env >>= f) := ⟨hf.rel⟩

theorem keepsAt_get {f : σ → Proc ε σ β} (hf : ∀ s, F.KeepsAt e (f s)) :
    F.KeepsAt e (Proc.get >>= f) := ⟨fun s => (hf s).rel s⟩

theorem keepsAt_ite {c : Prop} [Decidable c] (hp : c → F.KeepsAt e p) (hq : ¬c → F.KeepsAt e q) : F.KeepsAt e (if c then p else q) := by
  split
  case isTrue h => exact hp h
  case isFalse h => exact hq h

theorem keepsAt_if {c : Prop} [Decidable c] {a : α} (hp : c → F.KeepsAt e p) :
    F.KeepsAt e (if c then p else pure a) := keepsAt_ite hp fun _ => keepsAt_pure a

theorem keepsAt_unless {c : Prop} [Decidable c] {a : α} (hp : ¬c → F.KeepsAt e p) :
    F.KeepsAt e (if c then pure a else p) := keepsAt_ite (fun _ => keepsAt_pure a) hp

theorem keepsAt_when {c : Prop} [Decidable c] {p : Proc ε σ Unit} (hp : c → F.KeepsAt e p) :
    F.KeepsAt e (Proc.when c p) := keepsAt_if hp

theorem KeepsAt.yields {g : α → β} (hp : F.KeepsAt e p) : F.KeepsAt e (p >>= fun a => pure (g a)) :=
  keepsAt_bind hp fun _ => keepsAt_pure _

theorem keepsAt_each {f : α → Proc ε σ Unit} (xs : List α) (h : ∀ x ∈ xs, F.KeepsAt e (f x)) :
    F.KeepsAt e (Proc.each f xs) := by
  induction xs with
  | nil => exact keepsAt_pure ()
  | cons x xs ih =>
    refine keepsAt_bind (h x List.mem_cons_self) fun _ => ?_
    exact ih fun y hy => h y (List.mem_cons_of_mem x hy)

end OneWorld

theorem keeps_pure (a : α) : F.Keeps (pure a : Proc ε σ α) := ⟨fun _ s => F.refl s⟩

theorem keeps_get {f : σ → Proc ε σ β} (hf : ∀ s, F.Keeps (f s)) : F.Keeps (Proc.get >>= f) :=
  ⟨fun e s => (hf s).rel e s⟩

theorem keeps_env {f : ε → Proc ε σ β} (hf : ∀ e, F.Keeps (f e)) : F.Keeps (Proc.env >>= f) :=
  ⟨fun e => (hf e).rel e⟩

theorem keeps_bind (hp : F.Keeps p) (hf : ∀ a, F.Keeps (f a)) : F.Keeps (p >>= f) :=
  keeps_of_at fun e => keepsAt_bind (hp.at e) fun a => (hf a).at e

theorem keeps_ite {c : Prop} [Decidable c] (hp : c → F.Keeps p) (hq : ¬c → F.Keeps q) : F.Keeps (if c then p else q) :=
  keeps_of_at fun e => keepsAt_ite (fun h => (hp h).at e) fun h => (hq h).at e

theorem keeps_if {c : Prop} [Decidable c] {a : α} (hp : c → F.Keeps p) :
    F.Keeps (if c then p else pure a) := keeps_ite hp fun _ => keeps_pure a

theorem keeps_unless {c : Prop} [Decidable c] {a : α} (hp : ¬c → F.Keeps p) :
    F.Keeps (if c then pure a else p) := keeps_ite (fun _ => keeps_pure a) hp

theorem Keeps.yields {g : α → β} (hp : F.Keeps p) : F.Keeps (p >>= fun a => pure (g a)) :=
  keeps_bind hp fun _ => keeps_pure _

theorem ite_cases {Q : α × σ → Prop} {c : Prop} [Decidable c] {e : ε} (hp : c → Q (p e s))
    (hq : ¬c → Q (q e s)) : Q ((if c then p else q) e s) := by
  split
  case isTrue h => exact hp h
  case isFalse h => exact hq h

theorem rel_ite {c : Prop} [Decidable c] {e : ε} (hp : c → F.rel t (p e s).2)
    (hq : ¬c → F.rel t (q e s).2) :
    F.rel t ((if c then p else q) e s).2 := ite_cases (Q := fun r => F.rel t r.2) hp hq

/-- A sequence from a state that something is known of, with what the first part returns. -/
theorem rel_bind_of {e : ε} (hp : F.rel s (p e s).2)
    (hf : ∀ a, (p e s).1 = a → F.rel (p e s).2 (f a e (p e s).2).2) : F.rel s ((p >>= f) e s).2 :=
  F.trans hp (hf _ rfl)

theorem rel_bind {e : ε} (hp : F.rel s (p e s).2) (hf : ∀ a, F.rel (p e s).2 (f a e (p e s).2).2) : F.rel s ((p >>= f) e s).2 :=
  rel_bind_of hp fun a _ => hf a

theorem keeps_when {c : Prop} [Decidable c] {p : Proc ε σ Unit} (hp : c → F.Keeps p) :
    F.Keeps (Proc.when c p) := keeps_if hp

theorem keeps_each {f : α → Proc ε σ Unit} (xs : List α) (h : ∀ x ∈ xs, F.Keeps (f x)) :
    F.Keeps (Proc.each f xs) :=
  keeps_of_at fun e => keepsAt_each xs fun x hx => (h x hx).at e

end Frame

end Smolmux
