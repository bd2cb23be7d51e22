import Smolmux.Broker.Members
import Smolmux.View

/-! What a run tells about some sectors of the broker. A rule that looks only at
those sectors and at their events is kept by the whole event loop when the
operations that touch one of them keep it. -/

namespace Smolmux.Broker
open List

variable {ρ γ : Type} {T : Sector → Bool}

def about (b : Broker ρ) (T : Sector → Bool) : List Event :=
  b.trace.filter fun ev => ev.sector.any T

variable {ev : Event} {S : Sector → Bool}

section About

variable {b b' : Broker ρ}

theorem mem_about : ev ∈ b.about T ↔ ev ∈ b.trace ∧ ev.sector.any T :=
  mem_filter

theorem about_noted (b : Broker ρ) (ev : Event) :
    (b.noted ev).about T = b.about T ++ if ev.sector.any T then [ev] else [] := by
  rw [Broker.about, Broker.noted, filter_append, Broker.about]
  congr 1
  rw [filter_singleton]
  cases ev.sector.any T with
  | true => rfl
  | false => rfl

theorem about_noted_none (h : ev.sector = none) (b : Broker ρ) :
    (b.noted ev).about T = b.about T := by
  rw [about_noted, h]
  exact append_nil _

theorem about_grows {P : Event → Prop} (hP : ∀ ev, P ev → ev.sector.any T = false)
    (h : Grows P b.trace b'.trace) : b'.about T = b.about T := by
  obtain ⟨evs, htrace, hevs⟩ := h
  have hnil : evs.filter (fun ev => ev.sector.any T) = [] :=
    filter_eq_nil_iff.mpr fun ev hev => by rw [hP ev (hevs ev hev)]; exact Bool.false_ne_true
  rw [Broker.about, htrace, filter_append, hnil, append_nil, Broker.about]

theorem read_about {τ : Type} {read : Event → Option τ} (hread : ∀ ev, ev.sector.any T = false →
    read ev = none) (b : Broker ρ) : (b.about T).filterMap read = b.trace.filterMap read := by
  rw [Broker.about, filterMap_filter]
  refine filterMap_congr fun ev _ => ?_
  cases hev : ev.sector.any T with
  | true => rfl
  | false => exact (hread ev hev).symm

theorem read_append {τ : Type} {read : Event → Option τ} (hread : ∀ ev, ev.sector.any T = false →
    read ev = none) {evs : List Event} (h : b'.about T = b.about T ++ evs) :
    b'.trace.filterMap read = b.trace.filterMap read ++ evs.filterMap read := by
  rw [← read_about hread, h, filterMap_append, read_about hread]

def only (s : Sector) : Sector → Bool := (· == s)

theorem only_self (s : Sector) : only s s := beq_self_eq_true s

def Apart (S T : Sector → Bool) : Prop := ∀ s, S s = true → T s = false

theorem apart_none : Apart (fun _ => false) T := fun _ hs => Bool.noConfusion hs

theorem apart_only {s : Sector} (h : S s = false) : Apart S (only s) := by
  intro u hu
  refine beq_false_of_ne ?_
  rintro rfl
  rw [h] at hu
  cases hu

def Sector.all : List Sector := [.brk, .flood, .expect, .calls, .history, .stage, .wire, .pages, .boot]

theorem apart_of_all (h : Sector.all.all (fun s => !(S s && T s))) :
    Apart S T := by
  intro s hs
  have hmem : s ∈ Sector.all := by cases s <;> decide
  have hnot := all_eq_true.mp h s hmem
  rw [hs] at hnot
  simpa using hnot

theorem Moves.about (hS : Apart S T) (h : Moves S b b') :
    b'.about T = b.about T := by
  refine about_grows (fun ev hev => ?_) h.calm.trace
  cases hsector : ev.sector with
  | none => rfl
  | some s => exact hS s (hev.2 s hsector)

theorem Clerical.about (h : Clerical b b') : b'.about T = b.about T := by
  refine about_grows (fun ev hev => ?_) h.trace
  cases ev with
  | removed serial => rfl
  | sent serial broadcast msg => rfl
  | _ => cases hev

end About

/-- The sectors, and what has been told about them, are as they were; the world may
have been asked. -/
structure Still (T : Sector → Bool) (b b' : Broker ρ) : Prop where
  part : ∀ s, T s = true → b'.part s = b.part s
  told : b'.about T = b.about T
  forward : b.queries ≤ b'.queries

section Standing

variable {b b' : Broker ρ}

theorem Still.refl (b : Broker ρ) : Still T b b := ⟨fun _ _ => rfl, rfl, Nat.le_refl _⟩

theorem Still.mono {T' : Sector → Bool} (hT : ∀ s, T' s → T s) (h : Still T b b') :
    Still T' b b' := by
  refine ⟨fun s hs => h.part s (hT s hs), ?_, h.forward⟩
  have hfewer : ∀ c : Broker ρ, c.about T' = (c.about T).filter fun ev => ev.sector.any T' := by
    intro c
    rw [Broker.about, Broker.about, filter_filter]
    refine filter_congr fun ev _ => ?_
    cases hsector : ev.sector with
    | none => rfl
    | some s =>
      cases hs : T' s with
      | true => simp [hs, hT s hs]
      | false => simp [hs]
  rw [hfewer, hfewer, h.told]

theorem Moves.still (hS : Apart S T) (h : Moves S b b') : Still T b b' := by
  refine ⟨fun s hs => h.part s ?_, h.about hS, h.forward⟩
  cases hSs : S s with
  | false => rfl
  | true => rw [hS s hSs] at hs; cases hs

theorem still_of_plain (h : plain.rel b b') : Still T b b' :=
  Moves.still apart_none h

theorem still_of_clerical (hT : T .expect = false) (h : clerical.rel b b') : Still T b b' := by
  refine ⟨fun s hs => h.part s ?_, h.about, h.forward⟩
  rintro rfl
  rw [hT] at hs
  cases hs

theorem still_noted (h : ev.sector = none) (b : Broker ρ) : Still T b (b.noted ev) :=
  ⟨fun s _ => by cases s <;> rfl, about_noted_none h b, Nat.le_refl _⟩

theorem still_register (reg : Registration) (e : Env ρ) (b : Broker ρ) :
    Still T b (brokerRegisterClient reg e b).2 := by
  obtain h | h | h := brokerRegisterClient_eq reg e b
  · rw [h]
    exact .refl b
  · rw [h]
    exact ⟨fun s _ => by cases s <;> rfl, rfl, Nat.le_refl _⟩
  · rw [h]
    refine ⟨fun s _ => by cases s <;> rfl, ?_, Nat.le_succ _⟩
    exact about_noted_none (T := T) rfl _

theorem still_stallDisarm (hT : T .boot = false) (e : Env ρ) (b : Broker ρ) :
    Still T b (stallDisarm e b).2 := by
  refine ⟨fun s hs => ?_, rfl, Nat.le_refl _⟩
  cases s with
  | boot => exact absurd (hT.symm.trans hs) Bool.false_ne_true
  | _ => rfl

theorem still_run (op : Op) (h : Apart op.touches T) (e : Env ρ) (b : Broker ρ) :
    Still T b (op.run e b) := (moves_run op e b).still h

end Standing

section Views

variable {α δ : Type} {f : Broker ρ → δ} {e : Env ρ} {p : M ρ α}
  {R : α → List Event → δ → Prop} {c : δ}

abbrev Reports (T : Sector → Bool) (f : Broker ρ → δ) (e : Env ρ) (p : M ρ α)
    (R : α → List Event → δ → Prop) (c : δ) : Prop :=
  TellsAt f (fun b => b.about T) e p R c

theorem reports_emit {R : Unit → List Event → δ → Prop} (hf : ∀ b : Broker ρ, f (b.noted ev) = f b)
    (hT : ev.sector.any T) (h : R () [ev] c) : Reports T f e (emit ev) R c := by
  rintro b rfl
  refine ⟨[ev], ?_, (hf b).symm ▸ h⟩
  exact (about_noted b ev).trans (by rw [hT, if_pos rfl])

theorem reports_modify {R : Unit → List Event → δ → Prop} {update : Broker ρ → Broker ρ}
    (htrace : ∀ b, (update b).trace = b.trace) (h : ∀ b, f b = c → R () [] (f (update b))) :
    Reports T f e (Proc.modify update) R c := by
  intro b hb
  refine ⟨[], ?_, h b hb⟩
  change (update b).about T = b.about T ++ []
  rw [Broker.about, htrace, append_nil, Broker.about]

variable (hf : ∀ b b' : Broker ρ, Still T b b' → f b' = f b)

include hf

theorem reports_still (hp : ∀ b, Still T b (p e b).2) (h : ∀ a, R a [] c) : Reports T f e p R c :=
  tells_unchanged ⟨fun b => Prod.ext (hf _ _ (hp b)) (hp b).told⟩ h

theorem reports_moves (hS : Apart S T) (hp : (moves S).Keeps p) (h : ∀ a, R a [] c) :
    Reports T f e p R c := reports_still hf (fun b => (hp.rel e b).still hS) h

theorem reports_callLinkAs {R : Int → List Event → δ → Prop} {ev : Int → Event} (op : LinkOp)
    (hwire : T .wire = false) (hT : ∀ rc, (ev rc).sector.any T)
    (hnoted : ∀ rc (b : Broker ρ), f (b.noted (ev rc)) = f b) (h : ∀ rc, R rc [ev rc] c) :
    Reports T f e (callLinkAs op ev) R c := by
  refine tells_env (tells_get fun _ _ => tells_bind (reports_moves hf apart_none (plain_ask _)
    fun _ => tells_bind (reports_moves (S := only .wire) hf (fun s hs => ?_) (moves_afterLink rfl e op _)
      fun _ => tells_bind (reports_emit (hnoted _) (hT _) (tells_pure (h _))))))
  rw [eq_of_beq hs, hwire]

end Views

section Loop

variable {F : Frame (Broker ρ)} {e : Env ρ}

theorem rel_work {P : Op → Bool} (hstill : ∀ b b', Still T b b' → F.rel b b')
    (hop : ∀ (op : Op) (b : Broker ρ), P op → ¬ Apart op.touches T → op.Ready b →
      F.rel b (op.run e b))
    {b b' : Broker ρ} (h : Work plain P e b b') : F.rel b b' := by
  cases h with
  | step h => exact hstill _ _ (still_of_plain h)
  | op op hP hready h =>
    subst h
    by_cases hapart : Apart op.touches T
    · exact hstill _ _ (still_run op hapart e b)
    · exact hop op b hP hapart hready

/-- A rule about some sectors is kept at the desk when the operations that touch the
sectors and the work on the clients keep it. -/
theorem deskFrame_of_clerical (hclerical : ∀ b b', clerical.rel b b' → F.rel b b')
    (hstill : ∀ b b', Still T b b' → F.rel b b')
    (hop : ∀ (op : Op) (b : Broker ρ), op.inTurn → ¬ Apart op.touches T → op.Ready b →
      F.rel b (op.run e b)) :
    DeskFrame e F where
  act b b' h := by
    cases h with
    | deed h => exact rel_work hstill (fun op b hP => hop op b (Bool.and_eq_true_iff.mp hP).1) h
    | tools id params h =>
      exact h ▸ rel_handleToolsCall (fun _ _ => rel_work hstill hop) id params b
    | dispatched c hc msg h => exact h ▸ hstill _ _ (still_noted rfl b)
    | renamed c hc hhello f h => exact hclerical _ _ (h ▸ (clerical_updateClient c.addr _).rel e b)
    | admitted c hc hhello hauth role h =>
      exact hclerical _ _ (h ▸ (clerical_acceptHello c.addr role).rel e b)
    | removed a h => exact hclerical _ _ (h ▸ (clerical_removeClient a).rel e b)
    | taken c hc hhello hrole hfree h => exact hclerical _ _ (h ▸ clerical_setTakeover b _)
    | released a h => exact hclerical _ _ (h ▸ clerical_setTakeover b _)
  register reg := ⟨fun b => hstill _ _ (still_register reg e b)⟩
  applied b c reported hc := hstill _ _ (still_noted rfl b)

theorem turnFrame_of_clerical (hclerical : ∀ b b', clerical.rel b b' → F.rel b b')
    (hstill : ∀ b b', Still T b b' → F.rel b b')
    (hop : ∀ (op : Op) (b : Broker ρ), op ≠ .stopFlood → ¬ Apart op.touches T → op.Ready b →
      F.rel b (op.run e b)) :
    TurnFrame e F where
  toDeskFrame := by
    refine deskFrame_of_clerical hclerical hstill fun op b hturn => hop op b ?_
    rintro rfl
    cases hturn
  connecting flags b hconnecting hsuspended := by
    by_cases hapart : Apart (Op.connecting flags).touches T
    · exact hstill _ _ (still_run (.connecting flags) hapart e b)
    · exact hop (.connecting flags) b (by simp) hapart ⟨hconnecting, hsuspended⟩
  record buf ts := by
    refine ⟨fun b => ?_⟩
    by_cases hapart : Apart (Op.record buf ts).touches T
    · exact hstill _ _ (still_run (.record buf ts) hapart e b)
    · exact hop (.record buf ts) b (by simp) hapart trivial

theorem turnFrame_of_still (hT : T .expect = false) (hstill : ∀ b b', Still T b b' → F.rel b b')
    (hop : ∀ (op : Op) (b : Broker ρ), op ≠ .stopFlood → ¬ Apart op.touches T → op.Ready b →
      F.rel b (op.run e b)) :
    TurnFrame e F :=
  turnFrame_of_clerical (fun _ _ h => hstill _ _ (still_of_clerical hT h)) hstill hop

theorem loopFrame_of_still (hT : T .expect = false) (hflood : T .flood = false)
    (hreplug : ∀ b : Broker ρ, F.rel b b.replugged)
    (hstill : ∀ b b', Still T b b' → F.rel b b')
    (hop : ∀ (op : Op) (b : Broker ρ), op ≠ .stopFlood → ¬ Apart op.touches T → op.Ready b →
      F.rel b (op.run e b)) :
    LoopFrame e F where
  toTurnFrame := turnFrame_of_still hT hstill hop
  stop := by
    refine ⟨fun b => hstill _ _ (still_run .stopFlood (fun s hs => ?_) e b)⟩
    cases s with
    | flood => exact hflood
    | _ => cases hs
  replug := hreplug

/-- A part of the broker, and what is told of some sectors, made by steps of a machine. -/
def running (T : Sector → Bool) (f : Broker ρ → γ) (step : γ → List Event → γ → Prop) :
    Frame (Broker ρ) where
  rel b b' := Relation.ReflTransGen (fun x y => ∃ evs, y.2 = x.2 ++ evs ∧ step x.1 evs y.1)
    (f b, b.about T) (f b', b'.about T)
  refl _ := .refl
  trans := .trans

def growing : Frame (Broker ρ) where
  rel b b' := Grows (fun _ => True) b.trace b'.trace
  refl b := .refl _ b.trace
  trans h h' := h.trans h'

theorem growing_of_calm {P : Event → Prop} {b b' : Broker ρ} (h : Calm P b b') :
    growing.rel b b' := h.trace.mono fun _ _ => trivial

theorem growing_of_clerical {b b' : Broker ρ} (h : clerical.rel b b') : growing.rel b b' :=
  h.trace.mono fun _ _ => trivial

theorem deskFrame_growing (e : Env ρ) : DeskFrame e growing where
  act b b' h := by
    cases h with
    | deed h => exact growing_of_calm h.calm
    | tools id params h => exact h ▸ growing_of_calm (calm_handleToolsCall id params e b)
    | dispatched c hc msg h => exact h ▸ .single trivial _
    | renamed c hc hhello f h =>
      exact growing_of_clerical (h ▸ (clerical_updateClient c.addr _).rel e b)
    | admitted c hc hhello hauth role h =>
      exact growing_of_clerical (h ▸ (clerical_acceptHello c.addr role).rel e b)
    | removed a h => exact growing_of_clerical (h ▸ (clerical_removeClient a).rel e b)
    | taken c hc hhello hrole hfree h => exact growing_of_clerical (h ▸ clerical_setTakeover b _)
    | released a h => exact growing_of_clerical (h ▸ clerical_setTakeover b _)
  register reg := by
    refine ⟨fun b => ?_⟩
    obtain h | h | h := brokerRegisterClient_eq reg e b
    · rw [h]
      exact growing.refl b
    · rw [h]
      exact .refl _ b.trace
    · rw [h]
      exact .single trivial _
  applied _ _ _ _ := .single trivial _

theorem loopFrame_growing (e : Env ρ) : LoopFrame e growing :=
  (deskFrame_growing e).loop fun _ _ => growing_of_calm

end Loop

end Smolmux.Broker
