import Smolmux.Broker.Account

/-! The table of expects as a machine: its steps, with the events that each tells, and that
whatever the broker does is a step of it. -/

namespace Smolmux.Broker
open Protocol Expect List

variable {ρ α : Type}

def expectResultMsg (r : ExpectResult) : Json :=
  msgExpectResultEx r.id r.isMatched r.data r.pattern r.aborted r.abortReason r.abortPattern

/-- What is told when results are delivered; whoever asked may be gone. -/
inductive Delivers : List (ExpectRequest ρ) → List Event → Prop
  | nil : Delivers [] []
  | lost (req : ExpectRequest ρ) {reqs : List (ExpectRequest ρ)} {evs : List Event}
      (h : Delivers reqs evs) : Delivers (req :: reqs) evs
  | sink (req : ExpectRequest ρ) {reqs : List (ExpectRequest ρ)} {evs : List Event}
      (h : Delivers reqs evs) : Delivers (req :: reqs)
        (.expect (.result req.ticket none req.matched req.aborted) :: evs)
  | client (req : ExpectRequest ρ) (serial : Nat) {reqs : List (ExpectRequest ρ)}
      {evs : List Event} (h : Delivers reqs evs) : Delivers (req :: reqs)
        (.expect (.result req.ticket (some serial) req.matched req.aborted) ::
          .reply (.expect req.ticket) (expectResultMsg (resultOf req)) :: evs)

inductive TableStep (eng : ExpectEngine ρ) : List Event → ExpectEngine ρ → Prop
  | fewer {eng' : ExpectEngine ρ} (hnext : eng'.next = eng.next)
      (hsub : eng'.requests.Subperm eng.requests) : TableStep eng [] eng'
  | withdraw (id : Bytes) :
      TableStep eng [.expect (.withdrawn (eng.next - 1) id)] (expectCancelId eng id)
  | add {eng' : ExpectEngine ρ} {owner : Option Nat} {id pattern clientId : Bytes} {deadline : Rat}
      (compiled : ρ) (hrequests : eng'.requests = eng.requests ++
        [newRequest id pattern compiled deadline clientId eng.next owner])
      (hnext : eng'.next = eng.next + 1) :
      TableStep eng [.expect (.added eng.next owner (stored 64 id) deadline),
        .asked (.expect eng.next) (some id)] eng'
  | feed (regex : Regex ρ) (buf : Bytes) : TableStep eng [] (expectFeed regex eng buf)
  | collect {reqs done : List (ExpectRequest ρ)} {evs : List Event} (now : Rat)
      (hreqs : reqs = eng.requests ∨
        ∃ reason patternName, reqs = eng.requests.map (abortRequest reason patternName))
      (hperm : (done ++ (collectFrom now reqs.length 16 0 reqs).2).Perm reqs)
      (hevs : Delivers done evs) :
      TableStep eng (.expect (.collected now done.length) :: evs)
        { eng with requests := (collectFrom now reqs.length 16 0 reqs).2 }

abbrev TableTells (e : Env ρ) (p : M ρ α) (R : α → List Event → ExpectEngine ρ → Prop)
    (eng : ExpectEngine ρ) : Prop :=
  Reports (only .expect) Broker.expect e p R eng

variable {e : Env ρ} {eng : ExpectEngine ρ} {R : Unit → List Event → ExpectEngine ρ → Prop}

theorem tableTells_moves {S : Sector → Bool} {p : M ρ α}
    {U : α → List Event → ExpectEngine ρ → Prop}
    (hS : S .expect = false) (hp : (moves S).Keeps p) (h : ∀ a, U a [] eng) :
    TableTells e p U eng :=
  reports_moves (fun _ _ hstill => hstill.part .expect rfl) (apart_only hS) hp h

theorem tableTells_emit {ev : Event} (hev : ev.sector = some .expect) (h : R () [ev] eng) :
    TableTells e (emit ev) R eng := reports_emit (fun _ => rfl) (hev ▸ rfl) h

theorem tableTells_deliver {req : ExpectRequest ρ}
    (h : ∀ evs, Delivers [req] evs → R () evs eng) :
    TableTells e (deliverExpectResult (resultOf req)) R eng := by
  have howner : ∀ b : Broker ρ,
      TableTells e (deliverExpectResult.toOwner (resultOf req) b) R eng := by
    intro b
    unfold deliverExpectResult.toOwner
    split
    · exact tells_pure (h _ (.lost req .nil))
    · exact tells_bind (tableTells_emit rfl (tells_bind (tableTells_emit rfl
        (tableTells_moves rfl (plain_sendToClient ..) fun _ => h _ (.client req _ .nil)))))
  refine tells_get fun b _ => ?_
  split
  · exact tells_ite (fun _ => tells_bind (tableTells_emit rfl (tableTells_moves (S := only .calls)
      rfl (moves_mcpOnExpectResult rfl ..) fun _ => h _ (.sink req .nil)))) fun _ => howner b
  · exact howner b

theorem Delivers.append {reqs reqs' : List (ExpectRequest ρ)} {evs evs' : List Event}
    (h : Delivers reqs evs) (h' : Delivers reqs' evs') :
    Delivers (reqs ++ reqs') (evs ++ evs') := by
  induction h with
  | nil => exact h'
  | lost req _ ih => exact .lost req ih
  | sink req _ ih => exact .sink req ih
  | client req serial _ ih => exact .client req serial ih

theorem tableTells_deliverAll (done : List (ExpectRequest ρ))
    (h : ∀ evs, Delivers done evs → R () evs eng) :
    TableTells e (Proc.each deliverExpectResult (done.map resultOf)) R eng := by
  induction done generalizing R with
  | nil => exact tells_pure (h _ .nil)
  | cons req done ih =>
    exact tells_bind (tableTells_deliver fun evs hreq => ih fun _ hdone => h _ (hreq.append hdone))

theorem tableTells_collect
    (h : ∀ now done evs, (done ++ (collectFrom now eng.requests.length 16 0 eng.requests).2).Perm
        eng.requests → Delivers done evs → R () (.expect (.collected now done.length) :: evs)
          { eng with requests := (collectFrom now eng.requests.length 16 0 eng.requests).2 }) :
    TableTells e processExpectResults R eng := by
  refine tells_bind (tableTells_moves rfl (plain_ask _) fun now => tells_get ?_)
  rintro b rfl
  obtain ⟨done, hresults, hperm, -⟩ := collectFrom_perm now b.expect.requests.length 16 0
    b.expect.requests
  have hlength : (expectCollect b.expect now 16).1.length = done.length := by
    rw [← length_map resultOf]
    exact congrArg length hresults
  refine tells_bind (reports_modify (fun _ => rfl) fun b₁ _ => tells_bind (tableTells_emit rfl ?_))
  rw [hlength]
  change TableTells e (Proc.each _ (collectFrom ..).1) _ _
  rw [hresults]
  exact tableTells_deliverAll done fun evs => h now done evs hperm

theorem tableTells_suspend (h : R () [] (expectCancelAll eng)) : TableTells e linkSuspend R eng :=
  tells_bind (tableTells_moves (S := only .wire) rfl (moves_unwatchLink rfl) fun _ =>
    tells_get fun _ _ => tells_bind (tableTells_moves (S := only .stage) rfl
      (moves_note rfl (fun _ => trivial) rfl) fun _ =>
        tells_bind (reports_modify (fun _ => rfl) fun b hb =>
          tableTells_moves (S := only .wire) rfl (.yields (moves_callLink _ rfl)) fun _ => hb ▸ h)))

section Operations

variable {F : Frame (Broker ρ)} {b b' : Broker ρ}

theorem told_addExpect (id pattern : Bytes) (timeoutS : Rat) (clientId : Bytes)
    (owner : Option Nat) (e : Env ρ) (b : Broker ρ) :
    let b' := (addExpect id pattern timeoutS clientId owner e b).2
    ∃ evs, b'.about (only .expect) = b.about (only .expect) ++ evs ∧
      TableStep b.expect evs b'.expect := by
  have hadds := addsExpect_addExpect id pattern timeoutS clientId owner e b
  generalize addExpect id pattern timeoutS clientId owner e b = r at hadds
  cases hadds with
  | refused hrequests hnext err =>
    exact ⟨[], (append_nil _).symm, .fewer hnext (hrequests ▸ .refl _)⟩
  | added hdeadline compiled hrequests hnext =>
    refine ⟨_, ?_, .add compiled hrequests hnext⟩
    dsimp only
    rw [about_noted, about_noted, append_assoc]
    rfl

theorem loopFrame_of_tableSteps
    (hstep : ∀ (b b' : Broker ρ) evs, b'.about (only .expect) = b.about (only .expect) ++ evs →
      TableStep b.expect evs b'.expect → F.rel b b') : LoopFrame e F := by
  have hfewer : ∀ b b' : Broker ρ, b'.about (only .expect) = b.about (only .expect) →
      b'.expect.next = b.expect.next → b'.expect.requests.Subperm b.expect.requests →
      F.rel b b' := fun b b' htold hnext hsub =>
    hstep b b' [] (htold.trans (append_nil _).symm) (.fewer hnext hsub)
  have hstill : ∀ b b' : Broker ρ, Still (only .expect) b b' → F.rel b b' := by
    intro b b' h
    have hexpect : b'.expect = b.expect := h.part .expect rfl
    exact hfewer b b' h.told (hexpect ▸ rfl) (hexpect ▸ .refl _)
  have htold : ∀ {p : M ρ Unit} (b : Broker ρ),
      TableTells e p (fun _ => TableStep b.expect) b.expect → F.rel b (p e b).2 := by
    intro p b h
    obtain ⟨evs, htold, hmoved⟩ := h b rfl
    exact hstep _ _ evs htold hmoved
  refine ⟨turnFrame_of_clerical (T := only .expect)
    (fun b b' h => hfewer b b' h.about h.expects.2 h.expects.1) hstill fun op b _ hapart _ => ?_,
    ⟨fun b => hstill _ _ (still_run .stopFlood (apart_only rfl) e b)⟩,
    fun b => hstill _ _ ((moves_replugged b).still (apart_only rfl))⟩
  cases op with
  | addExpect id pattern timeoutS clientId owner =>
    obtain ⟨evs, htold, hmoved⟩ := told_addExpect id pattern timeoutS clientId owner e b
    exact hstep _ _ evs htold hmoved
  | cancelExpect id owner =>
    exact hstep b _ _ (about_noted b (.expect (.withdrawn (b.expect.next - 1) id))) (.withdraw id)
  | cancelMcpExpects => exact hfewer _ _ rfl rfl (sweep_subperm ..)
  | feedExpects buf => exact hstep _ _ [] (append_nil _).symm (.feed e.regex buf)
  | endExpects reason patternName =>
    refine htold (p := endExpects reason patternName) b (tells_bind (reports_modify
      (fun _ => rfl) fun b₁ hb₁ => ?_))
    rw [hb₁]
    exact tableTells_collect fun now done evs => .collect now (.inr ⟨reason, patternName, rfl⟩)
  | collectExpects => exact htold b (tableTells_collect fun now done evs => .collect now (.inl rfl))
  | suspend =>
    exact F.trans (hstill _ _ (still_stallDisarm rfl e b))
      (htold _ (tableTells_suspend (.fewer rfl nil_subperm)))
  | _ => exact absurd (apart_of_all rfl) hapart

theorem expects_run_as_table (e : Env ρ) (b : Broker ρ) (steps : List Step) :
    (running (only .expect) Broker.expect TableStep).rel b (runSteps e b steps) := by
  refine (loopFrame_of_tableSteps fun b b' evs htold hstep => ?_).runSteps b steps
  exact .single ⟨evs, htold, hstep⟩

end Operations

end Smolmux.Broker
