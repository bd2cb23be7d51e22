import Smolmux.Broker.ExpectMachine
import Smolmux.Broker.Takeover
import Smolmux.Window

/-! The flags of an expect result. A request is matched by output and aborted by a critical
anomaly or the loss of the link. An abort hands out results at once, but no more than 16, so
that a request may be aborted and still wait when more output comes. -/

namespace Smolmux.Broker
open Expect Smolmux.Frame List

variable {ρ : Type}

def Event.isTwofold : Event → Bool
  | .expect (.result _ _ isMatched aborted) => isMatched && aborted
  | _ => false

def Event.isAdded : Event → Bool
  | .expect (.added ..) => true
  | _ => false

def added (b : Broker ρ) : Nat := (b.about (only .expect)).countP Event.isAdded

structure Exclusive (b : Broker ρ) : Prop where
  waiting : ∀ req ∈ b.expect.requests, req.aborted = false
  results : ∀ ev ∈ b.about (only .expect), ev.isTwofold = false

/-- Requests are counted with those that are registered on the way; as long as there are no
more than 16, the flags exclude each other. -/
def excluding : Frame (Broker ρ) where
  rel b b' := b.added ≤ b'.added ∧
    b'.expect.requests.length + b.added ≤ b.expect.requests.length + b'.added ∧
    (b.expect.requests.length + b'.added ≤ 16 + b.added → Exclusive b → Exclusive b')
  refl b := ⟨Nat.le_refl _, Nat.le_refl _, fun _ h => h⟩
  trans h h' := by
    obtain ⟨hadded, hlength, hkeeps⟩ := h
    obtain ⟨hadded', hlength', hkeeps'⟩ := h'
    refine ⟨hadded.trans hadded', by omega, fun hroom hexclusive => ?_⟩
    exact hkeeps' (by omega) (hkeeps (by omega) hexclusive)

section Steps

variable {eng eng' : ExpectEngine ρ} {evs : List Event} {reqs done : List (ExpectRequest ρ)}

theorem abortRequest_flags {req : ExpectRequest ρ} (h : req.aborted = false)
    (reason patternName : Bytes) (now : Rat) :
    ((abortRequest reason patternName req).matched &&
      (abortRequest reason patternName req).aborted) = false ∧
      requestDone now (abortRequest reason patternName req) := by
  unfold abortRequest requestDone
  cases hmatched : req.matched with
  | true => simp [h, hmatched]
  | false => simp [h]

theorem feedRequest_aborted (regex : Regex ρ) (data : Bytes) (req : ExpectRequest ρ) :
    (feedRequest regex data req).aborted = req.aborted := by
  unfold feedRequest
  split
  · rfl
  · rfl

theorem Delivers.flags (h : Delivers reqs evs) : evs.countP Event.isAdded = 0 ∧
    ((∀ req ∈ reqs, (req.matched && req.aborted) = false) →
      ∀ ev ∈ evs, ev.isTwofold = false) := by
  induction h with
  | nil => exact ⟨rfl, fun _ => forall_mem_nil _⟩
  | lost req h ih => exact ⟨ih.1, fun hflags => ih.2 (forall_mem_cons.mp hflags).2⟩
  | sink req h ih =>
    refine ⟨ih.1, fun hflags => ?_⟩
    obtain ⟨hreq, hreqs⟩ := forall_mem_cons.mp hflags
    exact forall_mem_cons.mpr ⟨hreq, ih.2 hreqs⟩
  | client req serial h ih =>
    refine ⟨ih.1, fun hflags => ?_⟩
    obtain ⟨hreq, hreqs⟩ := forall_mem_cons.mp hflags
    exact forall_mem_cons.mpr ⟨hreq, forall_mem_cons.mpr ⟨rfl, ih.2 hreqs⟩⟩

/-- What a step of the table leaves, when it starts with no more than 16 requests and none of
them is aborted. -/
structure Spares (eng : ExpectEngine ρ) (evs : List Event) (eng' : ExpectEngine ρ) : Prop where
  length : eng'.requests.length ≤ eng.requests.length + evs.countP Event.isAdded
  waiting : eng.requests.length ≤ 16 → (∀ req ∈ eng.requests, req.aborted = false) →
    ∀ req ∈ eng'.requests, req.aborted = false
  results : (∀ req ∈ eng.requests, req.aborted = false) → ∀ ev ∈ evs, ev.isTwofold = false

theorem spares_fewer (hsub : eng'.requests.Subperm eng.requests)
    (hevs : ∀ ev ∈ evs, ev.isTwofold = false) : Spares eng evs eng' where
  length := Nat.le_add_right_of_le hsub.length_le
  waiting _ hwaiting req hreq := hwaiting req (hsub.subset hreq)
  results _ := hevs

theorem spares_collect {now : Rat} (hlength : reqs.length = eng.requests.length)
    (hperm : (done ++ (collectFrom now reqs.length 16 0 reqs).2).Perm reqs)
    (hevs : Delivers done evs)
    (hflags : (∀ req ∈ eng.requests, req.aborted = false) →
      ∀ req ∈ reqs, (req.matched && req.aborted) = false)
    (hleft : reqs.length ≤ 16 → (∀ req ∈ eng.requests, req.aborted = false) →
      ∀ req ∈ (collectFrom now reqs.length 16 0 reqs).2, req.aborted = false) :
    Spares eng (.expect (.collected now done.length) :: evs)
      { eng with requests := (collectFrom now reqs.length 16 0 reqs).2 } where
  length := by
    have hsum := hperm.length_eq
    rw [length_append] at hsum
    dsimp only
    omega
  waiting hroom := hleft (hlength.trans_le hroom)
  results hwaiting := forall_mem_cons.mpr ⟨rfl, hevs.flags.2 fun req hreq =>
    hflags hwaiting req (hperm.mem_iff.mp (mem_append_left _ hreq))⟩

theorem spares_of_step (h : TableStep eng evs eng') : Spares eng evs eng' := by
  cases h with
  | fewer hnext hsub => exact spares_fewer hsub (forall_mem_nil _)
  | withdraw id => exact spares_fewer (sweep_subperm ..) (by simp [Event.isTwofold])
  | add compiled hrequests hnext =>
    refine ⟨?_, fun _ hwaiting => ?_, fun _ => by simp [Event.isTwofold]⟩
    · rw [hrequests, length_append]
      exact Nat.le_refl _
    · rw [hrequests, forall_mem_append]
      exact ⟨hwaiting, by simp [newRequest]⟩
  | feed regex buf =>
    refine ⟨Nat.le_of_eq (length_map _), fun _ hwaiting => ?_, fun _ => forall_mem_nil _⟩
    exact forall_mem_map.mpr fun req hreq =>
      (feedRequest_aborted regex buf req).trans (hwaiting req hreq)
  | collect now hreqs hperm hevs =>
    obtain rfl | ⟨reason, patternName, rfl⟩ := hreqs
    · refine spares_collect rfl hperm hevs (fun hwaiting req hreq => ?_)
        fun _ hwaiting req hreq => hwaiting req (hperm.mem_iff.mp (mem_append_right _ hreq))
      rw [hwaiting req hreq, Bool.and_false]
    · have hflags : (∀ req ∈ eng.requests, req.aborted = false) →
          ∀ req ∈ eng.requests.map (abortRequest reason patternName),
            (req.matched && req.aborted) = false ∧ requestDone now req := fun hwaiting =>
        forall_mem_map.mpr fun req hreq =>
          abortRequest_flags (hwaiting req hreq) reason patternName now
      refine spares_collect (length_map _) hperm hevs
        (fun hwaiting req hreq => (hflags hwaiting req hreq).1) fun hroom hwaiting => ?_
      rw [collectFrom_of_done (fun req hreq => (hflags hwaiting req hreq).2) hroom]
      exact forall_mem_nil _

end Steps

theorem loopFrame_excluding (e : Env ρ) : LoopFrame e (excluding : Frame (Broker ρ)) := by
  refine loopFrame_of_tableSteps fun b b' evs htold hstep => ?_
  obtain ⟨hlength, hwaiting, hresults⟩ := spares_of_step hstep
  have hadded : b'.added = b.added + evs.countP Event.isAdded := by
    rw [Broker.added, htold, countP_append, Broker.added]
  refine ⟨by omega, by omega, fun hroom hb => ⟨hwaiting (by omega) hb.waiting, ?_⟩⟩
  rw [htold, forall_mem_append]
  exact ⟨hb.results, hresults hb.waiting⟩

def Step.hasRoom (e : Env ρ) (b : Broker ρ) (s : Step) : Bool :=
  b.expect.requests.length + ((step s e b).2.added - b.added) ≤ 16

/-- Along every run in which no more than 16 expects wait at a time, no result says matched
and aborted, and no request that is aborted goes on waiting. -/
theorem results_are_exclusive (e : Env ρ) (regex : Regex ρ) (cfg : Config) (steps : List Step)
    (hroom : alongSteps e (Step.hasRoom e) (brokerInit regex cfg) steps = true) :
    let b := runSteps e (brokerInit regex cfg) steps
    (∀ ticket owner, .expect (.result ticket owner true true) ∉ b.trace) ∧
      ∀ req ∈ b.expect.requests, req.aborted = false := by
  intro b
  have hinit : Exclusive (brokerInit regex cfg) := ⟨forall_mem_nil _, forall_mem_nil _⟩
  have hkept : (ofInvariant Exclusive).rel (brokerInit regex cfg) b := by
    refine rel_alongSteps (fun b s hs => ?_) hroom
    obtain ⟨hadded, -, hkeeps⟩ := ((loopFrame_excluding e).step s).rel b
    have hs : _ ≤ 16 := of_decide_eq_true hs
    exact hkeeps (by omega)
  have hend := hkept hinit
  refine ⟨fun ticket owner hmem => ?_, hend.waiting⟩
  have htold : Event.expect (.result ticket owner true true) ∈ b.about (only .expect) :=
    mem_about.mpr ⟨hmem, rfl⟩
  exact Bool.noConfusion (hend.results _ htold)

def wordEnv : Env Bytes := { plainEnv with regex := wordRegex }

def listenStep (addr : Addr) : Step :=
  .message addr ⟨.listenExpect, some (.obj [("id", .str (ascii "boot")),
    ("pattern", .str (ascii "login:"))])⟩

/-- One client waits for a login `n` times and another one once; the device panics, restarts
and gets to its login, all in one read of the link. -/
def panicSteps (n : Nat) : List Step :=
  [.event (.listen (plainReg 1)), .event (.listen (plainReg 2)), .message 1 (helloMsg "a" []),
    .message 2 (helloMsg "b" [])] ++ List.replicate n (listenStep 1) ++
  [listenStep 2, .event (.link ⟨true, false, false⟩ [.data (ascii "Kernel panic"),
    .data (ascii "login:")]), .startTurn]

def Event.isAborted : Event → Bool
  | .expect (.result _ _ _ aborted) => aborted
  | _ => false

theorem results_are_exclusive_two :
    let b := runSteps wordEnv (brokerInit wordRegex (plainConfig [])) (panicSteps 1)
    b.trace.countP Event.isAborted = 2 ∧
      ∀ ticket owner, .expect (.result ticket owner true true) ∉ b.trace :=
  ⟨by decide +kernel, (results_are_exclusive wordEnv wordRegex (plainConfig []) (panicSteps 1)
    (by decide +kernel)).1⟩

/-- Of seventeen expects that a panic aborts one goes on waiting, and is matched by what
comes next. -/
theorem aborted_expect_is_matched :
    ∃ ticket owner, .expect (.result ticket owner true true) ∈
      (runSteps wordEnv (brokerInit wordRegex (plainConfig [])) (panicSteps 16)).trace := by
  have htwofold : ∃ ev ∈ (runSteps wordEnv (brokerInit wordRegex (plainConfig []))
      (panicSteps 16)).trace, ev.isTwofold = true := by decide +kernel
  obtain ⟨ev, hev, hflags⟩ := htwofold
  cases ev with
  | expect note =>
    cases note with
    | result ticket owner isMatched aborted =>
      obtain ⟨rfl, rfl⟩ := Bool.and_eq_true_iff.mp hflags
      exact ⟨ticket, owner, hev⟩
    | _ => cases hflags
  | _ => cases hflags

end Smolmux.Broker
