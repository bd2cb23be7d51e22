import Smolmux.Broker.ExpectMachine
import Smolmux.Broker.Roster
import Smolmux.ExpectMemory

/-! The limits of the expect engine, as it is used: requests are counted by client id, and the
ids the broker and the MCP sink ask with fit the field they are stored in. -/

namespace Smolmux.Broker
open Expect List

variable {ρ : Type} {e : Env ρ} {b b' : Broker ρ}

def Fair (reqs : List (ExpectRequest ρ)) : Prop :=
  ∀ clientId, (reqs.filter (·.clientId == clientId)).length ≤ maxExpectPerClient

theorem Fair.fewer {reqs reqs' : List (ExpectRequest ρ)} (h : Fair reqs) (hsub : reqs'.Subperm reqs) :
    Fair reqs' := fun clientId => (hsub.filter _).length_le.trans (h clientId)

theorem Fair.mapped {reqs : List (ExpectRequest ρ)} (h : Fair reqs)
    {f : ExpectRequest ρ → ExpectRequest ρ} (hf : ∀ req, (f req).clientId = req.clientId) :
    Fair (reqs.map f) := by
  intro clientId
  rw [filter_map, length_map]
  simpa only [Function.comp_def, hf] using h clientId

theorem Fair.expectAdd {eng : ExpectEngine ρ} (h : Fair eng.requests) (regex : Regex ρ)
    (growMem bufMem : Bool) (id pattern : Bytes) (timeoutS : Rat) {clientId : Bytes}
    (hid : clientId.length < 32) (now : Rat) (owner : Option Nat) :
    Fair (expectAdd regex growMem bufMem eng id pattern timeoutS clientId now owner).1.requests := by
  have hadds := adds_expectAdd regex growMem bufMem eng id pattern timeoutS clientId now owner
  have hroom : (Expect.expectAdd regex growMem bufMem eng id pattern timeoutS clientId now owner).2 =
      none → (eng.requests.filter (·.clientId == clientId)).length < maxExpectPerClient := by
    intro hnone
    by_contra hmany
    unfold Expect.expectAdd at hnone
    rw [if_pos (Nat.le_of_not_lt hmany)] at hnone
    split at hnone <;> cases hnone
  generalize Expect.expectAdd regex growMem bufMem eng id pattern timeoutS clientId now owner = r
    at hadds hroom ⊢
  cases hadds with
  | refused hrequests => exact hrequests ▸ h
  | added compiled _ hrequests =>
    intro other
    -- the request is counted under the id it is asked with
    have hstored : stored 32 clientId = clientId := stored_fits hid
    rw [hrequests, filter_append, length_append, filter_singleton]
    simp only [newRequest, hstored]
    cases hsame : clientId == other with
    | true => exact beq_iff_eq.mp hsame ▸ hroom rfl
    | false => exact h other

/-- The ids of the clients fit, and no id has more than its share of the requests. -/
structure Counted (b : Broker ρ) : Prop where
  ids : ∀ x ∈ b.idents, x.id.length < 32
  fair : Fair b.expect.requests

theorem Counted.congr (h : Counted b) (hidents : b'.idents = b.idents)
    (hexpect : b'.expect = b.expect) : Counted b' := ⟨hidents ▸ h.ids, hexpect ▸ h.fair⟩

theorem Counted.register (h : Counted b) (reg : Registration) :
    Counted (brokerRegisterClient reg e b).2 := by
  obtain heq | heq | heq := brokerRegisterClient_eq reg e b
  · rw [heq]
    exact h
  · rw [heq]
    exact h.congr rfl rfl
  · rw [heq]
    refine ⟨fun x hx => ?_, h.fair⟩
    change x ∈ (b.clients ++ [_]).map Client.ident at hx
    rw [map_append, map_singleton] at hx
    cases mem_append.mp hx with
    | inl hx => exact h.ids x hx
    | inr hx =>
      rw [mem_singleton.mp hx]
      exact Nat.lt_succ_of_le (length_take_le 31 _)

theorem Counted.updateClient (h : Counted b) (a : Addr) {f : Client → Client}
    (hf : ∀ c, (f c).id = c.id) : Counted (Broker.updateClient a f e b).2 := by
  refine ⟨fun x hx => ?_, h.fair⟩
  obtain ⟨c, hc, rfl⟩ := mem_map.mp hx
  obtain ⟨c, hmem, rfl⟩ := mem_map.mp hc
  have hid := h.ids c.ident (mem_map_of_mem hmem)
  split_ifs
  · exact (congrArg List.length (hf c)).trans_lt hid
  · exact hid

theorem Counted.removeClient (h : Counted b) (a : Addr) : Counted (Broker.removeClient a e b).2 := by
  refine ⟨fun x hx => h.ids x ?_, h.fair.fewer ((clerical_removeClient a).rel e b).expects.1⟩
  rw [Broker.idents, clients_removeClient] at hx
  exact map_subset _ (dropClient_subperm b.clients a).subset hx

theorem Counted.run (h : Counted b) (op : Op) (hready : op.Ready b) : Counted (op.run e b) := by
  have hidents := (moves_run op e b).calm.idents
  by_cases htouches : op.touches .expect = false
  · exact h.congr hidents ((moves_run op e b).part .expect htouches)
  refine ⟨hidents ▸ h.ids, ?_⟩
  have hcollect : ∀ {b : Broker ρ}, Fair b.expect.requests →
      Fair (processExpectResults e b).2.expect.requests := by
    intro b hfair
    have htells : TableTells e processExpectResults
        (fun _ _ eng => eng.requests.Subperm b.expect.requests) b.expect :=
      tableTells_collect fun _ _ _ hperm _ => (sublist_append_right _ _).subperm.trans hperm.subperm
    obtain ⟨evs, -, hsub⟩ := htells b rfl
    exact hfair.fewer hsub
  cases op with
  | addExpect id pattern timeoutS clientId owner =>
    have hid : clientId.length < 32 := by
      cases owner with
      | none => exact hready.1 ▸ (by decide)
      | some serial =>
        obtain ⟨x, hx, rfl, -⟩ := hready
        exact h.ids x hx
    have heq : (Broker.addExpect id pattern timeoutS clientId owner e b).2.expect =
        (expectAdd e.regex (e.mem b.queries) (e.mem (b.queries + 1)) b.expect id pattern timeoutS
          clientId (e.mono (b.queries + 2)) owner).1 := by
      unfold Broker.addExpect
      simp only [Proc.bind_apply, Proc.env_apply, Proc.get_apply, Proc.modify_apply,
        Proc.pure_apply, ask, nowMonotonic]
      cases (expectAdd e.regex (e.mem b.queries) (e.mem (b.queries + 1)) b.expect id pattern timeoutS
        clientId (e.mono (b.queries + 2)) owner).2 <;> rfl
    rw [Op.run, heq]
    exact h.fair.expectAdd _ _ _ _ _ _ hid _ _
  | cancelExpect id owner => exact h.fair.fewer (sweep_subperm ..)
  | cancelMcpExpects => exact h.fair.fewer (sweep_subperm ..)
  | feedExpects buf => exact h.fair.mapped fun req => by unfold feedRequest; split <;> rfl
  | endExpects reason patternName =>
    exact hcollect (h.fair.mapped fun req => by unfold abortRequest; split <;> rfl)
  | collectExpects => exact hcollect h.fair
  | suspend =>
    obtain ⟨evs, -, hnone⟩ := tableTells_suspend (e := e)
      (R := fun _ _ eng => eng.requests = []) rfl (stallDisarm e b).2 rfl
    change Fair (linkSuspend e (stallDisarm e b).2).2.expect.requests
    rw [hnone]
    exact fun _ => Nat.zero_le _
  | _ => exact absurd rfl htouches

theorem loopFrame_counted (e : Env ρ) : LoopFrame e (Frame.ofInvariant Counted) where
  toTurnFrame := turnFrame_of_clients (T := only .expect)
    (fun S b b' hapart hmoves h => h.congr hmoves.calm.idents
      (hmoves.part .expect (expect_of_apart hapart)))
    (fun b ev _ h => h.congr rfl rfl)
    (fun reg => ⟨fun b h => h.register reg⟩)
    (fun a f hf => ⟨fun b h => h.updateClient a fun c => (hf c).2⟩)
    (fun a => ⟨fun b h => h.removeClient a⟩)
    (fun b holder h => h.congr rfl rfl)
    fun op b _ _ hready h => h.run op hready
  stop := ⟨fun b h => h.congr rfl rfl⟩
  replug b h := h.congr rfl rfl

/-- Whatever memory is refused, no operation is undefined; at most 256 requests wait; every
request owns a compiled pattern and a buffer of its own that are in use, nothing else is in
use but the buffers handed out with results, and the text of a request fits its buffer; an
add that fails leaves the requests as they are. With client ids that fit their field, no
client id has more than 16 requests; and the ids of the clients of a broker and of its MCP
sink fit, whatever it has been through, so that no id has more in its engine. -/
theorem expect_limits (regex : Regex ρ) (mem : Nat → Bool) (ops : List StoreOp) (e : Env ρ)
    (cfg : Config) (steps : List Step) :
    (∃ s, runStore regex mem storeInit ops = some s ∧
      s.requests.length ≤ 256 ∧
      ((∀ op ∈ ops, op.Short) →
        ∀ clientId, (s.requests.filter (·.req.clientId == clientId)).length ≤ 16) ∧
      (s.requests.flatMap Held.blocks ++ s.given).Nodup ∧
      (s.requests.flatMap Held.blocks ++ s.given).Perm s.heap.live ∧
      (∀ r ∈ s.requests, r.req.buffer.length < r.bufCap ∧ r.req.buffer.length ≤ 256 * 1024) ∧
      ∀ id pattern timeoutS clientId now owner, ∃ s' err,
        storeAdd regex mem s id pattern timeoutS clientId now owner = some (s', err) ∧
        (err ≠ none → s'.requests = s.requests)) ∧
    let b := runSteps e (brokerInit regex cfg) steps
    mcpClientId.length < 32 ∧ (∀ x ∈ b.idents, x.id.length < 32) ∧
      ∀ clientId, (b.expect.requests.filter (·.clientId == clientId)).length ≤ 16 := by
  constructor
  · obtain ⟨s, hrun, hs, hshared⟩ := runStore_spec regex mem sane_storeInit ops
    refine ⟨s, hrun, hs.within.trans hs.limit, ?_, hs.holds.nodup, hs.holds.perm, ?_, ?_⟩
    · intro hshort clientId
      have hcount := hshared hshort (fun c => Nat.zero_le _) clientId
      rwa [Expect.clients, List.count, countP_map, countP_eq_length_filter] at hcount
    · exact fun r hr => ⟨(hs.fits r hr).room, (hs.fits r hr).bounded⟩
    · intro id pattern timeoutS clientId now owner
      obtain ⟨r, hadd, hout, -⟩ := storeAdd_spec regex mem hs id pattern timeoutS clientId now owner
      refine ⟨r.1, r.2, hadd, ?_⟩
      intro herr
      obtain ⟨-, hsame⟩ | ⟨hnone, -⟩ := hout.refused_or_added
      · exact hsame
      · exact absurd hnone herr
  · have hcounted : Counted (runSteps e (brokerInit regex cfg) steps) :=
      (loopFrame_counted e).runSteps _ steps ⟨forall_mem_nil _, fun _ => Nat.zero_le _⟩
    exact ⟨by decide, hcounted.ids, hcounted.fair⟩

/-- Seventeen requests in one name: the last one is refused. -/
theorem expect_limits_of_one_client :
    ∃ s, runStore plainEnv.regex plenty storeInit
        (replicate 17 (.add (ascii "e") (ascii "x") 1 mcpClientId 0 none)) = some s ∧
      s.requests.length = 16 ∧
      ∀ clientId, (s.requests.filter (·.req.clientId == clientId)).length ≤ 16 := by
  obtain ⟨⟨s, hrun, -, hper, -⟩, hmcp, -⟩ := expect_limits plainEnv.regex plenty
    (replicate 17 (.add (ascii "e") (ascii "x") 1 mcpClientId 0 none)) plainEnv
    (plainConfig []) []
  refine ⟨s, hrun, ?_, hper fun op hop => ?_⟩
  · cases hrun
    rfl
  · rw [eq_of_mem_replicate hop]
    exact hmcp

end Smolmux.Broker
