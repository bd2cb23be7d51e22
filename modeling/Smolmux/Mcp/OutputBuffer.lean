import Smolmux.Broker.EventLoop
import Smolmux.Mcp.Server

/-! The device output that the two MCP servers keep for `serial_read`: the sink of the broker
(`mcp.c`) in a buffer that grows, the standalone server (`mcp_client.c`) in one of fixed size. -/

namespace Smolmux.Mcp
open Broker Base64 List

def payload (b64 : Bytes) : Bytes := (base64Decode b64).getD []

/-- What a drain returns, and the buffer after it. -/
def drainOutput (output : Bytes) : Bytes × Bytes :=
  (if output = [] then ascii "(no output)" else output, [])

/-- A buffer of the given capacity holds the end of what was received since the last drain,
and all of it if that fits the limit. -/
structure Holds (cap : Nat) (output received : Bytes) : Prop where
  pos : 0 < cap
  fits : output.length ≤ cap
  limit : cap ≤ mcpOutputBufferMax
  suffix : output <:+ received
  whole : received.length ≤ mcpOutputBufferMax → output = received

section Buffer
variable {cap cap' : Nat} {output received valid : Bytes}

theorem Holds.empty (hpos : 0 < cap) (hlimit : cap ≤ mcpOutputBufferMax) : Holds cap [] [] :=
  ⟨hpos, Nat.zero_le _, hlimit, suffix_rfl, fun _ => rfl⟩

theorem Holds.push (h : Holds cap output received) (hgrow : cap ≤ cap')
    (hlimit : cap' ≤ mcpOutputBufferMax) (evict : Nat)
    (hroom : output.length - evict + valid.length ≤ cap')
    (hkeep : output.length + valid.length ≤ mcpOutputBufferMax → evict = 0) :
    Holds cap' (output.drop evict ++ valid) (received ++ valid) := by
  obtain ⟨front, rfl⟩ := h.suffix
  refine ⟨h.pos.trans_le hgrow, ?_, hlimit, ⟨front ++ output.take evict, ?_⟩, fun hall => ?_⟩
  · rwa [length_append, length_drop]
  · rw [← append_assoc, append_assoc front, take_append_drop]
  · simp only [length_append] at hall
    rw [hkeep (by omega), drop_zero, ← h.whole (by simp; omega)]

theorem growTo_spec (need : Nat) {fuel : Nat} (hlimit : cap ≤ mcpOutputBufferMax)
    (hfuel : mcpOutputBufferMax ≤ cap * 2 ^ fuel) :
    cap ≤ growTo need mcpOutputBufferMax fuel cap ∧
      growTo need mcpOutputBufferMax fuel cap ≤ mcpOutputBufferMax ∧
      (need ≤ growTo need mcpOutputBufferMax fuel cap ∨
        growTo need mcpOutputBufferMax fuel cap = mcpOutputBufferMax) := by
  induction fuel generalizing cap with
  | zero =>
    rw [Nat.pow_zero, Nat.mul_one] at hfuel
    exact ⟨le_rfl, hlimit, .inr (hlimit.antisymm hfuel)⟩
  | succ fuel ih =>
    rw [growTo]
    split_ifs with hgrow
    · have hnext : mcpOutputBufferMax ≤ min (cap * 2) mcpOutputBufferMax * 2 ^ fuel := by
        rcases min_choice (cap * 2) mcpOutputBufferMax with heq | heq
        · rwa [heq, Nat.mul_assoc, ← Nat.pow_succ']
        · rw [heq]
          exact Nat.le_mul_of_pos_right _ (Nat.two_pow_pos fuel)
      obtain ⟨hle, hmax, hneed⟩ := ih (min_le_right ..) hnext
      exact ⟨by omega, hmax, hneed⟩
    · exact ⟨le_rfl, hlimit, by omega⟩

end Buffer

inductive OutputOp where
  | output (data : Bytes)
  | drain

section Runs
variable {σ : Type} (put : σ → Bytes → σ) (drain : σ → Bytes × σ)

def runOps : List OutputOp → (received : Bytes) → σ → List (Bytes × Bytes) × σ
  | [], _, s => ([], s)
  | .output data :: ops, received, s => runOps ops (received ++ data.filter (· ≠ 0)) (put s data)
  | .drain :: ops, received, s =>
    let d := drain s
    let r := runOps ops [] d.2
    ((received, d.1) :: r.1, r.2)

def DrainOk (received text : Bytes) : Prop :=
  ∃ kept, kept <:+ received ∧ (received.length ≤ mcpOutputBufferMax → kept = received) ∧
    text = (drainOutput kept).1

theorem Holds.drainOk {cap : Nat} {output received : Bytes} (h : Holds cap output received) :
    DrainOk received (drainOutput output).1 :=
  ⟨output, h.suffix, h.whole, rfl⟩

theorem runOps_holds {Inv : σ → Bytes → Prop} {Ok : Bytes → Prop}
    (hput : ∀ s received data, Ok data → Inv s received →
      Inv (put s data) (received ++ data.filter (· ≠ 0)))
    (hdrain : ∀ s received, Inv s received → DrainOk received (drain s).1 ∧ Inv (drain s).2 [])
    {ops : List OutputOp} (hops : ∀ data, .output data ∈ ops → Ok data) {s : σ} {received : Bytes}
    (h : Inv s received) :
    let r := runOps put drain ops received s
    (∃ received', Inv r.2 received') ∧ ∀ drain ∈ r.1, DrainOk drain.1 drain.2 := by
  induction ops generalizing s received with
  | nil => exact ⟨⟨received, h⟩, nofun⟩
  | cons op ops ih =>
    have hrest : ∀ data, .output data ∈ ops → Ok data := fun data hmem =>
      hops data (mem_cons_of_mem _ hmem)
    cases op with
    | output data => exact ih hrest (hput s received data (hops data mem_cons_self) h)
    | drain =>
      obtain ⟨hdrained, hclear⟩ := hdrain s received h
      obtain ⟨hend, hdrains⟩ := ih hrest hclear
      exact ⟨hend, forall_mem_cons.mpr ⟨hdrained, hdrains⟩⟩

end Runs

theorem buffer_put (mcp : McpSink) (received data : Bytes) (hdata : data.length ≤ linkDrainChunk)
    (h : Holds mcp.outputCap mcp.output received) :
    Holds (mcpBufferOutput mcp data).outputCap (mcpBufferOutput mcp data).output
      (received ++ data.filter (· ≠ 0)) := by
  have hvalid : (data.filter (· ≠ 0)).length ≤ linkDrainChunk := (length_filter_le _ _).trans hdata
  have hchunk : linkDrainChunk ≤ mcpOutputBufferMax := by decide
  simp only [mcpBufferOutput]
  generalize data.filter (· ≠ 0) = valid at hvalid ⊢
  have hfuel : mcpOutputBufferMax ≤ mcp.outputCap * 2 ^ mcpOutputBufferMax.log2 :=
    Nat.le_mul_of_pos_left _ h.pos
  obtain ⟨hgrow, hlimit, hroom⟩ := growTo_spec (mcp.output.length + valid.length) h.limit hfuel
  split_ifs with hnone
  · rwa [hnone, append_nil]
  · refine h.push hgrow hlimit _ ?_ fun hfits => ?_
    · unfold evictCount
      split_ifs <;> omega
    · exact if_pos (by omega)

section Sink
variable {ρ : Type}

def sinkOutput (e : Env ρ) (b : Broker ρ) (data : Bytes) : Broker ρ :=
  (updateMcp (fun mcp => mcpBufferOutput mcp data) e b).2

def sinkDrain (e : Env ρ) (b : Broker ρ) : Bytes × Broker ρ :=
  match b.mcp with
  | some mcp => mcpDrainOutput mcp e b
  | none => ([], b)

def SinkHolds (b : Broker ρ) (received : Bytes) : Prop :=
  ∃ mcp, b.mcp = some mcp ∧ Holds mcp.outputCap mcp.output received

theorem sink_put (e : Env ρ) (b : Broker ρ) (received data : Bytes)
    (hdata : data.length ≤ linkDrainChunk) (h : SinkHolds b received) :
    SinkHolds (sinkOutput e b data) (received ++ data.filter (· ≠ 0)) := by
  obtain ⟨mcp, hmcp, hholds⟩ := h
  exact ⟨_, congrArg (Option.map fun mcp => mcpBufferOutput mcp data) hmcp,
    buffer_put mcp received data hdata hholds⟩

theorem sink_drain {e : Env ρ} (hmem : ∀ n, e.mem n = true) (b : Broker ρ) (received : Bytes)
    (h : SinkHolds b received) :
    DrainOk received (sinkDrain e b).1 ∧ SinkHolds (sinkDrain e b).2 [] := by
  obtain ⟨mcp, hmcp, hholds⟩ := h
  have hempty : Holds mcp.outputCap [] [] := .empty hholds.pos hholds.limit
  have hdrain : (sinkDrain e b).1 = (drainOutput mcp.output).1 ∧
      (sinkDrain e b).2.mcp = some { mcp with output := [] } := by
    unfold sinkDrain mcpDrainOutput drainOutput
    rw [hmcp]
    by_cases hnone : mcp.output = []
    · obtain ⟨output, _⟩ := mcp
      obtain rfl : output = [] := hnone
      exact ⟨rfl, hmcp⟩
    · simp [hnone, ask, hmem, updateMcp, hmcp]
  exact ⟨hdrain.1 ▸ hholds.drainOk, _, hdrain.2, hempty⟩

end Sink

theorem payload_length (b64 : Bytes) : (payload b64).length ≤ b64.length := by
  simp only [payload, base64Decode]
  generalize _ + (if b64.getD (b64.length - 2) 0 = padChar then 1 else 0) = pad
  split_ifs
  · simp
  · simp
  · simp
  · simp only [Option.getD_some, length_take]
    omega

theorem standalone_put (output received data : Bytes) (hdata : data.length ≤ lineLimit)
    (h : Holds outputBufferMax output received) :
    Holds outputBufferMax (bufferOutput output data) (received ++ data.filter (· ≠ 0)) := by
  have hvalid : (data.filter (· ≠ 0)).length ≤ lineLimit := (length_filter_le _ _).trans hdata
  have hline : lineLimit ≤ outputBufferMax := by decide
  have hmax : outputBufferMax = mcpOutputBufferMax := rfl
  simp only [bufferOutput]
  split_ifs with hnone hfull
  · rwa [hnone, append_nil]
  · exact h.push le_rfl le_rfl _ (by omega) fun hfits => by omega
  · exact h.push le_rfl le_rfl 0 (by omega) fun _ => rfl

/-- Both servers hold the end of the device output since the last drain, within the limit
and the capacity, and a drain returns that; nothing is lost as long as all of it fits. The
sink is fed chunks of the device, the standalone server the payloads of lines. -/
theorem output_buffers_hold_suffix {ρ : Type} (e : Env ρ) (hmem : ∀ n, e.mem n = true)
    (b : Broker ρ) (hnew : b.mcp = some mcpSinkNew) (chunks payloads : List OutputOp)
    (hchunks : ∀ data, .output data ∈ chunks → data.length ≤ linkDrainChunk)
    (hpayloads : ∀ data, .output data ∈ payloads →
      ∃ b64, b64.length ≤ lineLimit ∧ data = payload b64) :
    let sink := runOps (sinkOutput e) (sinkDrain e) chunks [] b
    let standalone := runOps bufferOutput drainOutput payloads [] []
    (∃ mcp, sink.2.mcp = some mcp ∧ mcp.output.length ≤ mcp.outputCap ∧
      mcp.outputCap ≤ 1048576) ∧
    (∀ drain ∈ sink.1, DrainOk drain.1 drain.2) ∧
    standalone.2.length ≤ outputBufferMax ∧ outputBufferMax ≤ 1048576 ∧
      ∀ drain ∈ standalone.1, DrainOk drain.1 drain.2 := by
  intro sink standalone
  have hpayload : ∀ data, .output data ∈ payloads → data.length ≤ lineLimit := by
    intro data hmem
    obtain ⟨b64, hline, rfl⟩ := hpayloads data hmem
    exact (payload_length b64).trans hline
  obtain ⟨⟨_, mcp, hmcp, hsink⟩, hsinkDrains⟩ := runOps_holds (sinkOutput e) (sinkDrain e)
    (sink_put e) (sink_drain hmem) hchunks
    ⟨_, hnew, Holds.empty (by decide) (by decide)⟩
  obtain ⟨⟨_, halone⟩, haloneDrains⟩ := runOps_holds bufferOutput drainOutput standalone_put
    (fun _ _ h => ⟨h.drainOk, .empty h.pos h.limit⟩) hpayload
    (Holds.empty (by decide) (by decide))
  exact ⟨⟨mcp, hmcp, hsink.fits, hsink.limit⟩, hsinkDrains, halone.fits, halone.limit,
    haloneDrains⟩

theorem output_buffers_hold_suffix_drain :
    let sink := runOps (sinkOutput plainEnv) (sinkDrain plainEnv)
      [.output [104, 0, 105], .output [10], .drain, .drain] [] (plainInit [])
    let standalone := runOps bufferOutput drainOutput
      [.output (payload (ascii "aABp")), .output (payload (ascii "Cg==")), .drain, .drain] [] []
    sink.1.map Prod.snd = [ascii "hi\n", ascii "(no output)"] ∧
    standalone.1.map Prod.snd = [ascii "hi\n", ascii "(no output)"] ∧
    (∀ drain ∈ sink.1, DrainOk drain.1 drain.2) ∧
      ∀ drain ∈ standalone.1, DrainOk drain.1 drain.2 := by
  intro sink standalone
  have h := output_buffers_hold_suffix plainEnv (fun _ => rfl) (plainInit []) rfl
    [.output [104, 0, 105], .output [10], .drain, .drain]
    [.output (payload (ascii "aABp")), .output (payload (ascii "Cg==")), .drain, .drain]
    (by simp [linkDrainChunk]) ?_
  · exact ⟨by decide +kernel, by decide +kernel, h.2.1, h.2.2.2.2⟩
  · simp only [mem_cons, OutputOp.output.injEq, reduceCtorEq, or_false, not_mem_nil]
    rintro data (rfl | rfl)
    · exact ⟨_, by decide, rfl⟩
    · exact ⟨_, by decide, rfl⟩

end Smolmux.Mcp
