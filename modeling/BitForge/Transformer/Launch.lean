/-
The sizes that `main.c` chooses before a run: the context length that `select_kv_strategy` gives, and the
length of the caches, which `q35_run_state_alloc` may lower.
-/
import BitForge.Kv.Strategy
import BitForge.Lib.Bytes
import BitForge.Transformer.Generate

namespace BitForge.Transformer

open BitForge.Lib BitForge.Kv

/-- The fields that `select_kv_strategy` reads. -/
def Config.sizes (cfg : Config) : SizeConfig :=
  { seqLen := cfg.seqLen
    nLayers := cfg.nLayers
    nHeads := cfg.nHeads
    nKvHeads := cfg.nKvHeads
    dim := cfg.dim }

def fixedBudgetBytes : Int := 600000000

/-- The full-attention layers of a hybrid model. -/
def nFullLayers (cfg : Config) (mc : MoEConfig) : Nat := (List.range cfg.nLayers).countP (q35LayerIsFullAttn mc)

/-- The clamp of `q35_run_state_alloc`. -/
def q35ClampSeqLen (cfg : Config) (mc : MoEConfig) (maxSeqLen : Int) : Int :=
  let perPosBytes : Int := cfg.nKvHeads * mc.attnHeadDim * 2 * 4 * nFullLayers cfg mc
  if perPosBytes > 0 then
    let safeMax := fixedBudgetBytes.tdiv perPosBytes
    let safeMax := if safeMax < 256 then 256 else safeMax
    if maxSeqLen > narrow safeMax then narrow safeMax else maxSeqLen
  else maxSeqLen

/-- The configuration of a run: `p.seq_len = kv_res.max_seq_len`. -/
def launchConfig (cfg : Config) (freeRam : Int) (mc : Option MoEConfig) : Option Config := do
  let kvRes ← selectKvStrategy cfg.sizes freeRam (mc.map fun mc => (mc.attnHeadDim : Int))
  some { cfg with seqLen := kvRes.maxSeqLen }

/-- `s->max_seq_len` after the allocations of `main.c`, for the configuration of the run. -/
def launchMaxSeqLen (cfg : Config) (mc : Option MoEConfig) : Int :=
  match mc with
  | some mc => if mc.hasLinearAttn then q35ClampSeqLen cfg mc cfg.seqLen else cfg.seqLen
  | none => cfg.seqLen

/-- Only the hybrid models have a cache shorter than the context. -/
theorem launchMaxSeqLen_eq {cfg : Config} {mc : Option MoEConfig} (h : ∀ m ∈ mc, m.hasLinearAttn = false) :
    launchMaxSeqLen cfg mc = cfg.seqLen := by
  unfold launchMaxSeqLen
  cases mc with
  | none => rfl
  | some m =>
    dsimp only
    rw [h m rfl, if_neg Bool.false_ne_true]

/-! ## The states that a run reaches -/

section

variable {F X L C R : Type} (K : Kernels F X L C R) (cfg : Config) (mc : Option MoEConfig) (tok : Tokenizer)
variable (smp : Sampling L) (callback : Nat → List UInt8 → Bool) (promptTokens : List Int) (posOffset : Int)

/-- The states in which the loop starts a forward pass. -/
def generateStates : Nat → GenState F X L C R → List (GenState F X L C R)
  | 0, _ => []
  | n + 1, g => g ::
    match generateStep K cfg mc tok smp callback promptTokens posOffset g with
    | (_, true) => []
    | (g, false) => generateStates n g

theorem generateStep_positions (g : GenState F X L C R) :
    (generateStep K cfg mc tok smp callback promptTokens posOffset g).1.calls.map Call.pos =
      g.calls.map Call.pos ++ [g.step + posOffset] := by
  have hforward : (g.forward K cfg mc promptTokens posOffset).calls.map Call.pos =
      g.calls.map Call.pos ++ [g.step + posOffset] := by
    rw [GenState.forward, List.map_append]
    rfl
  unfold generateStep
  dsimp only
  split_ifs <;> exact hforward

/-- The forward passes of the loop are those of the states it reaches. -/
theorem generateLoop_positions : ∀ (n : Nat) (g : GenState F X L C R),
    (generateLoop K cfg mc tok smp callback promptTokens posOffset n g).calls.map Call.pos =
      g.calls.map Call.pos ++
        (generateStates K cfg mc tok smp callback promptTokens posOffset n g).map fun g => g.step + posOffset
  | 0, g => (List.append_nil _).symm
  | n + 1, g => by
    have hcalls := generateStep_positions K cfg mc tok smp callback promptTokens posOffset g
    unfold generateLoop generateStates
    rcases hstep : generateStep K cfg mc tok smp callback promptTokens posOffset g with ⟨g', stops⟩
    rw [hstep] at hcalls
    cases stops with
    | true => exact hcalls
    | false =>
      dsimp only
      rw [generateLoop_positions n g', hcalls, List.append_assoc]
      rfl

/-- What a forward pass and a step of the loop leave unchanged. -/
theorem generateStep_frame (g : GenState F X L C R) :
    SameFrame g.s (generateStep K cfg mc tok smp callback promptTokens posOffset g).1.s ∧
      ((generateStep K cfg mc tok smp callback promptTokens posOffset g).2 = false →
        (generateStep K cfg mc tok smp callback promptTokens posOffset g).1.step = g.step + 1) := by
  have hframe : SameFrame g.s (g.forward K cfg mc promptTokens posOffset).s := transformerForward_frame K cfg mc _ _ _
  unfold generateStep
  dsimp only
  split_ifs
  · exact ⟨hframe, fun _ => rfl⟩
  · exact ⟨⟨hframe.currentPos, hframe.maxSeqLen, hframe.sizes⟩, nofun⟩
  · exact ⟨⟨hframe.currentPos, hframe.maxSeqLen, hframe.sizes⟩, nofun⟩
  · exact ⟨⟨hframe.currentPos, hframe.maxSeqLen, hframe.sizes⟩, fun _ => rfl⟩

/-- The loop keeps the sizes of the caches and of the window, and stays below its bound. -/
theorem generateStates_frame : ∀ (n : Nat) (g : GenState F X L C R),
    ∀ h ∈ generateStates K cfg mc tok smp callback promptTokens posOffset n g,
      SameFrame g.s h.s ∧ g.step ≤ h.step ∧ h.step < g.step + n
  | 0, g => fun h hh => absurd hh List.not_mem_nil
  | n + 1, g => by
    intro h hh
    obtain ⟨hframe, hnext⟩ := generateStep_frame K cfg mc tok smp callback promptTokens posOffset g
    unfold generateStates at hh
    rcases List.mem_cons.1 hh with rfl | hh
    · exact ⟨SameFrame.refl _, le_refl _, by omega⟩
    · rcases hstep : generateStep K cfg mc tok smp callback promptTokens posOffset g with ⟨g', stops⟩
      rw [hstep] at hframe hnext hh
      cases stops with
      | true => exact absurd hh List.not_mem_nil
      | false =>
        obtain ⟨hframe', hle, hlt⟩ := generateStates_frame n g' h hh
        have hone : g'.step = g.step + 1 := hnext rfl
        exact ⟨hframe.trans hframe', by omega, by omega⟩

/-- The whole prompt is fed. -/
theorem generateStates_prompt : ∀ (n : Nat) (g : GenState F X L C R) (j : Nat), g.step ≤ j → j < g.step + n →
    j < promptTokens.length → ∃ h ∈ generateStates K cfg mc tok smp callback promptTokens posOffset n g, h.step = j
  | 0, g, j => fun h0 h1 _ => by omega
  | n + 1, g, j => by
    intro h0 h1 hj
    unfold generateStates
    by_cases hhere : g.step = j
    · exact ⟨g, List.mem_cons_self, hhere⟩
    · have hnext : generateStep K cfg mc tok smp callback promptTokens posOffset g = ((generateStep K cfg mc tok smp callback
          promptTokens posOffset g).1, false) ∧
          (generateStep K cfg mc tok smp callback promptTokens posOffset g).1.step = g.step + 1 := by
        unfold generateStep
        have hprompt : (g.forward K cfg mc promptTokens posOffset).step + 1 < promptTokens.length := by
          change g.step + 1 < _
          omega
        dsimp only
        rw [if_pos hprompt]
        exact ⟨rfl, rfl⟩
      obtain ⟨heq, hone⟩ := hnext
      obtain ⟨h, hmem, hstep⟩ := generateStates_prompt n _ j (by rw [hone]; omega) (by rw [hone]; omega) hj
      refine ⟨h, List.mem_cons_of_mem _ ?_, hstep⟩
      rw [heq]
      exact hmem

end

/-- The states of `generate_with_callback` in which it starts a forward pass. -/
def callbackStates {F X L C R : Type} (K : Kernels F X L C R) (cfg : Config) (mc : Option MoEConfig) (tok : Tokenizer)
    (smp : Sampling L) (callback : Nat → List UInt8 → Bool) (prompt : List UInt8) (maxTokens : Int)
    (s : RunState F X L C R) : List (GenState F X L C R) :=
  match encodePrompt cfg tok prompt with
  | none => []
  | some promptTokens =>
    generateStates K cfg mc tok smp callback promptTokens s.currentPos
      (min (promptTokens.length + maxTokens) (cfg.seqLen - s.currentPos)).toNat
      { s := { s with kv := { s.kv with sw := Kv.swInit s.maxSeqLen (promptTokens.length + s.currentPos) } }
        step := 0
        prevToken := -1
        next := 0
        tokensGenerated := 0
        calls := []
        emitted := [] }

/-- Its forward passes are those of these states. -/
theorem callbackStates_calls {F X L C R : Type} (K : Kernels F X L C R) (cfg : Config) (mc : Option MoEConfig)
    (tok : Tokenizer) (smp : Sampling L) (callback : Nat → List UInt8 → Bool) (prompt : List UInt8) (maxTokens : Int)
    (s : RunState F X L C R) :
    (generateWithCallback K cfg mc tok smp callback prompt maxTokens s).2.1.map Call.pos =
      (callbackStates K cfg mc tok smp callback prompt maxTokens s).map fun g => g.step + s.currentPos := by
  unfold generateWithCallback callbackStates
  cases encodePrompt cfg tok prompt with
  | none => rfl
  | some promptTokens =>
    dsimp only
    rw [generateLoop_positions]
    rfl

end BitForge.Transformer
