/-
The generation loop of `reasoning/reasoning_generate.c`: the prompt with its suffix, the forward pass of each
step, the next token, the pieces given to the thought filter, and the end-of-sequence check.
-/
import BitForge.Reasoning.ThoughtFilter
import BitForge.Transformer.Launch

namespace BitForge.Reasoning

open BitForge.Lib BitForge.Transformer

def reasoningSuffix : List UInt8 :=
  0x0A :: ascii "Think step-by-step inside <think> and </think> tags before answering."

/-- `inject_reasoning_prompt`. -/
def injectReasoningPrompt (userPrompt : List UInt8) (maxLen : Nat) : List UInt8 :=
  let copied := userPrompt.take (maxLen - 1)
  let remaining := maxLen - copied.length - 1
  copied ++ reasoningSuffix.take remaining

/-- The end-of-sequence check of `generate_with_reasoning`. -/
def isEosReasoning (tok : Transformer.Tokenizer) (next : Int) : Bool :=
  tok.eosList.any (next == ·) || (tok.eosTokenId ≥ 0 && next == tok.eosTokenId)

/-- The sampling of `generate_with_reasoning`, which asks for another temperature of its `greedy` branch. -/
def sampleReasoning {L : Type} (greedy : Bool) (smp : Sampling L) (step : Nat) (logits : L) : Int × L :=
  if greedy then (smp.sampleArgmax logits, logits)
  else
    let logits := smp.applyTemperature logits
    if smp.nucleus then (smp.sampleTopP step logits, logits) else (smp.sampleArgmax logits, logits)

/-- The variables of the loop, and the pieces given to the filter. -/
structure ReasoningState (F X L C R : Type) where
  s : RunState F X L C R
  step : Nat
  token : Int
  pos : Int
  pieces : List (List UInt8)

section

variable {F X L C R : Type} (K : Kernels F X L C R) (cfg : Config) (tok : Transformer.Tokenizer) (greedy : Bool) (smp : Sampling L)
variable (promptTokens : List Int)

/-- One step of the loop, and whether it breaks. -/
def reasoningStep (g : ReasoningState F X L C R) : ReasoningState F X L C R × Bool :=
  let s := transformerForward K cfg none g.token g.pos g.s
  let (next, logits) :=
    if g.step + 1 < promptTokens.length ∧ g.step + 1 < 512 then (promptTokens.getD (g.step + 1) 0, s.logits)
    else sampleReasoning greedy smp g.step s.logits
  let g := { g with
    s := { s with logits := logits }
    pieces := if (g.step : Int) ≥ promptTokens.length - 1 then g.pieces ++ (tok.decode g.token next).toList else g.pieces }
  if isEosReasoning tok next then (g, true)
  else
    ({ g with
      token := next
      pos := g.pos + 1
      step := g.step + 1 }, false)

/-- The loop, with a bound on its remaining steps. -/
def reasoningLoop : Nat → ReasoningState F X L C R → ReasoningState F X L C R
  | 0, g => g
  | n + 1, g =>
    match reasoningStep K cfg tok greedy smp promptTokens g with
    | (g, true) => g
    | (g, false) => reasoningLoop n g

/-- The states in which the loop starts a forward pass. -/
def reasoningStates : Nat → ReasoningState F X L C R → List (ReasoningState F X L C R)
  | 0, _ => []
  | n + 1, g => g ::
    match reasoningStep K cfg tok greedy smp promptTokens g with
    | (_, true) => []
    | (g, false) => reasoningStates n g

/-- The state before the loop of `generate_with_reasoning`. -/
def reasoningInit (s : RunState F X L C R) : ReasoningState F X L C R :=
  { s := { s with kv := { s.kv with sw := Kv.swInit s.maxSeqLen promptTokens.length } }
    step := 0
    token := promptTokens.getD 0 0
    pos := 0
    pieces := [] }

end

/-- `generate_with_reasoning`: the state it leaves and what it prints. -/
def generateWithReasoning {F X L C R : Type} (K : Kernels F X L C R) (cfg : Config) (tok : Transformer.Tokenizer) (greedy : Bool)
    (smp : Sampling L) (prompt : List UInt8) (maxTokens : Int) (s : RunState F X L C R) :
    RunState F X L C R × List UInt8 :=
  match tok.encode (injectReasoningPrompt prompt 4096) 512 with
  | none => (s, [])
  | some promptTokens =>
    if promptTokens.length = 0 then (s, [])
    else
      let g := reasoningLoop K cfg tok greedy smp promptTokens maxTokens.toNat (reasoningInit promptTokens s)
      (g.s, printPieces thoughtFilterInit g.pieces)

/-- Its states in which it starts a forward pass. -/
def reasoningReached {F X L C R : Type} (K : Kernels F X L C R) (cfg : Config) (tok : Transformer.Tokenizer) (greedy : Bool)
    (smp : Sampling L) (prompt : List UInt8) (maxTokens : Int) (s : RunState F X L C R) :
    List (ReasoningState F X L C R) :=
  match tok.encode (injectReasoningPrompt prompt 4096) 512 with
  | none => []
  | some promptTokens =>
    if promptTokens.length = 0 then []
    else reasoningStates K cfg tok greedy smp promptTokens maxTokens.toNat (reasoningInit promptTokens s)

section

variable {F X L C R : Type} (K : Kernels F X L C R) (cfg : Config) (tok : Transformer.Tokenizer) (greedy : Bool) (smp : Sampling L)
variable (promptTokens : List Int)

theorem reasoningStep_frame (g : ReasoningState F X L C R) :
    SameFrame g.s (reasoningStep K cfg tok greedy smp promptTokens g).1.s ∧
      ((reasoningStep K cfg tok greedy smp promptTokens g).2 = false →
        (reasoningStep K cfg tok greedy smp promptTokens g).1.step = g.step + 1 ∧
        (reasoningStep K cfg tok greedy smp promptTokens g).1.pos = g.pos + 1) := by
  have hframe := transformerForward_frame K cfg none g.token g.pos g.s
  unfold reasoningStep
  dsimp only
  split_ifs
  all_goals
    constructor
    · exact ⟨hframe.currentPos, hframe.maxSeqLen, hframe.sizes⟩
    · first
        | exact fun _ => ⟨rfl, rfl⟩
        | exact nofun

/-- The loop keeps the sizes of the caches and of the window; its position is its step. -/
theorem reasoningStates_frame : ∀ (n : Nat) (g : ReasoningState F X L C R), g.pos = g.step →
    ∀ h ∈ reasoningStates K cfg tok greedy smp promptTokens n g,
      SameFrame g.s h.s ∧ h.pos = h.step ∧ h.step < g.step + n
  | 0, g => fun _ h hh => absurd hh List.not_mem_nil
  | n + 1, g => by
    intro hpos h hh
    obtain ⟨hframe, hnext⟩ := reasoningStep_frame K cfg tok greedy smp promptTokens g
    unfold reasoningStates at hh
    rcases List.mem_cons.1 hh with rfl | hh
    · exact ⟨SameFrame.refl _, hpos, by omega⟩
    · rcases hstep : reasoningStep K cfg tok greedy smp promptTokens g with ⟨g', stops⟩
      rw [hstep] at hframe hnext hh
      cases stops with
      | true => exact absurd hh List.not_mem_nil
      | false =>
        obtain ⟨hone, hpos'⟩ : g'.step = g.step + 1 ∧ g'.pos = g.pos + 1 := hnext rfl
        obtain ⟨hframe', heq, hlt⟩ := reasoningStates_frame n g' (by omega) h hh
        exact ⟨hframe.trans hframe', heq, by omega⟩

end

end BitForge.Reasoning
