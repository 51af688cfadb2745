/-
The generation loop of `transformer/generate.c`: the tokens of the prompt, the forward pass of each
step, the sampled token, the end-of-sequence check and the callback. Tokenizer, sampling kernels
and callback are parameters.
-/
import BitForge.Transformer.Forward

namespace BitForge.Transformer

/-- `Tokenizer`: its functions, and the fields that the loops read. -/
structure Tokenizer where
  /-- `tokenizer_encode` with its `max_tokens`; `none` is a negative result -/
  encode : List UInt8 → Int → Option (List Int)
  /-- `tokenizer_decode` with its `prev_token` -/
  decode : Int → Int → Option (List UInt8)
  /-- `tokenizer_find_id` -/
  findId : List UInt8 → Int
  vocab : List (List UInt8)
  chatTemplate : Option (List UInt8)
  /-- `chat_template_apply` of the template to one user message, with the texts of BOS and EOS -/
  chatTemplateApply : List UInt8 → List UInt8 → List UInt8 → List UInt8 → Option (List UInt8)
  bosTokenId : Int
  eosTokenId : Int
  eosList : List Int

/-- The sampling parameters of a request and its kernels on logits. The random numbers are fixed
by the request: a kernel that draws one is given the step. -/
structure Sampling (L : Type) where
  /-- `temperature <= 0.0f || temperature < 1e-6f` -/
  greedy : Bool
  /-- `top_p < 1.0f && top_p > 0.0f` -/
  nucleus : Bool
  sampleArgmax : L → Int
  applyTemperature : L → L
  sampleTopP : Nat → L → Int
  softmax : L → L
  /-- the first token at which the cumulated probability exceeds the random number -/
  pickCdf : Nat → L → Int

/-- The sampling step: the token, and the logits, which temperature and softmax change in place. -/
def sampleNext {L : Type} (smp : Sampling L) (step : Nat) (logits : L) : Int × L :=
  if smp.greedy then (smp.sampleArgmax logits, logits)
  else
    let logits := smp.applyTemperature logits
    if smp.nucleus then (smp.sampleTopP step logits, logits)
    else
      let logits := smp.softmax logits
      (smp.pickCdf step logits, logits)

/-- The string of a token id, `""` where it is not in the vocabulary. -/
def vocabString (tok : Tokenizer) (id : Int) : List UInt8 :=
  if 0 ≤ id ∧ id < tok.vocab.length then tok.vocab.getD id.toNat [] else []

/-- The prompt tokens of `generate_with_callback`. -/
def encodePrompt (cfg : Config) (tok : Tokenizer) (prompt : List UInt8) : Option (List Int) :=
  match tok.chatTemplate with
  | some template =>
    (tok.chatTemplateApply template prompt (vocabString tok tok.bosTokenId) (vocabString tok tok.eosTokenId)).bind
      fun formatted => tok.encode formatted cfg.seqLen
  | none =>
    let bos := if cfg.bosTokenId > 0 then cfg.bosTokenId else if tok.bosTokenId ≥ 0 then tok.bosTokenId else -1
    let start := if bos ≥ 0 then [bos] else []
    (tok.encode prompt (cfg.seqLen - start.length)).map (start ++ ·)

/-- The end-of-sequence check of `generate_with_callback`. -/
def isEos (cfg : Config) (tok : Tokenizer) (next : Int) : Bool :=
  (cfg.eosTokenId > 0 && next == cfg.eosTokenId) || tok.eosList.any (next == ·)

/-- The variables of the loop, the calls of the forward pass and the pieces given to the callback. -/
structure GenState (F X L C R : Type) where
  s : RunState F X L C R
  step : Nat
  prevToken : Int
  next : Int
  tokensGenerated : Nat
  calls : List (Call L)
  emitted : List (List UInt8)

section

variable {F X L C R : Type} (K : Kernels F X L C R) (cfg : Config) (mc : Option MoEConfig) (tok : Tokenizer)
variable (smp : Sampling L) (callback : Nat → List UInt8 → Bool) (promptTokens : List Int) (posOffset : Int)

/-- A forward pass of the loop and the call it makes. -/
def GenState.forward (g : GenState F X L C R) : GenState F X L C R :=
  let absPos := g.step + posOffset
  let token := if g.step < promptTokens.length then promptTokens.getD g.step 0 else g.next
  let s := transformerForward K cfg mc token absPos g.s
  { g with
    s := s
    calls := g.calls ++ [⟨token, absPos, s.logits⟩] }

/-- One step of the loop, and whether it breaks. -/
def generateStep (g : GenState F X L C R) : GenState F X L C R × Bool :=
  let g := g.forward K cfg mc promptTokens posOffset
  if g.step + 1 < promptTokens.length then
    let next := promptTokens.getD (g.step + 1) 0
    ({ g with
      next := next
      prevToken := next
      step := g.step + 1 }, false)
  else
    -- full prompt processed, sample from logits
    let (next, logits) := sampleNext smp g.step g.s.logits
    let g := { g with
      s := { g.s with logits := logits }
      next := next }
    if isEos cfg tok next then (g, true)
    else
      let piece := tok.decode g.prevToken next
      let stopRequested := match piece with
        | some piece => callback g.emitted.length piece
        | none => false
      let g := { g with
        emitted := g.emitted ++ piece.toList
        tokensGenerated := g.tokensGenerated + 1 }
      if stopRequested then (g, true)
      else
        ({ g with
          prevToken := next
          step := g.step + 1 }, false)

/-- The loop, with a bound on its remaining steps. -/
def generateLoop : Nat → GenState F X L C R → GenState F X L C R
  | 0, g => g
  | n + 1, g =>
    match generateStep K cfg mc tok smp callback promptTokens posOffset g with
    | (g, true) => g
    | (g, false) => generateLoop n g

end

/-- `generate_with_callback`. -/
def generateWithCallback {F X L C R : Type} (K : Kernels F X L C R) (cfg : Config) (mc : Option MoEConfig)
    (tok : Tokenizer) (smp : Sampling L) (callback : Nat → List UInt8 → Bool) (prompt : List UInt8) (maxTokens : Int)
    (s : RunState F X L C R) : RunState F X L C R × List (Call L) × List (List UInt8) :=
  match encodePrompt cfg tok prompt with
  | none => (s, [], [])
  | some promptTokens =>
    -- skip over any vision tokens already pre-filled in the KV cache
    let posOffset := s.currentPos
    let nPrompt : Int := promptTokens.length
    let s := { s with kv := { s.kv with sw := Kv.swInit s.maxSeqLen (nPrompt + posOffset) } }
    let totalSteps := nPrompt + maxTokens
    let g := generateLoop K cfg mc tok smp callback promptTokens posOffset (min totalSteps (cfg.seqLen - posOffset)).toNat
      { s := s
        step := 0
        prevToken := -1
        next := 0
        tokensGenerated := 0
        calls := []
        emitted := [] }
    (g.s, g.calls, g.emitted)

end BitForge.Transformer
