/-
The forward pass of `transformer/forward.c`: which parts of `RunState` it reads and writes, for
each attention family. The floating-point kernels are parameters: functions of what they read.
-/
import BitForge.Kv.Cache
import BitForge.Moe.Freshness

namespace BitForge.Transformer

open BitForge.Lib BitForge.Kv

/-- `Config`, its fields that the loops and the attention functions use. -/
structure Config where
  dim : Nat
  nLayers : Nat
  nHeads : Nat
  nKvHeads : Nat
  vocabSize : Int
  seqLen : Int
  bosTokenId : Int
  eosTokenId : Int
deriving DecidableEq, Repr

def configHeadDim (cfg : Config) : Nat := cfg.dim / cfg.nHeads

/-- `MoEConfig`, its fields that select the attention function, lay out its cache and select the layers with experts. -/
structure MoEConfig where
  hasMla : Bool
  qkNopeHeadDim : Nat
  qkRopeHeadDim : Nat
  vHeadDim : Nat
  hasLinearAttn : Bool
  fullAttentionInterval : Nat
  attnHeadDim : Nat
  hasQkNorm : Bool
  isMoe : Bool := false
  firstKDenseReplace : Int := 0
  nSharedExperts : Int := 0
deriving DecidableEq, Repr

/-- `moe_layer_is_moe`. -/
def moeLayerIsMoe (mc : Option MoEConfig) (layer : Nat) : Bool :=
  match mc with
  | some mc => mc.isMoe && decide (mc.firstKDenseReplace ≤ layer)
  | none => false

/-- `q35_layer_is_full_attn`. -/
def q35LayerIsFullAttn (mc : MoEConfig) (layer : Nat) : Bool :=
  if mc.hasLinearAttn then
    let interval := if mc.fullAttentionInterval > 0 then mc.fullAttentionInterval else 4
    (layer + 1) % interval = 0
  else false

/-- The types of the experts' weights in `TransformerWeights`, by which `moe_ffn_forward` decides whether it fills and
whether it reads its static buffer. -/
structure ExpertTypes where
  hasExpertQuant : Bool := false
  expertW13QuantType : Int := 0
  sharedW1Type : Nat → Option Int := fun _ => none
  sharedW3Type : Nat → Option Int := fun _ => none
  sharedW1 : Nat → Bool := fun _ => false

/-- `RunState`, without the scratch buffers that each kernel fills before it reads them: `F` is a
float of the caches, `X` an activation vector, `L` a vector of logits, `C` and `R` the convolution
and the recurrent state of a linear-attention layer. `s_xb_q8k`, the static buffer of `moe_ffn.c`, is
a part of the state: it holds the vector that has last been quantized into it. -/
structure RunState (F X L C R : Type) where
  x : X
  logits : L
  kv : KvState F
  q35ConvState : Nat → C
  q35RecurState : Nat → R
  currentPos : Int
  maxSeqLen : Int
  xbQ8k : Option X := none

/-- The computations on floats, with the weights and the configuration they use. -/
structure Kernels (F X L C R : Type) where
  /-- `embed_token` -/
  embedToken : Int → X
  /-- the key and value buffers of an attention layer: norm, projections, rotary embedding -/
  project : AttnFamily → Nat → Int → X → Nat → Nat → F
  /-- the new activation from the history of keys and values: scores, weighted sum, residual -/
  attend : AttnFamily → Nat → Int → X → List (List (List F)) → X
  /-- `q35_linear_attn_forward` -/
  linearAttn : Nat → X → C → R → X × C × R
  /-- the norm at the start of `moe_ffn_forward` -/
  ffnNorm : Nat → X → X := fun _ x => x
  expertTypes : ExpertTypes := {}
  /-- `ffn_forward`, with what the kernels of the experts find in the static buffer -/
  ffn : Option MoEConfig → Nat → X → Option X → X
  /-- the final norm -/
  finalNorm : X → X
  /-- the classifier -/
  classify : X → L

/-- The attention function that `attention_forward` calls for a layer; none is the linear one. -/
def attnFamily (mc : Option MoEConfig) (layer : Nat) : Option AttnFamily :=
  match mc with
  | none => some .generic
  | some mc =>
    if mc.hasMla then some (.mla mc.qkNopeHeadDim mc.qkRopeHeadDim mc.vHeadDim)
    else if mc.hasLinearAttn then if q35LayerIsFullAttn mc layer then some .q35 else none
    else if mc.hasQkNorm then some .qwen3moe
    else some .generic

/-- The layout of the caches of a family. -/
def kvGeometry (cfg : Config) (mc : Option MoEConfig) (maxSeqLen : Int) (fam : AttnFamily) : KvGeometry :=
  { nKvHeads := cfg.nKvHeads
    maxSeqLen := maxSeqLen
    headDim := match fam, mc with
      | .q35, some mc | .qwen3moe, some mc => mc.attnHeadDim
      | _, _ => configHeadDim cfg }

section

variable {F X L C R : Type} (K : Kernels F X L C R) (cfg : Config) (mc : Option MoEConfig)

def attentionForward (layer : Nat) (pos : Int) (s : RunState F X L C R) : RunState F X L C R :=
  match attnFamily mc layer with
  | some fam =>
    let g := kvGeometry cfg mc s.maxSeqLen fam
    let kv := kvStore g fam s.kv layer pos (K.project fam layer pos s.x)
    { s with
      kv := kv
      x := K.attend fam layer pos s.x (kvReads g fam kv layer pos) }
  | none =>
    let (x, conv, recur) := K.linearAttn layer s.x (s.q35ConvState layer) (s.q35RecurState layer)
    { s with
      x := x
      q35ConvState := Function.update s.q35ConvState layer conv
      q35RecurState := Function.update s.q35RecurState layer recur }

/-- A call of `moe_ffn_forward`, as far as the static buffer is concerned. The experts selected make no difference to it, and
it is allocated. -/
def ffnCall (mc : MoEConfig) (layer : Nat) : Moe.FfnCall :=
  { dim := cfg.dim
    nSharedExperts := mc.nSharedExperts
    hasExpertQuant := K.expertTypes.hasExpertQuant
    expertW13QuantType := K.expertTypes.expertW13QuantType
    sharedW1Type := K.expertTypes.sharedW1Type layer
    sharedW3Type := K.expertTypes.sharedW3Type layer
    sharedW1 := K.expertTypes.sharedW1 layer
    validK := 1
    alloc := true }

/-- The layers with experts, each with its call. -/
def moeCall (layer : Nat) : Option Moe.FfnCall :=
  if moeLayerIsMoe mc layer then mc.map fun mc => ffnCall K cfg mc layer else none

/-- `ffn_forward`: a layer with experts may quantize its input into the static buffer, and may read the buffer. -/
def ffnForward (layer : Nat) (s : RunState F X L C R) : RunState F X L C R :=
  match moeCall K cfg mc layer with
  | none => { s with x := K.ffn mc layer s.x none }
  | some c =>
    let xbQ8k := if 0 < c.nBlocks ∧ c.Quantizes then some (K.ffnNorm layer s.x) else s.xbQ8k
    { s with
      x := K.ffn mc layer s.x (if 0 < c.nBlocks ∧ (c.Quantizes ∨ c.SharedReads) then xbQ8k else none)
      xbQ8k := xbQ8k }

/-- The layers `0 .. n - 1`. -/
def layersForward (pos : Int) : Nat → RunState F X L C R → RunState F X L C R
  | 0, s => s
  | n + 1, s => ffnForward K cfg mc n (attentionForward K cfg mc n pos (layersForward pos n s))

/-- `transformer_forward` returns the logits of the state. A negative token stands for an
activation that the caller has written to `s->x`. -/
def transformerForward (token pos : Int) (s : RunState F X L C R) : RunState F X L C R :=
  if 0 ≤ token ∧ cfg.vocabSize ≤ token then s
  else
    let s := if 0 ≤ token then { s with x := K.embedToken token } else s
    let s := layersForward K cfg mc pos cfg.nLayers s
    let x := K.finalNorm s.x
    { s with
      x := x
      logits := K.classify x }

end

/-- A call of `transformer_forward`: its token, its position, and the logits it returns. -/
structure Call (L : Type) where
  token : Int
  pos : Int
  logits : L
deriving DecidableEq, Repr

/-! ## What a forward pass leaves unchanged -/

section

variable {F X L C R : Type} (K : Kernels F X L C R) (cfg : Config) (mc : Option MoEConfig)

/-- The parts of the state that no forward pass writes. -/
structure SameFrame (s s' : RunState F X L C R) : Prop where
  currentPos : s'.currentPos = s.currentPos
  maxSeqLen : s'.maxSeqLen = s.maxSeqLen
  sizes : SameSizes s.kv.sw s'.kv.sw

theorem SameFrame.refl (s : RunState F X L C R) : SameFrame s s := ⟨rfl, rfl, SameSizes.refl _⟩

theorem SameFrame.trans {s t u : RunState F X L C R} (h : SameFrame s t) (h' : SameFrame t u) : SameFrame s u where
  currentPos := h'.currentPos.trans h.currentPos
  maxSeqLen := h'.maxSeqLen.trans h.maxSeqLen
  sizes := ⟨h'.sizes.1.trans h.sizes.1, h'.sizes.2.trans h.sizes.2⟩

theorem attentionForward_frame (layer : Nat) (pos : Int) (s : RunState F X L C R) :
    SameFrame s (attentionForward K cfg mc layer pos s) := by
  unfold attentionForward
  split
  · exact ⟨rfl, rfl, (SameSizes.refl _).advance⟩
  · exact ⟨rfl, rfl, SameSizes.refl _⟩

theorem ffnForward_frame (layer : Nat) (s : RunState F X L C R) : SameFrame s (ffnForward K cfg mc layer s) := by
  unfold ffnForward
  split <;> exact ⟨rfl, rfl, SameSizes.refl _⟩

theorem layersForward_frame (pos : Int) : ∀ (n : Nat) (s : RunState F X L C R),
    SameFrame s (layersForward K cfg mc pos n s)
  | 0, s => SameFrame.refl s
  | n + 1, s => by
    have h := (layersForward_frame pos n s).trans (attentionForward_frame K cfg mc n pos _)
    exact h.trans (ffnForward_frame K cfg mc n _)

theorem transformerForward_frame (token pos : Int) (s : RunState F X L C R) :
    SameFrame s (transformerForward K cfg mc token pos s) := by
  unfold transformerForward
  split
  · exact SameFrame.refl s
  · have hx : SameFrame s (if 0 ≤ token then { s with x := K.embedToken token } else s) := by
      split <;> exact ⟨rfl, rfl, SameSizes.refl _⟩
    have h := hx.trans (layersForward_frame K cfg mc pos cfg.nLayers _)
    exact ⟨h.currentPos, h.maxSeqLen, h.sizes⟩

@[simp] theorem transformerForward_currentPos (token pos : Int) (s : RunState F X L C R) :
    (transformerForward K cfg mc token pos s).currentPos = s.currentPos :=
  (transformerForward_frame K cfg mc token pos s).currentPos

@[simp] theorem transformerForward_maxSeqLen (token pos : Int) (s : RunState F X L C R) :
    (transformerForward K cfg mc token pos s).maxSeqLen = s.maxSeqLen :=
  (transformerForward_frame K cfg mc token pos s).maxSeqLen

end

/-! ## The static buffer -/

section

variable {F X L C R : Type} (K : Kernels F X L C R) (cfg : Config) (mc : Option MoEConfig)

/-- No layer reads the static buffer without having quantized its input into it: the condition under which the buffer is
fresh, for every layer with experts. -/
def FfnFresh : Prop := ∀ layer < cfg.nLayers, ∀ c, moeCall K cfg mc layer = some c → c.Covered {}

/-- The feed-forward step of a layer whose buffer is fresh, a function of the activation. -/
def ffnStep (layer : Nat) (x : X) : X :=
  match moeCall K cfg mc layer with
  | none => K.ffn mc layer x none
  | some c => K.ffn mc layer x (if 0 < c.nBlocks ∧ c.Quantizes then some (K.ffnNorm layer x) else none)

variable {K cfg mc}

/-- A model without experts has no layer that reads the buffer. -/
theorem ffnFresh_dense : FfnFresh K cfg none := by
  rintro layer - c ⟨⟩

/-- A covered call reads what it has quantized, or nothing. -/
theorem covered_reads {c : Moe.FfnCall} (hcov : c.Covered {}) (halloc : c.alloc = true) (hn : 0 < c.nBlocks) (hreads : c.SharedReads) :
    c.Quantizes := by
  rcases hcov hreads with hnone | hzero | hq
  · unfold Moe.ActBuf.ensure at hnone
    rw [if_pos hn, if_pos halloc] at hnone
    cases hnone
  · exact absurd hn (not_lt.2 hzero)
  · exact hq

theorem ffnForward_x (hfresh : FfnFresh K cfg mc) {layer : Nat} (hl : layer < cfg.nLayers) (s : RunState F X L C R) :
    (ffnForward K cfg mc layer s).x = ffnStep K cfg mc layer s.x := by
  have hcov := hfresh layer hl
  unfold ffnForward ffnStep
  cases hc : moeCall K cfg mc layer with
  | none => rfl
  | some c =>
    have halloc : c.alloc = true := by
      unfold moeCall at hc
      split at hc
      · obtain ⟨m, -, rfl⟩ := Option.map_eq_some_iff.1 hc
        rfl
      · cases hc
    dsimp only
    by_cases hq : 0 < c.nBlocks ∧ c.Quantizes
    · rw [if_pos hq, if_pos ⟨hq.1, .inl hq.2⟩, if_pos hq]
    · have hnot : ¬ (0 < c.nBlocks ∧ (c.Quantizes ∨ c.SharedReads)) := by
        rintro ⟨hn, hquant | hreads⟩
        · exact hq ⟨hn, hquant⟩
        · exact hq ⟨hn, covered_reads (hcov c hc) halloc hn hreads⟩
      rw [if_neg hnot, if_neg hq]

/-- The step writes the activation and the static buffer only. -/
theorem ffnForward_eq (layer : Nat) (s : RunState F X L C R) :
    ffnForward K cfg mc layer s =
      { s with
        x := (ffnForward K cfg mc layer s).x
        xbQ8k := (ffnForward K cfg mc layer s).xbQ8k } := by
  unfold ffnForward
  split <;> rfl

/-- Every layer with a growing cache keeps its heads within the head stride. -/
def CacheFits (cfg : Config) (mc : Option MoEConfig) : Prop :=
  ∀ layer fam, attnFamily mc layer = some fam → fam.Fits (kvGeometry cfg mc 0 fam)

theorem CacheFits.fits (h : CacheFits cfg mc) {layer : Nat} {fam : AttnFamily} (hfam : attnFamily mc layer = some fam) (W : Int) :
    fam.Fits (kvGeometry cfg mc W fam) := by
  have hf := h layer fam hfam
  cases fam <;> exact hf

end

end BitForge.Transformer
