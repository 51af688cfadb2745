/-
The writer of `vision.bin` and `projector.bin`, the adapters of `tools/extract_multimodal.py`: which
tensors of a checkpoint they write, in which order, under which header. A float is its `float32` word.
-/
import BitForge.Lib.Bytes
import BitForge.Lib.Items

namespace BitForge.Vision

open BitForge.Lib

/-- An array of numpy: its shape and its words, row after row. -/
structure Tensor where
  shape : List Nat
  data : List UInt32
  size : data.length = shape.prod

abbrev Tensors := String → Option Tensor

/-- The integer fields of an object of `config.json`. -/
abbrev Fields := String → Option Nat

structure HfConfig where
  top : Fields
  visionConfig : Option Fields
  textConfig : Option Fields

inductive Adapter
  | moondream2
  | smolVLM
  | llava
deriving DecidableEq, Repr

/-- What `vision_config` returns. -/
structure VisionParams where
  nLayers : Nat
  embedDim : Nat
  hiddenDim : Nat
  nHeads : Nat
  patchSize : Nat
deriving DecidableEq, Repr

/-- The pointers of `VisionWeights`. -/
inductive Field
  | patchProjW
  | patchProjB
  | posEmbed
  | rmsFinal
  | rmsAtt (l : Nat)
  | rmsFfn (l : Nat)
  | wq (l : Nat)
  | wk (l : Nat)
  | wv (l : Nat)
  | wo (l : Nat)
  | w1 (l : Nat)
  | w2 (l : Nat)
  | w3 (l : Nat)
deriving DecidableEq, Repr

/-- The pointers of `VisionProjector`. -/
inductive ProjField
  | wDown
  | biasDown
  | wUp
  | biasUp
deriving DecidableEq, Repr

/-- A file: the words of its header, and the arrays behind it, for the pointers they are meant for. -/
structure OutFile (F : Type) where
  header : List Nat
  written : List (F × List UInt32)

/-- The bytes of an array, `write_f32`. -/
def words (d : List UInt32) : List UInt8 := d.flatMap fun w => le32 w.toNat

/-- The bytes of a file; the header is padded to 64 bytes. -/
def OutFile.bytes {F : Type} (f : OutFile F) : List UInt8 :=
  let hdr := f.header.flatMap le32
  hdr ++ List.replicate (64 - hdr.length) 0 ++ f.written.flatMap fun p => words p.2

/-! ## The encoder -/

/-- `vision_config` of the adapters that read it. -/
def readVisionConfig (vcfg : Fields) : VisionParams :=
  { nLayers := (vcfg "num_hidden_layers").getD 27
    embedDim := (vcfg "hidden_size").getD 1152
    hiddenDim := (vcfg "intermediate_size").getD 4304
    nHeads := (vcfg "num_attention_heads").getD 16
    patchSize := (vcfg "patch_size").getD 14 }

def visionConfig (cfg : HfConfig) : Adapter → VisionParams
  | .moondream2 => readVisionConfig (cfg.visionConfig.getD cfg.top)
  | .smolVLM => readVisionConfig (cfg.visionConfig.getD fun _ => none)
  | .llava => ⟨24, 1024, 4096, 16, 14⟩

/-- The tensor names of an adapter. -/
structure VisionNames where
  patchEmb : String
  patchBias : String
  posEmb : String
  final : String
  layers : String

def visionNames : Adapter → VisionNames
  | .moondream2 =>
    { patchEmb := "vision_encoder.patch_emb.weight"
      patchBias := "vision_encoder.patch_emb.bias"
      posEmb := "vision_encoder.pos_emb"
      final := "vision_encoder.encoder.final_layer_norm.weight"
      layers := "vision_encoder.encoder.layers." }
  | .smolVLM =>
    { patchEmb := "model.vision_model.embeddings.patch_embedding.weight"
      patchBias := "model.vision_model.embeddings.patch_embedding.bias"
      posEmb := "model.vision_model.embeddings.position_embedding.weight"
      final := "model.vision_model.post_layernorm.weight"
      layers := "model.vision_model.encoder.layers." }
  | .llava =>
    { patchEmb := "model.vision_tower.vision_tower.vision_model.embeddings.patch_embedding.weight"
      patchBias := ""
      posEmb := "model.vision_tower.vision_tower.vision_model.embeddings.position_embedding.weight"
      final := "model.vision_tower.vision_tower.vision_model.post_layernorm.weight"
      layers := "model.vision_tower.vision_tower.vision_model.encoder.layers." }

/-- The resolution that the number of patches is computed from. -/
def resolution : Adapter → Nat
  | .moondream2 | .smolVLM => 384
  | .llava => 336

def zeros (n : Nat) : List UInt32 := List.replicate n 0

/-- `.reshape(embed_dim, patch_dim)`, which raises when the sizes differ. -/
def reshape (t : Tensor) (n : Nat) : Option (List UInt32) := if t.data.length = n then some t.data else none

/-- `[1:, :]` of a matrix. -/
def dropRow (t : Tensor) : Option (List UInt32) :=
  match t.shape with
  | [_, cols] => some (t.data.drop cols)
  | _ => none

def patchBias (t : Tensors) (p : VisionParams) : Adapter → List UInt32
  | .llava => zeros p.embedDim
  | a => ((t (visionNames a).patchBias).map Tensor.data).getD (zeros p.embedDim)

def posEmbed (t : Tensors) (p : VisionParams) (numPatches : Nat) : Adapter → Option (List UInt32)
  | .llava => t (visionNames .llava).posEmb >>= dropRow
  | a => some (((t (visionNames a).posEmb).map Tensor.data).getD (zeros (numPatches * p.embedDim)))

/-- One layer; the place of `w3` is filled with zeros. -/
def writeLayer (t : Tensors) (pfx : String) (p : VisionParams) (l : Nat) : Option (List (Field × List UInt32)) := do
  let norm1 ← t s!"{pfx}{l}.layer_norm1.weight"
  let norm2 ← t s!"{pfx}{l}.layer_norm2.weight"
  let q ← t s!"{pfx}{l}.self_attn.q_proj.weight"
  let k ← t s!"{pfx}{l}.self_attn.k_proj.weight"
  let v ← t s!"{pfx}{l}.self_attn.v_proj.weight"
  let o ← t s!"{pfx}{l}.self_attn.out_proj.weight"
  let fc1 ← t s!"{pfx}{l}.mlp.fc1.weight"
  let fc2 ← t s!"{pfx}{l}.mlp.fc2.weight"
  return [(.rmsAtt l, norm1.data), (.rmsFfn l, norm2.data), (.wq l, q.data), (.wk l, k.data), (.wv l, v.data),
    (.wo l, o.data), (.w1 l, fc1.data), (.w2 l, fc2.data), (.w3 l, zeros (p.hiddenDim * p.embedDim))]

/-- `struct.pack` accepts an integer. -/
def packable (n : Nat) : Bool := n < 2 ^ 31

/-- `write_vision_weights`; `none` when it raises. -/
def writeVisionWeights (cfg : HfConfig) (t : Tensors) (a : Adapter) : Option (OutFile Field) := do
  let p := visionConfig cfg a
  let names := visionNames a
  let patchDim := p.patchSize * p.patchSize * 3
  guard (p.patchSize ≠ 0)    -- 384 // patch_size
  let numPatches := (resolution a / p.patchSize) ^ 2
  let fields := [p.nLayers, p.embedDim, p.hiddenDim, p.nHeads, patchDim, numPatches]
  guard (fields.all packable)
  let w ← t names.patchEmb
  let w ← reshape w (p.embedDim * patchDim)
  let pos ← posEmbed t p numPatches a
  let final ← t names.final
  let layers ← (List.range p.nLayers).mapM (writeLayer t names.layers p)
  return ⟨0x57535956 :: 1 :: fields,
    (.patchProjW, w) :: (.patchProjB, patchBias t p a) :: (.posEmbed, pos) :: (.rmsFinal, final.data) :: layers.flatten⟩

/-! ## The projector -/

/-- `write_header_proj`. -/
def projHeader (visionDim llmDim hiddenDim hasBias scaleFactor : Nat) : Option (List Nat) :=
  if [visionDim, llmDim, hiddenDim, hasBias, scaleFactor].all packable then
    some [0x4A4F5250, 1, visionDim, llmDim, hiddenDim, hasBias, scaleFactor, 0]
  else none

/-- A connector of two layers, with the names of its tensors. -/
def writeTwoLayers (t : Tensors) (weight1 bias1 weight2 bias2 : String) (hasBias : Bool) (embedDim llmDim : Nat) :
    Option (OutFile ProjField) := do
  let w1 ← t weight1
  let w2 ← t weight2
  let hiddenDim ← w1.shape.head?
  let header ← projHeader embedDim llmDim hiddenDim hasBias.toNat 1
  if hasBias then
    let b1 ← t bias1
    let b2 ← t bias2
    return ⟨header, [(.wDown, w1.data), (.biasDown, b1.data), (.wUp, w2.data), (.biasUp, b2.data)]⟩
  else
    return ⟨header, [(.wDown, w1.data), (.wUp, w2.data)]⟩

/-- The connector of SmolVLM: one linear layer behind a pixel shuffle, or two layers. -/
def writeSmolVLMConnector (cfg : HfConfig) (t : Tensors) (embedDim llmDim : Nat) : Option (OutFile ProjField) :=
  let scaleFactor := (cfg.top "scale_factor").getD 1
  let pfx := "model.connector.modality_projection.proj."
  match t s!"{pfx}weight" with
  | some w => do
    let bias := t s!"{pfx}bias"
    let header ← projHeader embedDim llmDim 0 bias.isSome.toNat scaleFactor
    let tail : List (ProjField × List UInt32) := match bias with
      | some b => [(.biasUp, b.data)]
      | none => []
    return ⟨header, (.wUp, w.data) :: tail⟩
  | none =>
    writeTwoLayers t s!"{pfx}0.weight" s!"{pfx}0.bias" s!"{pfx}2.weight" s!"{pfx}2.bias" (t s!"{pfx}0.bias").isSome
      embedDim llmDim

/-- `write_proj_weights`; `none` when it raises. -/
def writeProjWeights (cfg : HfConfig) (t : Tensors) (a : Adapter) : Option (OutFile ProjField) :=
  let embedDim := (visionConfig cfg a).embedDim
  match a with
  | .moondream2 =>
    let llmDim := ((cfg.textConfig.getD cfg.top) "hidden_size").getD 2048
    let hasBias := (t "vision_projection.0.bias").isSome && (t "vision_projection.2.bias").isSome
    writeTwoLayers t "vision_projection.0.weight" "vision_projection.0.bias" "vision_projection.2.weight"
      "vision_projection.2.bias" hasBias embedDim llmDim
  | .smolVLM =>
    let llmDim := ((cfg.textConfig.getD fun _ => none) "hidden_size").getD 576
    writeSmolVLMConnector cfg t embedDim llmDim
  | .llava =>
    let llmDim := ((cfg.textConfig.getD fun _ => none) "hidden_size").getD 4096
    writeTwoLayers t "model.mm_projector.0.weight" "model.mm_projector.0.bias" "model.mm_projector.2.weight"
      "model.mm_projector.2.bias" (t "model.mm_projector.0.bias").isSome embedDim llmDim

end BitForge.Vision
