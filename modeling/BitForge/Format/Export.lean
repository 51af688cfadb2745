/-
The writer of the ternary MoE `.bin` format, `convert_moe` of `tools/convert_hf.py`: header, MoE
header, and one block after the other, each padded to 64 bytes. Float quantization happens before:
a weight tensor is given by its scale and its ternary values, an unquantized one by its bytes.
-/
import BitForge.Lib.Bytes

namespace BitForge.Format

open BitForge.Lib

inductive Trit
  | neg
  | zero
  | pos
deriving DecidableEq, Repr

def Trit.val : Trit → Int
  | neg => -1
  | zero => 0
  | pos => 1

/-- `-1 → 00, 0 → 01, 1 → 10`. -/
def Trit.enc : Trit → UInt8
  | neg => 0
  | zero => 1
  | pos => 2

/-- The fields that `convert_moe` reads from `config.json`; `ropeTheta` is its `float32` word. -/
structure HfConfig where
  dim : Nat
  hiddenDim : Nat
  nLayers : Nat
  nHeads : Nat
  nKvHeads : Nat
  vocabSize : Nat
  maxPositionEmbeddings : Nat
  actType : Nat
  ropeTheta : Nat
  nRoutedExperts : Nat
  topK : Nat
  expertHiddenDim : Nat
  firstKDense : Nat
  nSharedExperts : Nat
  kvLoraRank : Nat
  qkNopeHeadDim : Nat
  qkRopeHeadDim : Nat
  vHeadDim : Nat
deriving DecidableEq, Repr

namespace HfConfig

def hasMla (c : HfConfig) : Bool := 0 < c.kvLoraRank

/-- The shared experts are folded into one of this hidden dimension. -/
def sharedExpertHdim (c : HfConfig) : Nat := c.nSharedExperts * c.expertHiddenDim

end HfConfig

/-- The tensors of the file, by the pointers that the loader keeps of them. -/
inductive TensorName
  | embed
  | rmsAtt (l : Nat)
  | rmsFfn (l : Nat)
  | mlaWq (l : Nat)
  | mlaWkvA (l : Nat)
  | mlaWkvB (l : Nat)
  | wq (l : Nat)
  | wk (l : Nat)
  | wv (l : Nat)
  | wo (l : Nat)
  | w1 (l : Nat)
  | w3 (l : Nat)
  | w2 (l : Nat)
  | rmsFinal
  | gate (l : Nat)
  | moeW1 (l e : Nat)
  | moeW3 (l e : Nat)
  | moeW2 (l e : Nat)
  | sharedW1 (l : Nat)
  | sharedW3 (l : Nat)
  | sharedW2 (l : Nat)
deriving DecidableEq, Repr

/-- A tensor of the file: so many unquantized bytes, or a ternary matrix. -/
inductive Block
  | plain (bytes : Nat)
  | ternary (rows cols : Nat)
deriving DecidableEq, Repr

/-- The shapes of the tensors that `convert_moe` reads from the checkpoint. -/
def shape (c : HfConfig) : TensorName → Block
  | .embed => .plain (c.vocabSize * c.dim * 2)
  | .rmsAtt _ | .rmsFfn _ | .rmsFinal => .plain (c.dim * 4)
  | .mlaWq _ => .ternary (c.nHeads * (c.qkNopeHeadDim + c.qkRopeHeadDim)) c.dim
  | .mlaWkvA _ => .ternary (c.kvLoraRank + c.qkRopeHeadDim) c.dim
  | .mlaWkvB _ => .ternary (c.nKvHeads * (c.qkNopeHeadDim + c.vHeadDim)) c.kvLoraRank
  | .wq _ => .ternary c.dim c.dim
  | .wk _ | .wv _ => .ternary (c.dim / c.nHeads * c.nKvHeads) c.dim
  | .wo _ => .ternary c.dim (if c.hasMla then c.nHeads * c.vHeadDim else c.dim)
  | .w1 _ | .w3 _ => .ternary c.hiddenDim c.dim
  | .w2 _ => .ternary c.dim c.hiddenDim
  | .gate _ => .ternary c.nRoutedExperts c.dim
  | .moeW1 _ _ | .moeW3 _ _ => .ternary c.expertHiddenDim c.dim
  | .moeW2 _ _ => .ternary c.dim c.expertHiddenDim
  | .sharedW1 _ | .sharedW3 _ => .ternary c.sharedExpertHdim c.dim
  | .sharedW2 _ => .ternary c.dim c.sharedExpertHdim

/-- A tensor after quantization: `raw` are the bytes of an unquantized one; a ternary one has the
`float32` word of its scale and its ternary values. -/
structure TensorData where
  raw : Nat → UInt8
  scale : UInt32
  q : Nat → Nat → Trit

abbrev Weights := TensorName → TensorData

/-! ## Blocks -/

/-- `packed_bytes` of the converter. -/
def packedLen (n : Nat) : Nat := (n + 3) / 4

/-- The byte `b` of the packed values, padded with zeros to a multiple of 4 values. -/
def packByte (n : Nat) (enc : Nat → UInt8) (b : Nat) : UInt8 :=
  let padded := fun k => if k < n then enc k else 0
  padded (4 * b) ||| (padded (4 * b + 1) <<< 2) ||| (padded (4 * b + 2) <<< 4) ||| (padded (4 * b + 3) <<< 6)

/-- `quantize_ternary`, its packing: the flattened values, four to a byte. -/
def packTernary (t : TensorData) (rows cols : Nat) : List UInt8 :=
  (List.range (packedLen (rows * cols))).map
    (packByte (rows * cols) fun k => (t.q (k / cols) (k % cols)).enc)

/-- `align64`. -/
def align64 (f : List UInt8) : List UInt8 :=
  let rem := f.length % 64
  if rem ≠ 0 then f ++ List.replicate (64 - rem) 0 else f

/-- `write_ternary_block`. -/
def writeTernaryBlock (f : List UInt8) (t : TensorData) (rows cols : Nat) : List UInt8 :=
  let f := align64 (f ++ packTernary t rows cols)
  align64 (f ++ le32 t.scale.toNat)

/-- `write_fp32_block` and `write_bf16_block`. -/
def writePlainBlock (f : List UInt8) (t : TensorData) (bytes : Nat) : List UInt8 :=
  align64 (f ++ (List.range bytes).map t.raw)

/-- Where a tensor was written, and its scale. -/
structure Written where
  name : TensorName
  start : Nat
  scale : Option Nat
deriving DecidableEq, Repr

structure OutFile where
  bytes : List UInt8
  written : List Written

def writeBlock (c : HfConfig) (w : Weights) (f : OutFile) (name : TensorName) : OutFile :=
  match shape c name with
  | .plain n => ⟨writePlainBlock f.bytes (w name) n, f.written ++ [⟨name, f.bytes.length, none⟩]⟩
  | .ternary rows cols =>
    ⟨writeTernaryBlock f.bytes (w name) rows cols,
      f.written ++ [⟨name, f.bytes.length, some (w name).scale.toNat⟩]⟩

/-! ## The file -/

/-- The words of the first header, with the magic number and the version. -/
def headerWords (c : HfConfig) : List Nat :=
  [0x594E5254, 1, c.dim, c.hiddenDim, c.nLayers, c.nHeads, c.nKvHeads, c.vocabSize,
    min c.maxPositionEmbeddings 4096, c.actType, c.ropeTheta, 2]

/-- The words of the MoE header. -/
def moeWords (c : HfConfig) : List Nat :=
  [c.nRoutedExperts, c.topK, c.expertHiddenDim, c.firstKDense, 1, if 0 < c.nSharedExperts then 1 else 0,
    c.sharedExpertHdim, if c.hasMla then 1 else 0, c.kvLoraRank, c.qkNopeHeadDim, c.qkRopeHeadDim, c.vHeadDim]

/-- `struct.pack` accepts the header fields. -/
def packable (c : HfConfig) : Bool :=
  (c.dim :: c.hiddenDim :: c.nLayers :: c.nHeads :: c.nKvHeads :: c.vocabSize :: c.actType :: moeWords c).all
    (· < 2 ^ 31)

/-- The blocks of a layer in the regular section. -/
def layerOrder (c : HfConfig) (l : Nat) : List TensorName :=
  let isMoe : Bool := l ≥ c.firstKDense
  let attn : List TensorName := if c.hasMla then [.mlaWq l, .mlaWkvA l, .mlaWkvB l] else [.wq l, .wk l, .wv l]
  let ffn : List TensorName := if isMoe then [] else [.w1 l, .w3 l, .w2 l]
  .rmsAtt l :: .rmsFfn l :: attn ++ .wo l :: ffn

/-- The blocks of a layer in the MoE section. -/
def moeLayerOrder (c : HfConfig) (l : Nat) : List TensorName :=
  let experts : List TensorName := (List.range c.nRoutedExperts).flatMap fun e => [.moeW1 l e, .moeW3 l e, .moeW2 l e]
  let shared : List TensorName := if 0 < c.nSharedExperts then [.sharedW1 l, .sharedW3 l, .sharedW2 l] else []
  .gate l :: experts ++ shared

/-- The order of the blocks. -/
def exportOrder (c : HfConfig) : List TensorName :=
  let regular : List TensorName := .embed :: (List.range c.nLayers).flatMap (layerOrder c)
  let moe : List TensorName := (List.range' c.firstKDense (c.nLayers - c.firstKDense)).flatMap (moeLayerOrder c)
  regular ++ .rmsFinal :: moe

/-- `convert_moe`; `none` when `struct.pack` raises. -/
def convertMoe (c : HfConfig) (w : Weights) : Option OutFile :=
  if packable c then
    let header := align64 ((headerWords c).flatMap le32)
    let header := align64 (header ++ (moeWords c).flatMap le32)
    some ((exportOrder c).foldl (writeBlock c w) ⟨header, []⟩)
  else none

/-! ## The bytes of a block -/

theorem align64_append {f : List UInt8} (h : f.length % 64 = 0) (p : List UInt8) : align64 (f ++ p) = f ++ padTo64 p := by
  unfold align64 padTo64
  have hlen : (f ++ p).length % 64 = p.length % 64 := by rw [List.length_append]; omega
  dsimp only
  rw [hlen]
  split_ifs with h0
  · rw [List.append_assoc, Nat.mod_eq_of_lt (show 64 - p.length % 64 < 64 by omega)]
  · rw [not_not.1 h0]; simp

/-- The bytes that a tensor adds to the file. -/
def blockBytes (c : HfConfig) (w : Weights) (name : TensorName) : List UInt8 :=
  match shape c name with
  | .plain n => padTo64 ((List.range n).map (w name).raw)
  | .ternary rows cols => padTo64 (packTernary (w name) rows cols) ++ padTo64 (le32 (w name).scale.toNat)

/-- The scale that a tensor has in the file. -/
def blockScale (c : HfConfig) (w : Weights) (name : TensorName) : Option Nat :=
  match shape c name with
  | .plain _ => none
  | .ternary _ _ => some (w name).scale.toNat

@[simp] theorem length_packTernary (t : TensorData) (rows cols : Nat) :
    (packTernary t rows cols).length = packedLen (rows * cols) := by simp [packTernary]

theorem blockBytes_mod (c : HfConfig) (w : Weights) (name : TensorName) : (blockBytes c w name).length % 64 = 0 := by
  unfold blockBytes
  split
  · rw [length_padTo64]; exact alignUp_mod _
  · rw [List.length_append, length_padTo64, length_padTo64, Nat.add_mod, alignUp_mod, alignUp_mod]

theorem writeBlock_eq {c : HfConfig} {w : Weights} {f : OutFile} (h : f.bytes.length % 64 = 0) (name : TensorName) :
    writeBlock c w f name = ⟨f.bytes ++ blockBytes c w name, f.written ++ [⟨name, f.bytes.length, blockScale c w name⟩]⟩ := by
  unfold writeBlock blockBytes blockScale
  split
  · unfold writePlainBlock
    rw [align64_append h]
  · unfold writeTernaryBlock
    dsimp only
    rw [align64_append h, align64_append, List.append_assoc]
    rw [List.length_append, length_padTo64, Nat.add_mod, h, alignUp_mod]

/-- Where the tensors of a list start, from the offset `p` on. -/
def layout (c : HfConfig) (w : Weights) : Nat → List TensorName → List Written
  | _, [] => []
  | p, n :: ns => ⟨n, p, blockScale c w n⟩ :: layout c w (p + (blockBytes c w n).length) ns

theorem writeBlocks_eq (c : HfConfig) (w : Weights) : ∀ (ns : List TensorName) (f : OutFile), f.bytes.length % 64 = 0 →
    ns.foldl (writeBlock c w) f =
      ⟨f.bytes ++ ns.flatMap (blockBytes c w), f.written ++ layout c w f.bytes.length ns⟩
  | [], f, _ => by simp [layout]
  | n :: ns, f, h => by
    have hlen : (f.bytes ++ blockBytes c w n).length % 64 = 0 := by
      rw [List.length_append, Nat.add_mod, h, blockBytes_mod]
    rw [List.foldl_cons, writeBlock_eq h, writeBlocks_eq c w ns _ hlen]
    simp [layout]

/-- The two headers, 128 bytes. -/
def header (c : HfConfig) : List UInt8 :=
  padTo64 ((headerWords c).flatMap le32) ++ padTo64 ((moeWords c).flatMap le32)

theorem length_header (c : HfConfig) : (header c).length = 128 := by
  simp [header, headerWords, moeWords, alignUp]

theorem convertMoe_eq (c : HfConfig) (w : Weights) :
    convertMoe c w = if packable c then
      some ⟨header c ++ (exportOrder c).flatMap (blockBytes c w), layout c w 128 (exportOrder c)⟩ else none := by
  have hpad : align64 ((headerWords c).flatMap le32) = padTo64 ((headerWords c).flatMap le32) := by
    have h := align64_append (show ([] : List UInt8).length % 64 = 0 from rfl) ((headerWords c).flatMap le32)
    rwa [List.nil_append, List.nil_append] at h
  have hheader : align64 (padTo64 ((headerWords c).flatMap le32) ++ (moeWords c).flatMap le32) = header c := by
    rw [align64_append]
    · rfl
    · rw [length_padTo64]; exact alignUp_mod _
  unfold convertMoe
  dsimp only
  rw [hpad, hheader, writeBlocks_eq c w _ _ (by rw [length_header])]
  dsimp only
  rw [length_header, List.nil_append]

end BitForge.Format
