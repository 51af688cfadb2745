/-
The writer of the dense BitNet `.bin` format, `convert` of `tools/convert_hf_bitnet.py`: the header,
and one tensor after the other, each padded to 64 bytes, with a footer behind them. A float is its
`float32` word; what the converter leaves to numpy's float arithmetic is a parameter.
-/
import BitForge.Format.Load
import BitForge.Lib.Items

namespace BitForge.Dense

open BitForge.Lib BitForge.Format

/-! ## The checkpoint -/

/-- The fields that `extract_config` reads from `config.json`. -/
structure BitnetConfig where
  dim : Nat
  hiddenDim : Nat
  nLayers : Nat
  nHeads : Nat
  nKvHeads : Nat
  vocabSize : Nat
  seqLen : Int
deriving DecidableEq, Repr

inductive NormName
  | att (l : Nat)        -- input_layernorm
  | ffn (l : Nat)        -- post_attention_layernorm
  | attnSub (l : Nat)    -- self_attn.attn_sub_norm
  | ffnSub (l : Nat)     -- mlp.ffn_sub_norm
  | final                -- model.norm
deriving DecidableEq, Repr

inductive MatrixName
  | wq (l : Nat)         -- self_attn.q_proj
  | wk (l : Nat)         -- self_attn.k_proj
  | wv (l : Nat)         -- self_attn.v_proj
  | wo (l : Nat)         -- self_attn.o_proj
  | w1 (l : Nat)         -- mlp.gate_proj
  | w3 (l : Nat)         -- mlp.up_proj
  | w2 (l : Nat)         -- mlp.down_proj
  | lmHead
deriving DecidableEq, Repr

inductive TensorName
  | embed
  | norm (n : NormName)
  | matrix (m : MatrixName)
deriving DecidableEq, Repr

/-- The embedding table, stored as floats or as `bfloat16` words. -/
inductive Embedding
  | floats (words : List UInt32)
  | bf16 (words : List UInt16)

/-- A matrix as `load_tensor` returns it: floats, or `uint8` with four rows in a byte and the words
of its `_scale` tensor. -/
inductive Matrix
  | floats (rows cols : Nat) (w : Nat → Nat → UInt32)
  | msPacked (packedRows cols : Nat) (bytes : Nat → Nat → UInt8) (scale : Option (List UInt32))

/-- The tensor map of the checkpoint. -/
structure Checkpoint where
  embed : Option Embedding
  norm : NormName → Option (List UInt32)
  matrix : MatrixName → Option Matrix

/-- The float arithmetic of numpy. The conversion to `int8` is exact on the numbers of that type. -/
structure NumPy where
  /-- `np.mean` -/
  mean : List UInt32 → UInt32
  /-- `tensor_f32 / (scale + 1e-7)` -/
  quotient : UInt32 → UInt32 → UInt32
  /-- `np.round`, a whole number -/
  round : UInt32 → Int
  /-- `astype(np.int8)` of a whole number -/
  toInt8 : Int → Int
  toInt8_mem : ∀ z, -128 ≤ toInt8 z ∧ toInt8 z ≤ 127
  toInt8_of_mem : ∀ z, -128 ≤ z → z ≤ 127 → toInt8 z = z

/-! ## The matrices -/

namespace Matrix

def rows : Matrix → Nat
  | floats rows _ _ => rows
  | msPacked packedRows _ _ _ => packedRows * 4

def cols : Matrix → Nat
  | floats _ cols _ | msPacked _ cols _ _ => cols

/-- The words of a matrix, row after row. -/
def flatten (rows cols : Nat) (w : Nat → Nat → UInt32) : List UInt32 :=
  (List.range rows).flatMap fun i => (List.range cols).map (w i)

/-- The scale of a matrix: `np.mean(np.abs(tensor_f32))`, or the mean of the `_scale` tensor. -/
def scale (np : NumPy) : Matrix → UInt32
  | floats rows cols w =>
    let scale := np.mean ((flatten rows cols w).map (· &&& 0x7FFFFFFF))
    if scale &&& 0x7FFFFFFF = 0 then 0x3F800000 else scale
  | msPacked _ _ _ (some s) => np.mean s
  | msPacked _ _ _ none => 0x3F800000

end Matrix

/-- `np.clip(_, -1, 1)`. -/
def clip (z : Int) : Int := max (-1) (min z 1)

/-- `validate_and_quantize_ternary`: the conversion to `int8` comes before the clipping. -/
def validateAndQuantizeTernary (np : NumPy) (w : Nat → Nat → UInt32) (scale : UInt32) (i j : Nat) : Int :=
  clip (np.toInt8 (np.round (np.quotient (w i j) scale)))

/-- `unpack_ms_packed`: the bit pair `k` of the packed rows makes the rows `k * packed_rows` and following. -/
def unpackMsPacked (packedRows : Nat) (bytes : Nat → Nat → UInt8) (i j : Nat) : Int :=
  let k := i / packedRows
  let mask : UInt8 := 3 <<< UInt8.ofNat (2 * k)
  (((bytes (i - k * packedRows) j &&& mask) >>> UInt8.ofNat (2 * k)).toNat : Int) - 1

/-- The `int8` matrix that the converter packs. -/
def Matrix.quantized (np : NumPy) : Matrix → Nat → Nat → Int
  | floats rows cols w => validateAndQuantizeTernary np w ((floats rows cols w).scale np)
  | msPacked packedRows _ bytes _ => unpackMsPacked packedRows bytes

/-- `pack_ternary_array`: the flattened values plus one, four to a byte. -/
def packTernaryArray (rows cols : Nat) (v : Nat → Nat → Int) : List UInt8 :=
  (List.range (packedLen (rows * cols))).map
    (packByte (rows * cols) fun k => UInt8.ofInt (v (k / cols) (k % cols) + 1))

/-! ## The file -/

/-- `pad_file`. -/
def padFile (f : List UInt8) : List UInt8 :=
  let padding := (64 - f.length % 64) % 64
  if padding > 0 then f ++ List.replicate padding 0 else f

/-- `process_and_write_packed`. -/
def processAndWritePacked (np : NumPy) (f : List UInt8) : Option Matrix → List UInt8
  | none => f
  | some m => f ++ packTernaryArray m.rows m.cols (m.quantized np) ++ le32 (m.scale np).toNat

/-- `process_and_write_raw`. -/
def processAndWriteRaw (f : List UInt8) : Option (List UInt32) → List UInt8
  | none => f
  | some words => f ++ words.flatMap fun w => le32 w.toNat

def le16 (w : UInt16) : List UInt8 := [w.toUInt8, (w >>> 8).toUInt8]

/-- `process_and_write_bf16`. -/
def processAndWriteBf16 (f : List UInt8) : Option Embedding → List UInt8
  | none => f
  | some (.bf16 words) => f ++ words.flatMap le16
  | some (.floats words) => f ++ words.flatMap fun w : UInt32 => le16 (w >>> 16).toUInt16

/-- A tensor in the file: the offset of its bytes, and the word of its scale. -/
structure Located where
  tensor : TensorName
  offset : Nat
  scale : Option Nat
deriving DecidableEq, Repr

structure OutFile where
  bytes : List UInt8
  written : List Located

/-- A tensor of the checkpoint and the padding behind it. -/
def writeTensor (np : NumPy) (k : Checkpoint) (f : OutFile) (t : TensorName) : OutFile :=
  match t with
  | .embed => ⟨padFile (processAndWriteBf16 f.bytes k.embed), f.written ++ [⟨t, f.bytes.length, none⟩]⟩
  | .norm n => ⟨padFile (processAndWriteRaw f.bytes (k.norm n)), f.written ++ [⟨t, f.bytes.length, none⟩]⟩
  | .matrix m =>
    ⟨padFile (processAndWritePacked np f.bytes (k.matrix m)),
      f.written ++ [⟨t, f.bytes.length, (k.matrix m).map fun x => (x.scale np).toNat⟩]⟩

/-- The tensors of a layer in the order of the file. -/
def layerOrder (k : Checkpoint) (l : Nat) : List TensorName :=
  let attnSub : List TensorName := if (k.norm (.attnSub l)).isSome then [.norm (.attnSub l)] else []
  let ffnSub : List TensorName := if (k.norm (.ffnSub l)).isSome then [.norm (.ffnSub l)] else []
  [.norm (.att l), .norm (.ffn l), .matrix (.wq l), .matrix (.wk l), .matrix (.wv l)] ++ attnSub ++
    [.matrix (.wo l), .matrix (.w1 l), .matrix (.w3 l)] ++ ffnSub ++ [.matrix (.w2 l)]

def exportOrder (c : BitnetConfig) (k : Checkpoint) : List TensorName :=
  let lmHead : List TensorName := if (k.matrix .lmHead).isSome then [.matrix .lmHead] else []
  .embed :: (List.range c.nLayers).flatMap (layerOrder k) ++ .norm .final :: lmHead

/-- `struct.pack('<i', _)`, the word of an integer in its range. -/
def int32Word (z : Int) : Nat := (z % 2 ^ 32).toNat

/-- `struct.pack` accepts the header fields. -/
def packable (c : BitnetConfig) : Bool :=
  [c.dim, c.hiddenDim, c.nLayers, c.nHeads, c.nKvHeads, c.vocabSize].all (· < 2 ^ 31) &&
    (-2 ^ 31 ≤ c.seqLen && c.seqLen < 2 ^ 31)

/-- The words of the header: `act_type` 1, `rope_theta` 500000.0 and `scale_mode` 0 at its end. -/
def headerWords (c : BitnetConfig) : List Nat :=
  [0x594E5254, 1, c.dim, c.hiddenDim, c.nLayers, c.nHeads, c.nKvHeads, c.vocabSize, int32Word c.seqLen, 1, 0x48F42400, 0]

/-- The footer: the length of the file up to here, and a checksum of the configuration. -/
def footer (c : BitnetConfig) (written : Nat) : List UInt8 :=
  let checksum := (c.dim ^^^ c.hiddenDim ^^^ c.nLayers ^^^ c.nHeads ^^^ c.vocabSize) &&& 0xFFFFFFFF
  le32 (written % 2 ^ 32) ++ le32 (written / 2 ^ 32) ++ le32 checksum

/-- `convert`; `none` when `struct.pack` raises. -/
def convert (np : NumPy) (c : BitnetConfig) (k : Checkpoint) : Option OutFile :=
  if packable c then
    let header := padFile ((headerWords c).flatMap le32)
    let f := (exportOrder c k).foldl (writeTensor np k) ⟨header, []⟩
    some { f with bytes := f.bytes ++ footer c f.bytes.length }
  else none

/-! ## The bytes of a tensor -/

/-- The bytes of a tensor without its padding. -/
def payload (np : NumPy) (k : Checkpoint) : TensorName → List UInt8
  | .embed => processAndWriteBf16 [] k.embed
  | .norm n => processAndWriteRaw [] (k.norm n)
  | .matrix m => processAndWritePacked np [] (k.matrix m)

/-- The scale that a tensor has in the file. -/
def scaleOf (np : NumPy) (k : Checkpoint) : TensorName → Option Nat
  | .embed | .norm _ => none
  | .matrix m => (k.matrix m).map fun x => (x.scale np).toNat

/-- A tensor with its padding. -/
def block (np : NumPy) (k : Checkpoint) (t : TensorName) : List UInt8 := padTo64 (payload np k t)

def located (np : NumPy) (k : Checkpoint) (offset : Nat) (t : TensorName) : Located := ⟨t, offset, scaleOf np k t⟩

theorem padFile_append {f : List UInt8} (h : f.length % 64 = 0) (p : List UInt8) : padFile (f ++ p) = f ++ padTo64 p := by
  have hmod : (f ++ p).length % 64 = p.length % 64 := by rw [List.length_append]; omega
  unfold padFile padTo64
  dsimp only
  rw [hmod]
  split_ifs with h0
  · rw [List.append_assoc]
  · rw [Nat.le_zero.1 (Nat.not_lt.1 h0)]
    simp

theorem block_mod (np : NumPy) (k : Checkpoint) (t : TensorName) : (block np k t).length % 64 = 0 := by
  unfold block
  rw [length_padTo64]
  exact alignUp_mod _

theorem writeTensor_eq (np : NumPy) (k : Checkpoint) {f : OutFile} (h : f.bytes.length % 64 = 0) (t : TensorName) :
    writeTensor np k f t = ⟨f.bytes ++ block np k t, f.written ++ [located np k f.bytes.length t]⟩ := by
  have hbf16 : ∀ e, processAndWriteBf16 f.bytes e = f.bytes ++ processAndWriteBf16 [] e := by
    rintro (_ | _ | _) <;> simp [processAndWriteBf16]
  have hraw : ∀ e, processAndWriteRaw f.bytes e = f.bytes ++ processAndWriteRaw [] e := by
    rintro (_ | _) <;> simp [processAndWriteRaw]
  have hpacked : ∀ e, processAndWritePacked np f.bytes e = f.bytes ++ processAndWritePacked np [] e := by
    rintro (_ | _) <;> simp [processAndWritePacked]
  cases t with
  | embed =>
    unfold writeTensor
    dsimp only
    rw [hbf16, padFile_append h]
    rfl
  | norm n =>
    unfold writeTensor
    dsimp only
    rw [hraw, padFile_append h]
    rfl
  | matrix m =>
    unfold writeTensor
    dsimp only
    rw [hpacked, padFile_append h]
    rfl

theorem writeTensors_eq (np : NumPy) (k : Checkpoint) : ∀ (ts : List TensorName) (f : OutFile), f.bytes.length % 64 = 0 →
    ts.foldl (writeTensor np k) f =
      ⟨f.bytes ++ ts.flatMap (block np k), f.written ++ itemsAt (block np k) (located np k) f.bytes.length ts⟩
  | [], f, _ => by simp [itemsAt]
  | t :: ts, f, h => by
    have hlen : (f.bytes ++ block np k t).length % 64 = 0 := by
      rw [List.length_append, Nat.add_mod, h, block_mod]
    rw [List.foldl_cons, writeTensor_eq np k h, writeTensors_eq np k ts _ hlen]
    simp [itemsAt]

def header (c : BitnetConfig) : List UInt8 := padTo64 ((headerWords c).flatMap le32)

theorem length_header (c : BitnetConfig) : (header c).length = 64 := by
  simp [header, headerWords, alignUp]

/-- The tensors and the footer. -/
def fileData (np : NumPy) (c : BitnetConfig) (k : Checkpoint) : List UInt8 :=
  let tensors := (exportOrder c k).flatMap (block np k)
  tensors ++ footer c (64 + tensors.length)

theorem convert_eq (np : NumPy) (c : BitnetConfig) (k : Checkpoint) :
    convert np c k = if packable c then
      some ⟨header c ++ fileData np c k, itemsAt (block np k) (located np k) 64 (exportOrder c k)⟩ else none := by
  have hpad : padFile ((headerWords c).flatMap le32) = header c := by
    have h := padFile_append (show ([] : List UInt8).length % 64 = 0 from rfl) ((headerWords c).flatMap le32)
    rwa [List.nil_append, List.nil_append] at h
  unfold convert fileData
  dsimp only
  rw [hpad, writeTensors_eq np k _ _ (by rw [length_header])]
  dsimp only
  rw [length_header, List.nil_append, List.length_append, length_header, List.append_assoc]

end BitForge.Dense
