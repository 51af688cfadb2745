/-
The reader of the dense BitNet `.bin` format: `config_read`, and `weights_map` for `scale_mode` 0
without MoE. Offsets are relative to `data`, the byte 64 of the file.
-/
import BitForge.Dense.Export

namespace BitForge.Dense

open BitForge.Lib BitForge.Format

inductive TernaryError
  | invalidConfig
  | invalidMagic
  | versionMismatch
deriving DecidableEq, Repr

/-- `Config`; its floats are their words. -/
structure Config where
  dim : Int
  hiddenDim : Int
  nLayers : Int
  nHeads : Int
  nKvHeads : Int
  vocabSize : Int
  seqLen : Int
  actType : Int
  ropeTheta : Nat
  scaleMode : Int
  bosTokenId : Int
  ropeFreqScale : Nat
  ropeYarnExtFactor : Nat
  ropeYarnAttnFactor : Nat
  ropeYarnBetaFast : Nat
  ropeYarnBetaSlow : Nat
  ropeOrigCtxLen : Int
  ropeYarnLogMul : Nat
  rmsNormEps : Nat
  eosTokenId : Int
deriving DecidableEq, Repr

/-- `sizeof(Config)`. -/
def sizeofConfig : Nat := 80

/-- The fields of the file at `ptr`, and the defaults of those that it does not hold. -/
def readFields (file : List UInt8) (ptr : Nat) : Config :=
  let int := fun i => toInt32 (rd32 file (ptr + 4 * i))
  { dim := int 0
    hiddenDim := int 1
    nLayers := int 2
    nHeads := int 3
    nKvHeads := int 4
    vocabSize := int 5
    seqLen := int 6
    actType := int 7
    ropeTheta := rd32 file (ptr + 32)
    scaleMode := int 9
    bosTokenId := -1
    eosTokenId := -1
    rmsNormEps := 0x3727C5AC              -- 1e-5
    ropeFreqScale := 0x3F800000           -- 1.0
    ropeYarnExtFactor := 0
    ropeYarnAttnFactor := 0x3F800000      -- 1.0
    ropeYarnBetaFast := 0x42000000        -- 32.0
    ropeYarnBetaSlow := 0x3F800000        -- 1.0
    ropeOrigCtxLen := int 6
    ropeYarnLogMul := 0 }

/-- `config_read`. A division by zero, which C leaves undefined, counts as refused. -/
def configRead (file : List UInt8) (fileSize : Nat) : Except TernaryError Config := do
  if ¬ fileSize ≥ 8 + sizeofConfig then throw .invalidConfig
  if ¬ rd32 file 0 = 0x594E5254 then throw .invalidMagic
  if ¬ rd32 file 4 = 1 then throw .versionMismatch
  let cfg := readFields file 8
  if ¬ (cfg.dim > 0 ∧ cfg.nLayers > 0) then throw .invalidConfig
  if ¬ (cfg.nHeads ≠ 0 ∧ cfg.dim.tmod cfg.nHeads = 0) then throw .invalidConfig
  if ¬ (cfg.nKvHeads ≠ 0 ∧ cfg.nHeads.tmod cfg.nKvHeads = 0) then throw .invalidConfig
  return cfg

/-! ## `weights_map` -/

/-- The sizes that `weights_map` computes with, in `size_t`. -/
structure Sizes where
  dim : Nat
  hiddenDim : Nat
  kvDim : Nat
  nLayers : Nat
  vocabSize : Nat
deriving DecidableEq, Repr

/-- They are those of the configuration; `config_kv_dim` in `int`. -/
def Config.sizes (cfg : Config) : Sizes :=
  { dim := cfg.dim.toNat
    hiddenDim := cfg.hiddenDim.toNat
    kvDim := (cfg.dim.tdiv cfg.nHeads * cfg.nKvHeads).toNat
    nLayers := cfg.nLayers.toNat
    vocabSize := cfg.vocabSize.toNat }

/-- What the loader does for a tensor: `MAP_PTR; ALIGN64`, or `MAP_PTR; COPY_VAL_ALIGN`. -/
inductive MapStep
  | plain (bytes : Nat)
  | scaled (bytes : Nat)
deriving DecidableEq, Repr

def mapTensor (data : List UInt8) (ptr : Nat) : TensorName × MapStep → Option (Located × Nat)
  | (t, .plain bytes) => do
    let p ← mapPtr data.length ptr bytes
    let p ← alignPtr data.length p
    some (⟨t, ptr, none⟩, p)
  | (t, .scaled bytes) => do
    let p ← mapPtr data.length ptr bytes
    let (scale, p) ← copyValAlign data p
    some (⟨t, ptr, some scale⟩, p)

/-- One layer of the loop. -/
def layerSteps (s : Sizes) (l : Nat) : List (TensorName × MapStep) :=
  let sizeQ := s.dim * s.dim
  let sizeKv := s.dim * s.kvDim
  let sizeFfn := s.dim * s.hiddenDim
  [(.norm (.att l), .plain (s.dim * 4)), (.norm (.ffn l), .plain (s.dim * 4)),
    (.matrix (.wq l), .scaled (packedBytes sizeQ)), (.matrix (.wk l), .scaled (packedBytes sizeKv)),
    (.matrix (.wv l), .scaled (packedBytes sizeKv)), (.norm (.attnSub l), .plain (s.dim * 4)),
    (.matrix (.wo l), .scaled (packedBytes sizeQ)), (.matrix (.w1 l), .scaled (packedBytes sizeFfn)),
    (.matrix (.w3 l), .scaled (packedBytes sizeFfn)), (.norm (.ffnSub l), .plain (s.hiddenDim * 4)),
    (.matrix (.w2 l), .scaled (packedBytes sizeFfn))]

def mapSteps (s : Sizes) : List (TensorName × MapStep) :=
  (.embed, .plain (s.vocabSize * s.dim * 2)) :: (List.range s.nLayers).flatMap (layerSteps s) ++
    [(.norm .final, .plain (s.dim * 4))]

/-- `weights_map` of a configuration with `scale_mode` 0 and no experts; `none` is
`TN_ERR_INVALID_WEIGHTS`. -/
def weightsMap (cfg : Config) (data : List UInt8) : Option (List Located) :=
  (readItems (mapTensor data) 0 (mapSteps cfg.sizes)).map Prod.fst

/-! ## One tensor -/

/-- The loader finds a padded tensor without scale, and steps over it. -/
theorem mapTensor_plain {pre bs : List UInt8} (hpre : pre.length % 64 = 0) (t : TensorName) (post : List UInt8) :
    mapTensor (pre ++ padTo64 bs ++ post) pre.length (t, .plain bs.length) =
      some (⟨t, pre.length, none⟩, pre.length + (padTo64 bs).length) := by
  have hle := le_alignUp bs.length
  have hadd := alignUp_add hpre bs.length
  simp only [mapTensor, Option.bind_eq_bind]
  rw [mapPtr_eq, Option.bind_some, alignPtr_eq, Option.bind_some, hadd, length_padTo64] <;>
    simp only [List.length_append, length_padTo64] <;> omega

/-- The loader finds a padded tensor, and the scale behind its bytes. -/
theorem mapTensor_scaled {pre bs : List UInt8} (hpre : pre.length % 64 = 0) (t : TensorName) {w : Nat} (hw : w < 2 ^ 32)
    (post : List UInt8) :
    mapTensor (pre ++ padTo64 (bs ++ le32 w) ++ post) pre.length (t, .scaled bs.length) =
      some (⟨t, pre.length, some w⟩, pre.length + (padTo64 (bs ++ le32 w)).length) := by
  have hle := le_alignUp (bs.length + 4)
  have hadd := alignUp_add hpre (bs.length + 4)
  have hword : rd32 (pre ++ padTo64 (bs ++ le32 w) ++ post) (pre.length + bs.length) = w := by
    unfold padTo64
    rw [List.append_assoc, rd32_append_right, List.append_assoc, List.append_assoc]
    have hz : bs.length = bs.length + 0 := rfl
    rw [hz, rd32_append_right, rd32_le32_append, Nat.mod_eq_of_lt hw]
  have hlen : (bs ++ le32 w).length = bs.length + 4 := by simp
  have hend : alignUp (pre.length + bs.length + 4) = pre.length + (padTo64 (bs ++ le32 w)).length := by
    rw [length_padTo64, hlen, Nat.add_assoc, hadd]
  simp only [mapTensor, Option.bind_eq_bind]
  rw [mapPtr_eq, Option.bind_some, copyValAlign_eq, Option.bind_some, hword, hend] <;>
    simp only [List.length_append, length_padTo64, length_le32] at hend ⊢ <;> omega

end BitForge.Dense
