/-
The reader of the ternary MoE `.bin` format: `moe_config_read`, `weights_map` and
`moe_weights_map` over the mapped file, and the entry of a matrix that `ternary_matmul_packed`
decodes. Mapping a tensor is a command of the loader: which pointer it sets, how many bytes it
skips, whether it aligns before it copies the scale. Offsets are relative to `data`, the byte 128
of the file; they stay far below `2 ^ 63`.
-/
import BitForge.Format.Export

namespace BitForge.Format

open BitForge.Lib

/-- The fields of `Config` that the loader uses, as `config_read` copies them. -/
structure Config where
  dim : Nat
  hiddenDim : Nat
  nLayers : Nat
  nHeads : Nat
  nKvHeads : Nat
  vocabSize : Nat
deriving DecidableEq, Repr

/-- `MoEConfig`, its fields of the `.bin` format. -/
structure MoEConfig where
  numExperts : Nat
  numExpertsPerTok : Nat
  expertHiddenDim : Nat
  firstKDenseReplace : Nat
  isMoe : Bool
  nSharedExperts : Nat
  sharedExpertHiddenDim : Nat
  hasMla : Bool
  kvLoraRank : Nat
  qkNopeHeadDim : Nat
  qkRopeHeadDim : Nat
  vHeadDim : Nat
deriving DecidableEq, Repr

/-! ## `moe_config_read` -/

/-- The checks of `moe_config_read` on the fields it has read. -/
def moeConfigChecks (numExperts numExpertsPerTok expertHiddenDim firstKDenseReplace nShared sharedHdim hasMla kvLoraRank
    qkNopeHeadDim qkRopeHeadDim vHeadDim : Int) : Bool :=
  !(numExperts ≤ 0 || numExperts > 512) && !(numExpertsPerTok ≤ 0) && !(numExpertsPerTok > numExperts) &&
    !(expertHiddenDim ≤ 0) && !(firstKDenseReplace < 0) && !(nShared < 0 || nShared > 64) &&
    !(nShared > 0 && sharedHdim ≤ 0) &&
    !(hasMla != 0 && (kvLoraRank ≤ 0 || qkNopeHeadDim ≤ 0 || qkRopeHeadDim ≤ 0 || vHeadDim ≤ 0))

/-- `moe_config_read` at `data + offset`; `none` is `TN_ERR_INVALID_WEIGHTS`. -/
def moeConfigRead (data : List UInt8) (dataSize offset : Nat) : Option (MoEConfig × Nat) :=
  let headerSize := 48
  let full := offset + headerSize ≤ dataSize
  if ¬ full ∧ offset + 32 > dataSize then none
  else
    let field := fun i : Nat => toInt32 (rd32 data (offset + i))
    -- the MLA fields are zero in a legacy header of 32 bytes
    let ext := fun i : Nat => if full then field i else 0
    let numExperts := field 0
    let numExpertsPerTok := field 4
    let expertHiddenDim := field 8
    let firstKDenseReplace := field 12
    let isMoeFlag := field 16
    let nShared := field 20
    let sharedHdim := field 24
    let hasMla := ext 28
    let mla := fun i : Nat => if hasMla ≠ 0 then (ext i).toNat else 0
    if moeConfigChecks numExperts numExpertsPerTok expertHiddenDim firstKDenseReplace nShared sharedHdim hasMla (ext 32)
        (ext 36) (ext 40) (ext 44) then
      some (
        { numExperts := numExperts.toNat
          numExpertsPerTok := numExpertsPerTok.toNat
          expertHiddenDim := expertHiddenDim.toNat
          firstKDenseReplace := firstKDenseReplace.toNat
          isMoe := isMoeFlag != 0
          nSharedExperts := nShared.toNat
          sharedExpertHiddenDim := if nShared > 0 then sharedHdim.toNat else 0
          hasMla := hasMla != 0
          kvLoraRank := mla 32
          qkNopeHeadDim := mla 36
          qkRopeHeadDim := mla 40
          vHeadDim := mla 44 },
        offset + if full then headerSize else 32)
    else none

/-! ## The commands of the loader -/

/-- `packed_bytes(int count)`, with the conversions of its argument to `int` and to `size_t`. -/
def packedBytes (count : Nat) : Nat :=
  let asInt := count % 2 ^ 32
  let asSize := if asInt < 2 ^ 31 then asInt else asInt + (2 ^ 64 - 2 ^ 32)
  ((asSize + 3) % 2 ^ 64) / 4

inductive Cmd
  | mapAlign (bytes : Nat)        -- `MAP_PTR; ALIGN64`
  | mapCopy (bytes : Nat)         -- `MAP_PTR; COPY_VAL_ALIGN`
  | mapAlignCopy (bytes : Nat)    -- `MOE_MAP_PTR; MOE_ALIGN64; MOE_COPY_SCALE`
deriving DecidableEq, Repr

/-- A pointer that the loader has set, and the scale it has copied. -/
structure Mapped where
  name : TensorName
  ptr : Nat
  scale : Option Nat
deriving DecidableEq, Repr

/-- `MAP_PTR`: the pointer after `bytes` bytes. -/
def mapPtr (dataSize ptr bytes : Nat) : Option Nat := if ptr + bytes > dataSize then none else some (ptr + bytes)

/-- `ALIGN64`, from the absolute offset base 64. -/
def alignPtr (dataSize ptr : Nat) : Option Nat :=
  let absOffset := ptr + 64
  let padding := (64 - absOffset % 64) % 64
  if padding > 0 then if ptr + padding > dataSize then none else some (ptr + padding) else some ptr

/-- `COPY_VAL_ALIGN(dest, 4)`. -/
def copyValAlign (data : List UInt8) (ptr : Nat) : Option (Nat × Nat) :=
  if ptr + 4 > data.length then none else (alignPtr data.length (ptr + 4)).map fun p => (rd32 data ptr, p)

def runCmd (data : List UInt8) (ptr : Nat) (name : TensorName) : Cmd → Option (Mapped × Nat)
  | .mapAlign bytes => do
    let p ← mapPtr data.length ptr bytes
    let p ← alignPtr data.length p
    some (⟨name, ptr, none⟩, p)
  | .mapCopy bytes => do
    let p ← mapPtr data.length ptr bytes
    let (scale, p) ← copyValAlign data p
    some (⟨name, ptr, some scale⟩, p)
  | .mapAlignCopy bytes => do
    let p ← mapPtr data.length ptr bytes
    let p ← alignPtr data.length p
    let (scale, p) ← copyValAlign data p
    some (⟨name, ptr, some scale⟩, p)

def runCmds (data : List UInt8) : Nat → List (TensorName × Cmd) → Option (List Mapped × Nat)
  | ptr, [] => some ([], ptr)
  | ptr, (name, cmd) :: cmds => do
    let (m, ptr) ← runCmd data ptr name cmd
    let (ms, ptr) ← runCmds data ptr cmds
    some (m :: ms, ptr)

/-! ## `weights_map` and `moe_weights_map` -/

/-- The `int` arithmetic of the loader is defined: no division by zero, no overflow. -/
def intsDefined (c : Config) (mc : MoEConfig) : Bool :=
  0 < c.nHeads && c.dim / c.nHeads * c.nKvHeads < 2 ^ 31 &&
    (!mc.hasMla || mc.qkNopeHeadDim + mc.qkRopeHeadDim < 2 ^ 31 && mc.kvLoraRank + mc.qkRopeHeadDim < 2 ^ 31 &&
      mc.qkNopeHeadDim + mc.vHeadDim < 2 ^ 31)

/-- One layer of `weights_map`, in `scale_mode` 2 (without sub-norms). -/
def layerCmds (c : Config) (mc : MoEConfig) (l : Nat) : List (TensorName × Cmd) :=
  let kvDim := c.dim / c.nHeads * c.nKvHeads
  let sizeQ := c.dim * c.dim
  let sizeKv := c.dim * kvDim
  let sizeFfn := c.dim * c.hiddenDim
  let wqR := c.nHeads * (mc.qkNopeHeadDim + mc.qkRopeHeadDim)
  let wkvaR := mc.kvLoraRank + mc.qkRopeHeadDim
  let wkvbR := c.nKvHeads * (mc.qkNopeHeadDim + mc.vHeadDim)
  let layerIsMoe := mc.isMoe && l ≥ mc.firstKDenseReplace
  let attn : List (TensorName × Cmd) :=
    if mc.hasMla then
      [(.mlaWq l, .mapCopy (packedBytes (wqR * c.dim))), (.mlaWkvA l, .mapCopy (packedBytes (wkvaR * c.dim))),
        (.mlaWkvB l, .mapCopy (packedBytes (wkvbR * mc.kvLoraRank)))]
    else
      [(.wq l, .mapCopy (packedBytes sizeQ)), (.wk l, .mapCopy (packedBytes sizeKv)),
        (.wv l, .mapCopy (packedBytes sizeKv))]
  let ffn : List (TensorName × Cmd) :=
    if layerIsMoe then []
    else
      [(.w1 l, .mapCopy (packedBytes sizeFfn)), (.w3 l, .mapCopy (packedBytes sizeFfn)),
        (.w2 l, .mapCopy (packedBytes sizeFfn))]
  (.rmsAtt l, .mapAlign (c.dim * 4)) :: (.rmsFfn l, .mapAlign (c.dim * 4)) :: attn ++
    (.wo l, .mapCopy (packedBytes sizeQ)) :: ffn

/-- The regular section of `weights_map`. -/
def regularCmds (c : Config) (mc : MoEConfig) : List (TensorName × Cmd) :=
  (.embed, .mapAlign (c.vocabSize * c.dim * 2)) :: (List.range c.nLayers).flatMap (layerCmds c mc) ++
    [(.rmsFinal, .mapAlign (c.dim * 4))]

/-- One layer of `moe_weights_map`. -/
def moeLayerCmds (c : Config) (mc : MoEConfig) (l : Nat) : List (TensorName × Cmd) :=
  if l < mc.firstKDenseReplace then []
  else
    let gateBytes := packedBytes (c.dim * mc.numExperts)
    let w1Bytes := packedBytes (c.dim * mc.expertHiddenDim)
    let w2Bytes := packedBytes (mc.expertHiddenDim * c.dim)
    let sw1Bytes := packedBytes (c.dim * mc.sharedExpertHiddenDim)
    let sw2Bytes := packedBytes (mc.sharedExpertHiddenDim * c.dim)
    let experts : List (TensorName × Cmd) := (List.range mc.numExperts).flatMap fun e =>
      [(.moeW1 l e, .mapAlignCopy w1Bytes), (.moeW3 l e, .mapAlignCopy w1Bytes), (.moeW2 l e, .mapAlignCopy w2Bytes)]
    let shared : List (TensorName × Cmd) :=
      if mc.nSharedExperts > 0 then
        [(.sharedW1 l, .mapAlignCopy sw1Bytes), (.sharedW3 l, .mapAlignCopy sw1Bytes),
          (.sharedW2 l, .mapAlignCopy sw2Bytes)]
      else []
    (.gate l, .mapAlignCopy gateBytes) :: experts ++ shared

/-- `moe_weights_map`. -/
def moeCmds (c : Config) (mc : MoEConfig) : List (TensorName × Cmd) :=
  if mc.isMoe then (List.range c.nLayers).flatMap (moeLayerCmds c mc) else []

/-- `weights_map` with the `moe_weights_map` it ends with: the pointers it sets, or `none` for an
error. -/
def weightsMap (c : Config) (mc : MoEConfig) (data : List UInt8) : Option (List Mapped) :=
  if intsDefined c mc then (runCmds data 0 (regularCmds c mc ++ moeCmds c mc)).map Prod.fst else none

/-! ## Decoding -/

/-- `unpack_ternary`, the value in a byte. -/
def unpackByte (byte : UInt8) (index : Nat) : Int :=
  (((byte >>> UInt8.ofNat ((index % 4) * 2)) &&& 3).toNat : Int) - 1

/-- The entry `(i, j)` that `ternary_matmul_packed` decodes from the matrix at `ptr`, with `n`
columns (an `int`); `none` beyond the end of the data. -/
def ternaryEntry (data : List UInt8) (ptr n i j : Nat) : Option Int :=
  let rowBytes := packedBytes n
  let row := ptr + i * rowBytes
  if n < 2 ^ 31 ∧ row + j / 4 < data.length then some (unpackByte (byteAt data (row + j / 4)) j) else none

/-! ## Sizes -/

theorem packedBytes_of_lt {n : Nat} (h : n < 2 ^ 31) : packedBytes n = packedLen n := by
  unfold packedBytes packedLen
  dsimp only
  rw [Nat.mod_eq_of_lt (show n < 2 ^ 32 by omega), if_pos h, Nat.mod_eq_of_lt (show n + 3 < 2 ^ 64 by omega)]

theorem mapPtr_eq {dataSize ptr bytes : Nat} (h : ptr + bytes ≤ dataSize) : mapPtr dataSize ptr bytes = some (ptr + bytes) := by
  unfold mapPtr; rw [if_neg (by omega)]

theorem alignPtr_eq {dataSize ptr : Nat} (h : alignUp ptr ≤ dataSize) : alignPtr dataSize ptr = some (alignUp ptr) := by
  have hmod : (64 - (ptr + 64) % 64) % 64 = (64 - ptr % 64) % 64 := by omega
  unfold alignPtr
  unfold alignUp at h ⊢
  dsimp only
  rw [hmod]
  split_ifs with h0 h1
  · omega
  · rfl
  · rw [Nat.le_zero.1 (Nat.not_lt.1 h0), Nat.add_zero]

theorem mapPtr_some {dataSize ptr bytes p : Nat} (h : mapPtr dataSize ptr bytes = some p) :
    p = ptr + bytes ∧ p ≤ dataSize := by
  unfold mapPtr at h
  split_ifs at h with h0
  cases h
  exact ⟨rfl, by omega⟩

theorem alignPtr_some {dataSize ptr p : Nat} (h : alignPtr dataSize ptr = some p) : p = alignUp ptr := by
  have hmod : (64 - (ptr + 64) % 64) % 64 = (64 - ptr % 64) % 64 := by omega
  unfold alignPtr at h
  dsimp only at h
  rw [hmod] at h
  unfold alignUp
  split_ifs at h with h0 h1 <;> cases h
  · rfl
  · rw [Nat.le_zero.1 (Nat.not_lt.1 h0), Nat.add_zero]

theorem copyValAlign_eq {data : List UInt8} {ptr : Nat} (h : alignUp (ptr + 4) ≤ data.length) :
    copyValAlign data ptr = some (rd32 data ptr, alignUp (ptr + 4)) := by
  unfold copyValAlign
  have := le_alignUp (ptr + 4)
  rw [if_neg (by omega), alignPtr_eq h]
  rfl

theorem copyValAlign_some {data : List UInt8} {ptr v p : Nat} (h : copyValAlign data ptr = some (v, p)) :
    v = rd32 data ptr ∧ ptr + 4 ≤ data.length := by
  unfold copyValAlign at h
  split_ifs at h with h0
  obtain ⟨q, -, hq⟩ := Option.map_eq_some_iff.1 h
  cases hq
  exact ⟨rfl, by omega⟩

theorem runCmds_append (data : List UInt8) (ys : List (TensorName × Cmd)) : ∀ (xs : List (TensorName × Cmd)) (ptr : Nat),
    runCmds data ptr (xs ++ ys) = (runCmds data ptr xs).bind fun r =>
      (runCmds data r.2 ys).map fun r' => (r.1 ++ r'.1, r'.2)
  | [], ptr => by
    simp [runCmds]
  | (name, cmd) :: xs, ptr => by
    simp only [List.cons_append, runCmds, runCmds_append data ys xs, Option.bind_eq_bind]
    cases runCmd data ptr name cmd with
    | none => rfl
    | some r =>
      simp only [Option.bind_some]
      cases runCmds data r.2 xs with
      | none => rfl
      | some r1 =>
        simp only [Option.bind_some]
        cases runCmds data r1.2 ys <;> rfl

end BitForge.Format
