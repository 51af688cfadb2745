/-
The regions that `weights_map` and `moe_weights_map` map from a native `.bin` file, with the arithmetic of the loader:
`int` products and sums on 32 bits, `size_t` products on 64, and the `int` parameter of `packed_bytes`.
-/
import BitForge.Dense.ConfigSanity
import BitForge.Lib.Cursor
import BitForge.Moe.Config

namespace BitForge.Regions

open BitForge.Lib BitForge.Lib.Cursor BitForge.Moe

/-! ## The tensors -/

inductive Norm
  | att (l : Nat)
  | ffn (l : Nat)
  | attnSub (l : Nat)
  | ffnSub (l : Nat)
  | final
deriving DecidableEq, Repr

/-- The packed matrices. -/
inductive Matrix
  | wq (l : Nat)
  | wk (l : Nat)
  | wv (l : Nat)
  | wo (l : Nat)
  | w1 (l : Nat)
  | w2 (l : Nat)
  | w3 (l : Nat)
  | mlaWq (l : Nat)
  | mlaWkvA (l : Nat)
  | mlaWkvB (l : Nat)
  | moeGate (l : Nat)
  | moeW1 (l e : Nat)
  | moeW2 (l e : Nat)
  | moeW3 (l e : Nat)
  | sharedW1 (l : Nat)
  | sharedW2 (l : Nat)
  | sharedW3 (l : Nat)
deriving DecidableEq, Repr

/-- The regions that are mapped. -/
inductive Tensor
  | embedding
  | norm (n : Norm)
  | matrix (m : Matrix)
  | scale (m : Matrix)
deriving DecidableEq, Repr

variable (cfg : Dense.Config) (mc : MoEConfig)

/-! ## The sizes of the loader -/

def mulSize (a b : Nat) : Nat := a * b % 2 ^ 64

/-- A sum of two `int`s, on 32 bits. -/
def addInt (a b : Int) : Int := (a + b).bmod (2 ^ 32)

/-- `config_kv_dim` -/
def configKvDim : Int := mulInt (cfg.dim.tdiv cfg.nHeads) cfg.nKvHeads

/-- The product that `packed_bytes` is called with. -/
def count : Matrix → Nat
  | .wq _ | .wo _ => mulSize (toSizeT cfg.dim) (toSizeT cfg.dim)
  | .wk _ | .wv _ => mulSize (toSizeT cfg.dim) (toSizeT (configKvDim cfg))
  | .w1 _ | .w2 _ | .w3 _ => mulSize (toSizeT cfg.dim) (toSizeT cfg.hiddenDim)
  | .mlaWq _ =>
    let wqR := mulSize (toSizeT cfg.nHeads) (toSizeT (addInt mc.qkNopeHeadDim mc.qkRopeHeadDim))
    mulSize wqR (toSizeT cfg.dim)
  | .mlaWkvA _ =>
    let wkvaR := toSizeT (addInt mc.kvLoraRank mc.qkRopeHeadDim)
    mulSize wkvaR (toSizeT cfg.dim)
  | .mlaWkvB _ =>
    let wkvbR := mulSize (toSizeT cfg.nKvHeads) (toSizeT (addInt mc.qkNopeHeadDim mc.vHeadDim))
    mulSize wkvbR (toSizeT mc.kvLoraRank)
  | .moeGate _ => mulSize (toSizeT cfg.dim) (toSizeT mc.numExperts)
  | .moeW1 _ _ | .moeW3 _ _ => mulSize (toSizeT cfg.dim) (toSizeT mc.expertHiddenDim)
  | .moeW2 _ _ => mulSize (toSizeT mc.expertHiddenDim) (toSizeT cfg.dim)
  | .sharedW1 _ | .sharedW3 _ => mulSize (toSizeT cfg.dim) (toSizeT mc.sharedExpertHiddenDim)
  | .sharedW2 _ => mulSize (toSizeT mc.sharedExpertHiddenDim) (toSizeT cfg.dim)

/-- The byte count that a tensor is mapped with. -/
def bytes : Tensor → Nat
  | .embedding => mulSize (mulSize (toSizeT cfg.vocabSize) (toSizeT cfg.dim)) 2
  | .norm (.ffnSub _) => mulSize (toSizeT cfg.hiddenDim) 4
  | .norm _ => mulSize (toSizeT cfg.dim) 4
  | .matrix m => Format.packedBytes (count cfg mc m)
  | .scale _ => 4

/-! ## The order of the file -/

/-- `MAP_PTR; ALIGN64` -/
def mapAlign (t : Tensor) : List (Step Tensor) := [.map t, .align]

/-- `MAP_PTR; COPY_VAL_ALIGN` -/
def mapCopy (m : Matrix) : List (Step Tensor) := [.map (.matrix m), .map (.scale m), .align]

/-- `MOE_MAP_PTR; MOE_ALIGN64; MOE_COPY_SCALE` -/
def moeMapCopy (m : Matrix) : List (Step Tensor) := [.map (.matrix m), .align, .map (.scale m), .align]

/-- `moe_layer_is_moe` -/
def moeLayerIsMoe (l : Nat) : Bool := mc.isMoe && mc.firstKDenseReplace ≤ l

def hasSubNorms : Bool := cfg.scaleMode = 0

def layersAreTernary : Bool := cfg.scaleMode = 0 || cfg.scaleMode = 2

/-- One layer of the loop of `weights_map`. -/
def layerSteps (l : Nat) : List (Step Tensor) :=
  mapAlign (.norm (.att l)) ++ mapAlign (.norm (.ffn l)) ++
    (if mc.hasMla then mapCopy (.mlaWq l) ++ mapCopy (.mlaWkvA l) ++ mapCopy (.mlaWkvB l)
      else mapCopy (.wq l) ++ mapCopy (.wk l) ++ mapCopy (.wv l)) ++
    (if hasSubNorms cfg then mapAlign (.norm (.attnSub l)) else []) ++ mapCopy (.wo l) ++
    if moeLayerIsMoe mc l then []
    else mapCopy (.w1 l) ++ mapCopy (.w3 l) ++ (if hasSubNorms cfg then mapAlign (.norm (.ffnSub l)) else []) ++ mapCopy (.w2 l)

/-- One layer of the loop of `moe_weights_map`. -/
def moeLayerSteps (l : Nat) : List (Step Tensor) :=
  if (l : Int) < mc.firstKDenseReplace then []
  else
    moeMapCopy (.moeGate l) ++
      ((List.range mc.numExperts.toNat).flatMap fun e =>
        moeMapCopy (.moeW1 l e) ++ moeMapCopy (.moeW3 l e) ++ moeMapCopy (.moeW2 l e)) ++
      if mc.nSharedExperts > 0 then moeMapCopy (.sharedW1 l) ++ moeMapCopy (.sharedW3 l) ++ moeMapCopy (.sharedW2 l) else []

/-- What `weights_map` and `moe_weights_map` map. -/
def steps : List (Step Tensor) :=
  mapAlign .embedding ++ (List.range cfg.nLayers.toNat).flatMap (layerSteps cfg mc) ++ mapAlign (.norm .final) ++
    if mc.isMoe then (List.range cfg.nLayers.toNat).flatMap (moeLayerSteps mc) else []

/-- `weights_map`; `none` is `TN_ERR_INVALID_WEIGHTS`. A `NULL` for `mc` acts as `moe_config_init_dense`. -/
def weightsMap (dataSize : Nat) : Option (List (Placed Tensor)) :=
  if 0 < cfg.nLayers ∧ ¬ layersAreTernary cfg then none else walk (bytes cfg mc) dataSize 0 (steps cfg mc)

/-! ## What the forward pass reads -/

/-- The rows and columns of a matrix. -/
def shape : Matrix → Int × Int
  | .wq _ | .wo _ => (cfg.dim, cfg.dim)
  | .wk _ | .wv _ => (cfg.dim.tdiv cfg.nHeads * cfg.nKvHeads, cfg.dim)
  | .w1 _ | .w3 _ => (cfg.hiddenDim, cfg.dim)
  | .w2 _ => (cfg.dim, cfg.hiddenDim)
  | .mlaWq _ => (cfg.nHeads * (mc.qkNopeHeadDim + mc.qkRopeHeadDim), cfg.dim)
  | .mlaWkvA _ => (mc.kvLoraRank + mc.qkRopeHeadDim, cfg.dim)
  | .mlaWkvB _ => (cfg.nKvHeads * (mc.qkNopeHeadDim + mc.vHeadDim), mc.kvLoraRank)
  | .moeGate _ => (mc.numExperts, cfg.dim)
  | .moeW1 _ _ | .moeW3 _ _ => (mc.expertHiddenDim, cfg.dim)
  | .moeW2 _ _ => (cfg.dim, mc.expertHiddenDim)
  | .sharedW1 _ | .sharedW3 _ => (mc.sharedExpertHiddenDim, cfg.dim)
  | .sharedW2 _ => (cfg.dim, mc.sharedExpertHiddenDim)

def entries (m : Matrix) : Int := (shape cfg mc m).1 * (shape cfg mc m).2

/-- The byte count of a tensor in exact arithmetic; four entries of a matrix share a byte. -/
def exactBytes : Tensor → Int
  | .embedding => 2 * cfg.vocabSize * cfg.dim
  | .norm (.ffnSub _) => 4 * cfg.hiddenDim
  | .norm _ => 4 * cfg.dim
  | .matrix m => (entries cfg mc m + 3) / 4
  | .scale _ => 4

/-- No size of the tensor wraps, and the argument of `packed_bytes` keeps its value as an `int`. -/
def Exact (t : Tensor) : Prop :=
  (bytes cfg mc t : Int) = exactBytes cfg mc t ∧
    ∀ m, t = .matrix m → (count cfg mc m : Int) = entries cfg mc m ∧ toInt32 (count cfg mc m) = entries cfg mc m

/-- The mapped regions, in the order of the loader. -/
def mapped (log : List (Placed Tensor)) : List (Tensor × Nat) :=
  log.filterMap fun p => match p.step with
    | .map t => some (t, p.off)
    | .align => none

/-- The regions have their exact sizes and lie in the file, one behind the other, and no sum of the loader wraps. -/
structure InFile (dataSize : Nat) (log : List (Placed Tensor)) : Prop where
  exact : ∀ r ∈ mapped log, Exact cfg mc r.1
  sums : ∀ p ∈ log, p.stop (bytes cfg mc) < 2 ^ 64
  inside : ∀ r ∈ mapped log, (r.2 : Int) + exactBytes cfg mc r.1 ≤ dataSize
  ordered : (mapped log).Pairwise fun r r' => (r.2 : Int) + exactBytes cfg mc r.1 ≤ r'.2

/-! ## The condition -/

/-- A matrix of less than `2 ^ 31` entries, or another byte count that is a `size_t`. -/
def InRange : Tensor → Prop
  | .matrix m => 0 ≤ entries cfg mc m ∧ entries cfg mc m < 2 ^ 31
  | t => 0 ≤ exactBytes cfg mc t ∧ exactBytes cfg mc t < 2 ^ 64

instance (t : Tensor) : Decidable (InRange cfg mc t) := by
  cases t <;> unfold InRange <;> infer_instance

def tensors : List Tensor :=
  (steps cfg mc).filterMap fun s => match s with
    | .map t => some t
    | .align => none

/-- All tensors of the configuration are in range, and so is the end of the layout. -/
def SizesFit : Prop :=
  (∀ t ∈ tensors cfg mc, InRange cfg mc t) ∧
    layoutEnd (fun t => (exactBytes cfg mc t).toNat) 0 (steps cfg mc) < 2 ^ 64

instance : Decidable (SizesFit cfg mc) := by
  unfold SizesFit; infer_instance

/-! ## Sizes in range are exact -/

theorem mulSize_toSizeT (a b : Int) : mulSize (toSizeT a) (toSizeT b) = toSizeT (a * b) := by
  have hpos : (0 : Int) < 2 ^ 64 := by decide
  unfold mulSize toSizeT
  zify
  rw [Int.toNat_of_nonneg (Int.emod_nonneg _ hpos.ne'), Int.toNat_of_nonneg (Int.emod_nonneg _ hpos.ne'),
    Int.toNat_of_nonneg (Int.emod_nonneg _ hpos.ne'), ← Int.mul_emod]

theorem bmod_of_range {n : Int} (h0 : 0 ≤ n) (hlt : n < 2 ^ 31) : n.bmod (2 ^ 32) = n :=
  Int.bmod_eq_of_le (by omega) (by omega)

/-- A factor that is not negative is at most the product, where the others are not zero. -/
theorem le_product {x s d : Int} (hx : x ≠ 0) (hs : 0 ≤ s) (hd : 0 < d) (h0 : 0 ≤ x * s * d) : s ≤ x * s * d := by
  rcases eq_or_lt_of_le hs with rfl | hpos
  · simp
  · have hxs : 0 ≤ x * s := nonneg_of_mul_nonneg_left h0 hd
    have hx0 : 0 ≤ x := nonneg_of_mul_nonneg_left hxs hpos
    calc s = 1 * s * 1 := by ring
      _ ≤ x * s * d := by gcongr <;> omega

/-- What the readers of the two headers check, as far as the sizes depend on it. -/
structure Accepts : Prop where
  dim : 0 < cfg.dim
  nHeads : cfg.nHeads ≠ 0
  nKvHeads : cfg.nKvHeads ≠ 0
  nope : 0 ≤ mc.qkNopeHeadDim
  rope : 0 ≤ mc.qkRopeHeadDim
  vHead : 0 ≤ mc.vHeadDim
  kvLora : 0 ≤ mc.kvLoraRank
  noLora : mc.kvLoraRank = 0 → mc.qkNopeHeadDim = 0 ∧ mc.vHeadDim = 0

variable {cfg mc}

/-- The product is the number of entries, where that is in range. -/
theorem count_eq (h : Accepts cfg mc) (m : Matrix) (h0 : 0 ≤ entries cfg mc m) (hlt : entries cfg mc m < 2 ^ 31) :
    count cfg mc m = toSizeT (entries cfg mc m) := by
  have hdim := h.dim
  have hsum : ∀ a b : Int, 0 ≤ a → 0 ≤ b → a + b < 2 ^ 31 → addInt a b = a + b := fun a b ha hb hab =>
    bmod_of_range (by omega) hab
  cases m with
  | wq l | wo l => exact mulSize_toSizeT _ _
  | wk l | wv l =>
    have hkv : 0 ≤ cfg.dim.tdiv cfg.nHeads * cfg.nKvHeads := nonneg_of_mul_nonneg_left h0 hdim
    have hle : cfg.dim.tdiv cfg.nHeads * cfg.nKvHeads ≤ cfg.dim.tdiv cfg.nHeads * cfg.nKvHeads * cfg.dim := le_mul_of_one_le_right hkv hdim
    have hkvDim : configKvDim cfg = cfg.dim.tdiv cfg.nHeads * cfg.nKvHeads := bmod_of_range hkv (lt_of_le_of_lt hle hlt)
    simp only [count, hkvDim, mulSize_toSizeT, entries, shape, Int.mul_comm cfg.dim]
  | w2 l => exact mulSize_toSizeT _ _
  | mlaWq l =>
    have hle := le_product h.nHeads (Int.add_nonneg h.nope h.rope) hdim h0
    have hint := hsum _ _ h.nope h.rope (lt_of_le_of_lt hle hlt)
    simp only [count, hint, mulSize_toSizeT, entries, shape]
  | mlaWkvA l =>
    have hle : mc.kvLoraRank + mc.qkRopeHeadDim ≤ entries cfg mc (.mlaWkvA l) :=
      le_mul_of_one_le_right (Int.add_nonneg h.kvLora h.rope) hdim
    have hint := hsum _ _ h.kvLora h.rope (lt_of_le_of_lt hle hlt)
    simp only [count, hint, mulSize_toSizeT, entries, shape]
  | mlaWkvB l =>
    have hint : addInt mc.qkNopeHeadDim mc.vHeadDim = mc.qkNopeHeadDim + mc.vHeadDim := by
      rcases eq_or_lt_of_le h.kvLora with hzero | hpos
      · obtain ⟨hnope, hv⟩ := h.noLora hzero.symm
        rw [hnope, hv]
        rfl
      · exact hsum _ _ h.nope h.vHead
          (lt_of_le_of_lt (le_product h.nKvHeads (Int.add_nonneg h.nope h.vHead) hpos h0) hlt)
    simp only [count, hint, mulSize_toSizeT, entries, shape]
  | w1 l | w3 l | moeGate l | sharedW1 l | sharedW2 l | sharedW3 l =>
    simp only [count, mulSize_toSizeT, entries, shape, Int.mul_comm cfg.dim]
  | moeW1 l e | moeW2 l e | moeW3 l e => simp only [count, mulSize_toSizeT, entries, shape, Int.mul_comm cfg.dim]

theorem exact_matrix {m : Matrix} (hcount : (count cfg mc m : Int) = entries cfg mc m) (hlt : entries cfg mc m < 2 ^ 31) :
    Exact cfg mc (.matrix m) := by
  have hnat : count cfg mc m < 2 ^ 31 := by omega
  have hpacked : (Format.packedBytes (count cfg mc m) : Int) = (entries cfg mc m + 3) / 4 := by
    rw [Format.packedBytes_of_lt hnat, ← hcount]
    rfl
  refine ⟨hpacked, fun m' hm => ?_⟩
  cases hm
  exact ⟨hcount, by rw [toInt32_of_lt hnat, hcount]⟩

theorem exact_of_inRange (h : Accepts cfg mc) {t : Tensor} (ht : InRange cfg mc t) : Exact cfg mc t := by
  cases t with
  | embedding =>
    have htwo : toSizeT 2 = 2 := by decide
    refine ⟨?_, nofun⟩
    have hbytes : bytes cfg mc .embedding = toSizeT (exactBytes cfg mc .embedding) := by
      simp only [bytes, exactBytes]
      rw [← htwo, mulSize_toSizeT, mulSize_toSizeT]
      congr 1
      ring
    rw [hbytes, toSizeT_eq ht.1 ht.2]
  | norm n =>
    have hfour : toSizeT 4 = 4 := by decide
    refine ⟨?_, nofun⟩
    have hbytes : bytes cfg mc (.norm n) = toSizeT (exactBytes cfg mc (.norm n)) := by
      cases n <;> simp only [bytes, exactBytes] <;> rw [← hfour, mulSize_toSizeT, Int.mul_comm]
    rw [hbytes, toSizeT_eq ht.1 ht.2]
  | matrix m =>
    obtain ⟨h0, hlt⟩ := ht
    exact exact_matrix (by rw [count_eq h m h0 hlt, toSizeT_eq h0 (by omega)]) hlt
  | scale m => exact ⟨rfl, nofun⟩

/-! ## Files that load -/

/-- A configuration with the experts that the readers accept: none, or those of a header. -/
def Read (cfg : Dense.Config) (mc : MoEConfig) : Prop :=
  (∃ file, Dense.configRead file file.length = .ok cfg) ∧
    (mc = moeConfigInitDense ∨ ∃ data offset, moeConfigRead data offset = some mc)

theorem configRead_checks {file : List UInt8} {fileSize : Nat} {cfg : Dense.Config}
    (h : Dense.configRead file fileSize = .ok cfg) : 0 < cfg.dim ∧ cfg.nHeads ≠ 0 ∧ cfg.nKvHeads ≠ 0 := by
  rw [Dense.configRead_eq_ok] at h
  unfold Dense.configReadOutcome at h
  generalize Dense.readFields file 8 = c at h
  dsimp only at h
  split at h
  · cases h
  split at h
  · cases h
  split at h
  · cases h
  split at h
  · cases h
  next hpos =>
  split at h
  · cases h
  next hheads =>
  split at h
  · cases h
  split at h
  · cases h
  next hkvHeads =>
  split at h
  · cases h
  · cases h
    exact ⟨(not_not.1 hpos).1, hheads, hkvHeads⟩

theorem moeConfigRead_checks {data : List UInt8} {offset : Nat} {mc : MoEConfig} (h : moeConfigRead data offset = some mc) :
    (0 ≤ mc.qkNopeHeadDim ∧ 0 ≤ mc.qkRopeHeadDim ∧ 0 ≤ mc.vHeadDim ∧ 0 ≤ mc.kvLoraRank) ∧
      (mc.kvLoraRank = 0 → mc.qkNopeHeadDim = 0 ∧ mc.vHeadDim = 0) := by
  obtain ⟨⟨c, next⟩, hread, rfl⟩ := Option.map_eq_some_iff.1 h
  unfold Format.moeConfigRead at hread
  simp only [Option.ite_none_left_eq_some, Option.ite_none_right_eq_some, Option.some.injEq, Prod.mk.injEq] at hread
  obtain ⟨-, hchecks, rfl, -⟩ := hread
  simp only [Format.moeConfigChecks, Bool.and_eq_true, Bool.not_eq_true', Bool.or_eq_false_iff, Bool.and_eq_false_iff,
    decide_eq_false_iff_not] at hchecks
  obtain ⟨-, hmla⟩ := hchecks
  clear h
  unfold MoEConfig.ofBin
  dsimp only at hmla ⊢
  refine ⟨⟨Int.natCast_nonneg _, Int.natCast_nonneg _, Int.natCast_nonneg _, Int.natCast_nonneg _⟩, fun hzero => ?_⟩
  revert hmla hzero
  generalize (if offset + 48 ≤ data.length then toInt32 (rd32 data (offset + 28)) else 0) = hasMla
  generalize (if offset + 48 ≤ data.length then toInt32 (rd32 data (offset + 32)) else 0) = kvLoraRank
  intro hmla hzero
  by_cases hnone : hasMla = 0
  · rw [if_neg (not_not.2 hnone), if_neg (not_not.2 hnone)]
    exact ⟨rfl, rfl⟩
  · -- with MLA the rank is positive
    rw [if_pos hnone] at hzero
    rcases hmla with hmla | ⟨⟨⟨hpos, -⟩, -⟩, -⟩
    · exact absurd (by simpa using hmla) hnone
    · omega

theorem accepts_of_read {cfg : Dense.Config} {mc : MoEConfig} (h : Read cfg mc) : Accepts cfg mc := by
  obtain ⟨⟨file, hfile⟩, hmc⟩ := h
  obtain ⟨hdim, hheads, hkvHeads⟩ := configRead_checks hfile
  rcases hmc with rfl | ⟨data, offset, hread⟩
  · exact ⟨hdim, hheads, hkvHeads, le_rfl, le_rfl, le_rfl, le_rfl, fun _ => ⟨rfl, rfl⟩⟩
  · obtain ⟨⟨hnope, hrope, hv, hlora⟩, hno⟩ := moeConfigRead_checks hread
    exact ⟨hdim, hheads, hkvHeads, hnope, hrope, hv, hlora, hno⟩

/-! ## The mapped regions -/

theorem weightsMap_some {dataSize : Nat} {log : List (Placed Tensor)} (h : weightsMap cfg mc dataSize = some log) :
    walk (bytes cfg mc) dataSize 0 (steps cfg mc) = some log := by
  unfold weightsMap at h
  split at h
  · cases h
  · exact h

theorem mem_mapped {log : List (Placed Tensor)} {r : Tensor × Nat} : r ∈ mapped log ↔ ⟨.map r.1, r.2⟩ ∈ log := by
  unfold mapped
  rw [List.mem_filterMap]
  constructor
  · rintro ⟨⟨_ | _, off⟩, hp, hr⟩
    · cases hr
      exact hp
    · cases hr
  · intro hp
    exact ⟨_, hp, rfl⟩

theorem mem_tensors {t : Tensor} : t ∈ tensors cfg mc ↔ .map t ∈ steps cfg mc := by
  unfold tensors
  rw [List.mem_filterMap]
  constructor
  · rintro ⟨_ | _, hs, ht⟩
    · cases ht
      exact hs
    · cases ht
  · intro hs
    exact ⟨_, hs, rfl⟩

/-- The tensors of the layout are the mapped ones. -/
theorem mem_tensors_iff {dataSize : Nat} {log : List (Placed Tensor)}
    (h : walk (bytes cfg mc) dataSize 0 (steps cfg mc) = some log) (t : Tensor) :
    t ∈ tensors cfg mc ↔ ∃ off, (t, off) ∈ mapped log := by
  rw [mem_tensors, ← walk_steps _ h, List.mem_map]
  constructor
  · rintro ⟨⟨s, off⟩, hp, rfl⟩
    exact ⟨off, mem_mapped.2 hp⟩
  · rintro ⟨off, hr⟩
    exact ⟨_, mem_mapped.1 hr, rfl⟩

theorem toInt32_lt (n : Nat) : toInt32 n < 2 ^ 31 := by
  unfold toInt32
  split <;> omega

/-- A tensor that is mapped with its exact size is in range. -/
theorem inRange_of_exact {t : Tensor} (h : Exact cfg mc t) (hlt : bytes cfg mc t < 2 ^ 64) : InRange cfg mc t := by
  obtain ⟨hbytes, hcount⟩ := h
  cases t with
  | matrix m =>
    obtain ⟨hnat, hint⟩ := hcount m rfl
    have hrange := toInt32_lt (count cfg mc m)
    constructor
    · omega
    · omega
  | embedding => exact ⟨by omega, by omega⟩
  | norm n => exact ⟨by omega, by omega⟩
  | scale m => exact ⟨by omega, by omega⟩

theorem layoutEnd_exact (h : ∀ t ∈ tensors cfg mc, Exact cfg mc t) :
    layoutEnd (bytes cfg mc) 0 (steps cfg mc) = layoutEnd (fun t => (exactBytes cfg mc t).toNat) 0 (steps cfg mc) :=
  layoutEnd_congr _ fun t ht => by
    have hbytes := (h t (mem_tensors.2 ht)).1
    omega

/-- What `weights_map` maps are the exact regions of the file, one behind the other, exactly if the sizes of the header are
in range: fewer than `2 ^ 31` entries in each packed matrix, and nothing negative. -/
theorem mapped_regions_iff {cfg : Dense.Config} {mc : MoEConfig} {dataSize : Nat} {log : List (Placed Tensor)}
    (hsize : dataSize < 2 ^ 64) (hread : Read cfg mc) (hok : weightsMap cfg mc dataSize = some log) :
    InFile cfg mc dataSize log ↔ SizesFit cfg mc := by
  have hwalk := weightsMap_some hok
  have hsums := layoutEnd_lt_iff (bytes cfg mc) hsize (Nat.zero_le _) hwalk
  constructor
  · intro h
    have hexact : ∀ t ∈ tensors cfg mc, Exact cfg mc t := by
      intro t ht
      obtain ⟨off, hr⟩ := (mem_tensors_iff hwalk t).1 ht
      exact h.exact _ hr
    constructor
    · intro t ht
      obtain ⟨off, hr⟩ := (mem_tensors_iff hwalk t).1 ht
      have hstop : off + bytes cfg mc t < 2 ^ 64 := h.sums _ (mem_mapped.1 hr)
      exact inRange_of_exact (hexact t ht) (by omega)
    · rw [← layoutEnd_exact hexact]
      exact hsums.2 h.sums
  · rintro ⟨hrange, hend⟩
    have hexact : ∀ t ∈ tensors cfg mc, Exact cfg mc t := fun t ht =>
      exact_of_inRange (accepts_of_read hread) (hrange t ht)
    have hmapped : ∀ r ∈ mapped log, Exact cfg mc r.1 := fun r hr =>
      hexact _ ((mem_tensors_iff hwalk r.1).2 ⟨r.2, hr⟩)
    rw [← layoutEnd_exact hexact] at hend
    obtain ⟨hin, hpair⟩ := walk_ordered _ hsize (Nat.zero_le _) hwalk hend
    refine ⟨hmapped, hsums.1 hend, fun r hr => ?_, ?_⟩
    · have hstop : r.2 + bytes cfg mc r.1 ≤ dataSize := (hin _ (mem_mapped.1 hr)).2
      have hbytes := (hmapped r hr).1
      omega
    · unfold mapped
      rw [List.pairwise_filterMap]
      refine hpair.imp_of_mem ?_
      rintro ⟨t | _, off⟩ ⟨t' | _, off'⟩ hp hp' hle r hr r' hr'
      · cases hr
        cases hr'
        have hbytes := (hmapped (t, off) (mem_mapped.2 hp)).1
        have hstop : off + bytes cfg mc t ≤ off' := hle
        dsimp only at hbytes ⊢
        omega
      · cases hr'
      · cases hr
      · cases hr

/-- A header of one layer and one head, with a vocabulary of one and `scale_mode` 0. -/
def oneLayerFile (dim hiddenDim : Nat) : List UInt8 :=
  le32 0x594E5254 ++ le32 1 ++ le32 dim ++ le32 hiddenDim ++ le32 1 ++ le32 1 ++ le32 1 ++ le32 1 ++ le32 16 ++
    List.replicate 52 0

def oneLayer (dim hiddenDim : Nat) : Dense.Config := Dense.readFields (oneLayerFile dim hiddenDim) 8

theorem mapped_regions_iff_small : ∃ log, weightsMap (oneLayer 4 8) moeConfigInitDense 4096 = some log ∧
    InFile (oneLayer 4 8) moeConfigInitDense 4096 log := by
  obtain ⟨log, hlog⟩ : ∃ log, weightsMap (oneLayer 4 8) moeConfigInitDense 4096 = some log :=
    Option.isSome_iff_exists.1 (by decide +kernel)
  refine ⟨log, hlog, (mapped_regions_iff (by decide) ⟨⟨oneLayerFile 4 8, by decide +kernel⟩, Or.inl rfl⟩ hlog).2 (by decide +kernel)⟩

/-- A dimension of `2 ^ 16`: the matrices have `2 ^ 32` entries, which are none as an `int`, and a file of two megabytes
maps. -/
theorem truncated_regions : ¬ ∀ (cfg : Dense.Config) (mc : MoEConfig) (dataSize : Nat) (log : List (Placed Tensor)),
    dataSize < 2 ^ 64 → Read cfg mc → weightsMap cfg mc dataSize = some log → InFile cfg mc dataSize log := by
  intro h
  obtain ⟨log, hlog⟩ : ∃ log, weightsMap (oneLayer 65536 65536) moeConfigInitDense (2 ^ 21) = some log :=
    Option.isSome_iff_exists.1 (by decide +kernel)
  have hfile := h _ _ _ log (by decide) ⟨⟨oneLayerFile 65536 65536, by decide +kernel⟩, Or.inl rfl⟩ hlog
  obtain ⟨off, hr⟩ := (mem_tensors_iff (weightsMap_some hlog) (.matrix (.wq 0))).1 (by decide +kernel)
  have hentries := ((hfile.exact _ hr).2 (.wq 0) rfl).2
  exact absurd hentries (by decide +kernel)

end BitForge.Regions
