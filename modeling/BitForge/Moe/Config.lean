/-
The mixture-of-experts configuration: `moe_config_read` over a `.bin` file and `moe_config_from_gguf` over the
metadata of a GGUF file. The fields are those of the source, 32-bit integers of either sign.
-/
import BitForge.Format.Load
import BitForge.Gguf.Reader

namespace BitForge.Moe

open BitForge.Lib BitForge.Gguf

/-- `MoEConfig`. -/
structure MoEConfig where
  numExperts : Int := 0
  numExpertsPerTok : Int := 0
  expertHiddenDim : Int := 0
  firstKDenseReplace : Int := 0
  isMoe : Bool := false
  nSharedExperts : Int := 0
  sharedExpertHiddenDim : Int := 0
  hasMla : Bool := false
  kvLoraRank : Int := 0
  qkNopeHeadDim : Int := 0
  qkRopeHeadDim : Int := 0
  vHeadDim : Int := 0
  hasQkNorm : Bool := false
  hasLinearAttn : Bool := false
  fullAttentionInterval : Int := 0
  attnHeadDim : Int := 0
  attnRopeDim : Int := 0
  ssmConvKernel : Int := 0
  ssmGroupCount : Int := 0
  ssmInnerSize : Int := 0
  ssmStateSize : Int := 0
  ssmTimeStepRank : Int := 0
deriving DecidableEq, Repr

/-- `moe_config_init_dense`. -/
def moeConfigInitDense : MoEConfig := {}

/-! ## The `.bin` file -/

/-- The fields that `moe_config_read` sets. -/
def MoEConfig.ofBin (c : Format.MoEConfig) : MoEConfig :=
  { moeConfigInitDense with
    numExperts := c.numExperts
    numExpertsPerTok := c.numExpertsPerTok
    expertHiddenDim := c.expertHiddenDim
    firstKDenseReplace := c.firstKDenseReplace
    isMoe := c.isMoe
    nSharedExperts := c.nSharedExperts
    sharedExpertHiddenDim := c.sharedExpertHiddenDim
    hasMla := c.hasMla
    kvLoraRank := c.kvLoraRank
    qkNopeHeadDim := c.qkNopeHeadDim
    qkRopeHeadDim := c.qkRopeHeadDim
    vHeadDim := c.vHeadDim }

/-- `moe_config_read` at an offset; `none` is `TN_ERR_INVALID_WEIGHTS`. -/
def moeConfigRead (data : List UInt8) (offset : Nat) : Option MoEConfig :=
  (Format.moeConfigRead data data.length offset).map fun r => .ofBin r.1

/-! ## The GGUF file -/

/-- What `gguf_meta_u32` takes from an entry; an entry of another type is passed over. -/
def metaU32 (e : GGUFMeta) : Option Nat :=
  match e.valType, e.val with
  | .uint32, .scalar bits | .int32, .scalar bits | .uint64, .scalar bits => some (bits % 2 ^ 32)
  | _, _ => none

/-- `gguf_meta_u32`: the first entry of the key whose type fits. -/
def ggufMetaU32 (hdr : GGUFHeader) (key : String) (defaultVal : Nat) : Nat :=
  ((hdr.metas.filter fun e => sameText e.key key).findSome? metaU32).getD defaultVal

/-- `(int)gguf_meta_u32(hdr, MK(suffix), default)`, where the architecture is `arch`. -/
def metaInt (hdr : GGUFHeader) (arch suffix : String) (defaultVal : Nat) : Int :=
  toInt32 (ggufMetaU32 hdr (arch ++ "." ++ suffix) defaultVal)

/-- A product of two `int`s, on 32 bits. -/
def mulInt (a b : Int) : Int := (a * b).bmod (2 ^ 32)

def subInt (a b : Int) : Int := (a - b).bmod (2 ^ 32)

/-- The branch of `qwen35`, which has no experts. -/
def qwen35Config (hdr : GGUFHeader) : Option MoEConfig :=
  let mk := metaInt hdr "qwen35"
  let attnHeadDim := mk "attention.key_length" 0
  let ssmGroupCount := mk "ssm.group_count" 0
  let ssmInnerSize := mk "ssm.inner_size" 0
  let ssmStateSize := mk "ssm.state_size" 0
  let ssmTimeStepRank := mk "ssm.time_step_rank" 0
  if attnHeadDim ≤ 0 ∨ ssmGroupCount ≤ 0 ∨ ssmInnerSize ≤ 0 ∨ ssmStateSize ≤ 0 ∨ ssmTimeStepRank ≤ 0 then none
  else some
    { moeConfigInitDense with
      fullAttentionInterval := mk "full_attention_interval" 4
      attnHeadDim
      attnRopeDim := mk "rope.dimension_count" (attnHeadDim % 2 ^ 32).toNat
      ssmConvKernel := mk "ssm.conv_kernel" 4
      ssmGroupCount
      ssmInnerSize
      ssmStateSize
      ssmTimeStepRank
      hasLinearAttn := true }

/-- The branch of `qwen3moe`: routed experts only. -/
def qwen3moeConfig (hdr : GGUFHeader) : Option MoEConfig :=
  let mk := metaInt hdr "qwen3moe"
  let numExperts := mk "expert_count" 0
  let numExpertsPerTok := mk "expert_used_count" 0
  let expertHiddenDim := mk "expert_feed_forward_length" 0
  let attnHeadDim := mk "attention.key_length" 0
  if numExperts ≤ 0 ∨ numExpertsPerTok ≤ 0 ∨ expertHiddenDim ≤ 0 ∨ attnHeadDim ≤ 0 then none
  else some
    { moeConfigInitDense with
      numExperts
      numExpertsPerTok
      expertHiddenDim
      attnHeadDim
      isMoe := true
      hasQkNorm := true }

/-- The branch of `deepseek2`, with no check. -/
def deepseek2Config (hdr : GGUFHeader) : MoEConfig :=
  let mk := metaInt hdr "deepseek2"
  let expertHiddenDim := mk "expert_feed_forward_length" 1408
  let nSharedExperts := mk "expert_shared_count" 2
  let qkRopeHeadDim := mk "rope.dimension_count" 64
  let keyLength := mk "attention.key_length" 192
  let nope := subInt keyLength qkRopeHeadDim
  { moeConfigInitDense with
    numExperts := mk "expert_count" 64
    numExpertsPerTok := mk "expert_used_count" 6
    expertHiddenDim
    firstKDenseReplace := mk "leading_dense_block_count" 1
    nSharedExperts
    kvLoraRank := mk "attention.kv_lora_rank" 512
    qkRopeHeadDim
    vHeadDim := mk "attention.value_length" 128
    qkNopeHeadDim := if nope ≤ 0 then 128 else nope
    sharedExpertHiddenDim := mulInt nSharedExperts expertHiddenDim
    isMoe := true
    hasMla := true }

/-- `moe_config_from_gguf`; `none` is `TN_ERR_INVALID_CONFIG`. -/
def moeConfigFromGguf (hdr : GGUFHeader) : Option MoEConfig :=
  if sameText hdr.arch "qwen35" then qwen35Config hdr
  else if sameText hdr.arch "qwen3moe" then qwen3moeConfig hdr
  else if !sameText hdr.arch "deepseek2" then some moeConfigInitDense
  else some (deepseek2Config hdr)

/-! ## The bounds -/

/-- `num_experts` and `num_experts_per_tok` are in the bounds that the router relies on. -/
def MoEConfig.InBounds (mc : MoEConfig) : Prop :=
  (0 < mc.numExperts ∧ mc.numExperts ≤ 512) ∧ 0 < mc.numExpertsPerTok ∧ mc.numExpertsPerTok ≤ mc.numExperts

instance (mc : MoEConfig) : Decidable mc.InBounds := by
  unfold MoEConfig.InBounds
  infer_instance

/-- `moe_config_read` checks both bounds. -/
theorem moeConfigRead_inBounds {data : List UInt8} {offset : Nat} {mc : MoEConfig}
    (h : moeConfigRead data offset = some mc) : mc.InBounds := by
  obtain ⟨⟨c, next⟩, hread, rfl⟩ := Option.map_eq_some_iff.1 h
  unfold Format.moeConfigRead at hread
  simp only [Option.ite_none_left_eq_some, Option.ite_none_right_eq_some, Option.some.injEq, Prod.mk.injEq] at hread
  obtain ⟨-, hchecks, rfl, -⟩ := hread
  simp only [Format.moeConfigChecks, Bool.and_eq_true, Bool.not_eq_true', Bool.or_eq_false_iff,
    decide_eq_false_iff_not] at hchecks
  obtain ⟨⟨⟨⟨⟨⟨⟨⟨h0, h512⟩, hk⟩, hle⟩, -⟩, -⟩, -⟩, -⟩, -⟩ := hchecks
  unfold MoEConfig.InBounds MoEConfig.ofBin
  dsimp only
  omega

/-- A configuration of `deepseek2` carries the two counts as they stand in the metadata. -/
theorem deepseek2Config_inBounds_iff (hdr : GGUFHeader) :
    (deepseek2Config hdr).InBounds ↔
      (0 < metaInt hdr "deepseek2" "expert_count" 64 ∧ metaInt hdr "deepseek2" "expert_count" 64 ≤ 512) ∧
        0 < metaInt hdr "deepseek2" "expert_used_count" 6 ∧
          metaInt hdr "deepseek2" "expert_used_count" 6 ≤ metaInt hdr "deepseek2" "expert_count" 64 :=
  Iff.rfl

/-- A configuration of `qwen3moe` that is accepted has its lower bounds, and the upper ones if the metadata has. -/
theorem qwen3moeConfig_inBounds_iff {hdr : GGUFHeader} {mc : MoEConfig} (h : qwen3moeConfig hdr = some mc) :
    mc.InBounds ↔ metaInt hdr "qwen3moe" "expert_count" 0 ≤ 512 ∧
      metaInt hdr "qwen3moe" "expert_used_count" 0 ≤ metaInt hdr "qwen3moe" "expert_count" 0 := by
  unfold qwen3moeConfig at h
  dsimp only at h
  split at h
  · cases h
  · next hpos =>
    cases h
    unfold MoEConfig.InBounds
    dsimp only
    omega

theorem qwen3moeConfig_isSome_iff (hdr : GGUFHeader) :
    (∃ mc, qwen3moeConfig hdr = some mc) ↔ 0 < metaInt hdr "qwen3moe" "expert_count" 0 ∧
      0 < metaInt hdr "qwen3moe" "expert_used_count" 0 ∧ 0 < metaInt hdr "qwen3moe" "expert_feed_forward_length" 0 ∧
        0 < metaInt hdr "qwen3moe" "attention.key_length" 0 := by
  unfold qwen3moeConfig
  dsimp only
  split
  · next h =>
    constructor
    · rintro ⟨mc, ⟨⟩⟩
    · omega
  · next h => exact ⟨fun _ => by omega, fun _ => ⟨_, rfl⟩⟩

theorem qwen35Config_not_moe {hdr : GGUFHeader} {mc : MoEConfig} (h : qwen35Config hdr = some mc) : mc.isMoe = false := by
  unfold qwen35Config at h
  dsimp only at h
  split at h
  · cases h
  · cases h
    rfl

theorem qwen3moeConfig_moe {hdr : GGUFHeader} {mc : MoEConfig} (h : qwen3moeConfig hdr = some mc) : mc.isMoe = true := by
  unfold qwen3moeConfig at h
  dsimp only at h
  split at h
  · cases h
  · cases h
    rfl

/-- The metadata of a header keeps the bounds: its expert counts are in them, or its branch refuses them. -/
def CountsInBounds (hdr : GGUFHeader) : Prop :=
  if sameText hdr.arch "qwen35" then True
  else if sameText hdr.arch "qwen3moe" then
    (metaInt hdr "qwen3moe" "expert_count" 0 ≤ 0 ∨ metaInt hdr "qwen3moe" "expert_used_count" 0 ≤ 0 ∨
      metaInt hdr "qwen3moe" "expert_feed_forward_length" 0 ≤ 0 ∨ metaInt hdr "qwen3moe" "attention.key_length" 0 ≤ 0) ∨
    (metaInt hdr "qwen3moe" "expert_count" 0 ≤ 512 ∧
      metaInt hdr "qwen3moe" "expert_used_count" 0 ≤ metaInt hdr "qwen3moe" "expert_count" 0)
  else if sameText hdr.arch "deepseek2" then
    (0 < metaInt hdr "deepseek2" "expert_count" 64 ∧ metaInt hdr "deepseek2" "expert_count" 64 ≤ 512) ∧
      0 < metaInt hdr "deepseek2" "expert_used_count" 6 ∧
        metaInt hdr "deepseek2" "expert_used_count" 6 ≤ metaInt hdr "deepseek2" "expert_count" 64
  else True

/-- Every configuration with experts that comes from a header is in bounds exactly if the metadata is. -/
theorem moeConfigFromGguf_inBounds_iff (hdr : GGUFHeader) :
    (∀ mc, moeConfigFromGguf hdr = some mc → mc.isMoe = true → mc.InBounds) ↔ CountsInBounds hdr := by
  unfold moeConfigFromGguf CountsInBounds
  by_cases hq35 : sameText hdr.arch "qwen35" = true
  · rw [if_pos hq35, if_pos hq35]
    refine iff_of_true (fun mc h hmoe => ?_) trivial
    rw [qwen35Config_not_moe h] at hmoe
    cases hmoe
  rw [if_neg hq35, if_neg hq35]
  by_cases hq3 : sameText hdr.arch "qwen3moe" = true
  · rw [if_pos hq3, if_pos hq3]
    constructor
    · intro h
      by_cases hsome : ∃ mc, qwen3moeConfig hdr = some mc
      · obtain ⟨mc, hmc⟩ := hsome
        exact .inr ((qwen3moeConfig_inBounds_iff hmc).1 (h mc hmc (qwen3moeConfig_moe hmc)))
      · rw [qwen3moeConfig_isSome_iff] at hsome
        exact .inl (by omega)
    · rintro (hrefused | hbounds) mc hmc -
      · have := (qwen3moeConfig_isSome_iff hdr).1 ⟨mc, hmc⟩
        omega
      · exact (qwen3moeConfig_inBounds_iff hmc).2 hbounds
  rw [if_neg hq3, if_neg hq3]
  by_cases hds : sameText hdr.arch "deepseek2" = true
  · rw [if_pos hds, if_neg (by simp [hds])]
    constructor
    · exact fun h => (deepseek2Config_inBounds_iff hdr).1 (h _ rfl rfl)
    · rintro h mc ⟨⟩ -
      exact (deepseek2Config_inBounds_iff hdr).2 h
  · rw [if_neg hds, if_pos (by simpa using hds)]
    refine iff_of_true ?_ trivial
    rintro mc ⟨⟩ hmoe
    cases hmoe

end BitForge.Moe
