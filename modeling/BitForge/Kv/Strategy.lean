/-
The choice of the KV cache by the free RAM, `select_kv_strategy` of `kv_cache/kv_strategy.c`. A product is missing where it
overflows 64 bits.
-/
import Mathlib.Tactic

namespace BitForge.Kv

/-- The fields of `Config` that are read. -/
structure SizeConfig where
  seqLen : Int
  nLayers : Int
  nHeads : Int
  nKvHeads : Int
  dim : Int
deriving DecidableEq, Repr

inductive KVStrategy where
  | slidingI4
  | slidingI8
  | quantI4
  | quantI8
  | fullF32
deriving DecidableEq, Repr

structure KVStrategyResult where
  strategy : KVStrategy
  maxSeqLen : Int
deriving DecidableEq, Repr

def gigabytes (n : Int) : Int := n * 1024 * 1024 * 1024

/-- The choice by the free RAM alone. -/
def tier (seqLen freeRam : Int) : KVStrategyResult :=
  if freeRam > gigabytes 32 then ⟨.fullF32, seqLen⟩
  else if freeRam > gigabytes 8 then ⟨.quantI8, seqLen⟩
  else if freeRam > gigabytes 5 then ⟨.slidingI8, if seqLen < 1024 then seqLen else 1024⟩
  else if freeRam > gigabytes 2 then ⟨.slidingI4, if seqLen < 1024 then seqLen else 1024⟩
  else ⟨.slidingI4, if seqLen < 512 then seqLen else 512⟩

/-- `head_dim`, where `attnHeadDim` is the field of the `MoEConfig`, if there is one. -/
def headDim (cfg : SizeConfig) (attnHeadDim : Option Int) : Int :=
  match attnHeadDim with
  | some d => if d > 0 then d else cfg.dim.tdiv cfg.nHeads
  | none => cfg.dim.tdiv cfg.nHeads

/-- A product of `tn_i64`. -/
def mul64 (a b : Int) : Option Int := if -2 ^ 63 ≤ a * b ∧ a * b < 2 ^ 63 then some (a * b) else none

/-- `per_token` -/
def perToken (cfg : SizeConfig) (attnHeadDim : Option Int) : Option Int := do
  let p ← mul64 cfg.nLayers (if cfg.nKvHeads > 0 then cfg.nKvHeads else cfg.nHeads)
  let p ← mul64 p (headDim cfg attnHeadDim)
  let p ← mul64 p 2
  mul64 p 4

/-- A conversion to `int`. -/
def narrow (x : Int) : Int := x.bmod (2 ^ 32)

/-- `max_safe_ctx` -/
def maxSafeCtx (budget perToken : Int) : Int := if budget.tdiv perToken < 512 then 512 else budget.tdiv perToken

/-- `select_kv_strategy` -/
def selectKvStrategy (cfg : SizeConfig) (freeRam : Int) (attnHeadDim : Option Int) : Option KVStrategyResult := do
  let result := tier cfg.seqLen freeRam
  let perToken ← perToken cfg attnHeadDim
  if perToken > 0 then
    let budget ← mul64 (freeRam.tdiv 10) 6 -- 60% of the free RAM
    let maxSafe := narrow (maxSafeCtx budget perToken)
    some (if result.maxSeqLen > maxSafe then { result with maxSeqLen := maxSafe } else result)
  else some result

/-- Positive fields of `int`. -/
structure SizeConfig.Positive (cfg : SizeConfig) : Prop where
  seqLen : 0 < cfg.seqLen ∧ cfg.seqLen < 2 ^ 31
  nLayers : 0 < cfg.nLayers ∧ cfg.nLayers < 2 ^ 31
  nHeads : 0 < cfg.nHeads ∧ cfg.nHeads < 2 ^ 31
  nKvHeads : 0 < cfg.nKvHeads ∧ cfg.nKvHeads < 2 ^ 31
  dim : 0 < cfg.dim ∧ cfg.dim < 2 ^ 31

/-- Bytes for a position of the cache. -/
def bytesPerPosition (cfg : SizeConfig) (attnHeadDim : Option Int) : Int :=
  cfg.nLayers * cfg.nKvHeads * headDim cfg attnHeadDim * 8

/-- The positions that the RAM has room for are an `int`, where they are computed. -/
def NoIntOverflow (cfg : SizeConfig) (freeRam : Int) (attnHeadDim : Option Int) : Prop :=
  0 < bytesPerPosition cfg attnHeadDim → maxSafeCtx (freeRam.tdiv 10 * 6) (bytesPerPosition cfg attnHeadDim) < 2 ^ 31

/-- No overflow, a length between one and the model's, and a cache of at most 512 positions or of at most 60% of the RAM. -/
def RespectsBudget (cfg : SizeConfig) (freeRam : Int) (attnHeadDim : Option Int) : Prop :=
  NoIntOverflow cfg freeRam attnHeadDim ∧
    ∃ r, selectKvStrategy cfg freeRam attnHeadDim = some r ∧ 0 < r.maxSeqLen ∧ r.maxSeqLen ≤ cfg.seqLen ∧
      (r.maxSeqLen ≤ 512 ∨ 10 * (r.maxSeqLen * bytesPerPosition cfg attnHeadDim) ≤ 6 * freeRam)

/-- The size of a position is a 64-bit number, and 60% of the RAM are less than 2 ^ 31 positions. -/
def Sizes (cfg : SizeConfig) (freeRam : Int) (attnHeadDim : Option Int) : Prop :=
  bytesPerPosition cfg attnHeadDim < 2 ^ 63 ∧
    (0 < bytesPerPosition cfg attnHeadDim → freeRam.tdiv 10 * 6 < 2 ^ 31 * bytesPerPosition cfg attnHeadDim)

/-! ## The parts -/

variable {cfg : SizeConfig} {freeRam : Int} {attnHeadDim : Option Int}

theorem headDim_nonneg (h : cfg.Positive) : 0 ≤ headDim cfg attnHeadDim := by
  have hnaive : 0 ≤ cfg.dim.tdiv cfg.nHeads := Int.tdiv_nonneg h.dim.1.le h.nHeads.1.le
  unfold headDim
  split
  · split_ifs with hpos
    · exact hpos.le
    · exact hnaive
  · exact hnaive

theorem tier_maxSeqLen (hseq : 0 < cfg.seqLen) :
    0 < (tier cfg.seqLen freeRam).maxSeqLen ∧ (tier cfg.seqLen freeRam).maxSeqLen ≤ cfg.seqLen ∧
      ((tier cfg.seqLen freeRam).maxSeqLen ≤ 512 ∨ 0 < freeRam) := by
  unfold tier gigabytes
  split_ifs <;> dsimp only <;> omega

theorem mul64_eq {a b : Int} (h : 0 ≤ a * b) : mul64 a b = if a * b < 2 ^ 63 then some (a * b) else none := by
  unfold mul64
  split_ifs with hboth hlt hlt
  · rfl
  · exact absurd hboth.2 hlt
  · exact absurd ⟨by omega, hlt⟩ hboth
  · rfl

/-- The size of a position is computed if it fits, for then so do the products before it. -/
theorem perToken_eq (h : cfg.Positive) :
    perToken cfg attnHeadDim = if bytesPerPosition cfg attnHeadDim < 2 ^ 63 then some (bytesPerPosition cfg attnHeadDim) else none := by
  obtain ⟨hl0, hl⟩ := h.nLayers
  obtain ⟨hk0, hk⟩ := h.nKvHeads
  have hrows : 0 ≤ cfg.nLayers * cfg.nKvHeads := mul_nonneg hl0.le hk0.le
  have hrows62 : cfg.nLayers * cfg.nKvHeads < 2 ^ 62 := by nlinarith
  have hcells : 0 ≤ cfg.nLayers * cfg.nKvHeads * headDim cfg attnHeadDim := mul_nonneg hrows (headDim_nonneg h)
  unfold perToken bytesPerPosition
  rw [if_pos hk0, mul64_eq hrows, if_pos (by omega), Option.bind_eq_bind, Option.bind_some, mul64_eq hcells]
  generalize cfg.nLayers * cfg.nKvHeads * headDim cfg attnHeadDim = cells at hcells
  by_cases hfit : cells * 8 < 2 ^ 63
  · rw [if_pos hfit, if_pos (by omega), Option.bind_some, mul64_eq (by omega), if_pos (by omega), Option.bind_some,
      mul64_eq (by omega), if_pos (by omega)]
    congr 1
    ring
  · rw [if_neg hfit]
    by_cases hone : cells < 2 ^ 63
    · rw [if_pos hone, Option.bind_some, mul64_eq (by omega)]
      by_cases htwo : cells * 2 < 2 ^ 63
      · rw [if_pos htwo, Option.bind_some, mul64_eq (by omega), if_neg (by omega)]
      · rw [if_neg htwo, Option.bind_none]
    · rw [if_neg hone, Option.bind_none]

theorem mul64_budget (hlo : -2 ^ 63 ≤ freeRam) (hhi : freeRam < 2 ^ 63) : mul64 (freeRam.tdiv 10) 6 = some (freeRam.tdiv 10 * 6) := by
  unfold mul64
  rw [if_pos]
  rcases le_or_gt 0 freeRam with h | h
  · rw [Int.tdiv_eq_ediv_of_nonneg h]
    omega
  · rw [← Int.neg_neg freeRam, Int.neg_tdiv, Int.tdiv_eq_ediv_of_nonneg (by omega)]
    omega

/-- A number of positions above 512 is a quotient, and fits the RAM. -/
theorem maxSafeCtx_fits {bytes : Int} (hbytes : 0 < bytes) (hgt : 512 < maxSafeCtx (freeRam.tdiv 10 * 6) bytes) :
    10 * (maxSafeCtx (freeRam.tdiv 10 * 6) bytes * bytes) ≤ 6 * freeRam := by
  unfold maxSafeCtx at *
  split_ifs at * with hsmall
  · omega
  · have hfree : 0 ≤ freeRam := by
      by_contra hneg
      have htenth : freeRam.tdiv 10 * 6 ≤ 0 := by
        rw [← Int.neg_neg freeRam, Int.neg_tdiv, Int.tdiv_eq_ediv_of_nonneg (by omega)]
        omega
      have hquot : (freeRam.tdiv 10 * 6).tdiv bytes ≤ 0 := by
        rw [← Int.neg_neg (freeRam.tdiv 10 * 6), Int.neg_tdiv]
        have hnonneg := Int.tdiv_nonneg (show 0 ≤ -(freeRam.tdiv 10 * 6) by omega) hbytes.le
        omega
      omega
    have htenth : freeRam.tdiv 10 = freeRam / 10 := Int.tdiv_eq_ediv_of_nonneg hfree
    have hmul : (freeRam / 10 * 6) / bytes * bytes ≤ freeRam / 10 * 6 := Int.ediv_mul_le _ hbytes.ne'
    rw [htenth, Int.tdiv_eq_ediv_of_nonneg (by omega)]
    omega

theorem maxSafeCtx_ge (budget bytes : Int) : 512 ≤ maxSafeCtx budget bytes := by
  unfold maxSafeCtx
  split_ifs <;> omega

theorem maxSafeCtx_lt_iff {budget bytes : Int} (hbytes : 0 < bytes) : maxSafeCtx budget bytes < 2 ^ 31 ↔ budget < 2 ^ 31 * bytes := by
  have hquot : budget.tdiv bytes < 2 ^ 31 ↔ budget < 2 ^ 31 * bytes := by
    rcases le_or_gt 0 budget with hpos | hneg
    · rw [Int.tdiv_eq_ediv_of_nonneg hpos]
      exact Int.ediv_lt_iff_lt_mul hbytes
    · have hle : budget.tdiv bytes ≤ 0 := by
        have hnonneg := Int.tdiv_nonneg (show 0 ≤ -budget by omega) hbytes.le
        rw [Int.neg_tdiv] at hnonneg
        omega
      constructor <;> intro _ <;> omega
  unfold maxSafeCtx
  split_ifs with hsmall
  · constructor
    · exact fun _ => hquot.1 (by omega)
    · exact fun _ => by decide
  · exact hquot

/-- A conversion keeps the values of `int`. -/
theorem narrow_eq {x : Int} (h0 : 0 ≤ x) (h : x < 2 ^ 31) : narrow x = x := by
  unfold narrow
  rw [Int.bmod_def]
  split_ifs <;> omega

/-! ## The choice -/

theorem selectKvStrategy_eq (h : cfg.Positive) (hlo : -2 ^ 63 ≤ freeRam) (hhi : freeRam < 2 ^ 63)
    (hfit : bytesPerPosition cfg attnHeadDim < 2 ^ 63) :
    selectKvStrategy cfg freeRam attnHeadDim = some (
      let maxSafe := narrow (maxSafeCtx (freeRam.tdiv 10 * 6) (bytesPerPosition cfg attnHeadDim))
      if bytesPerPosition cfg attnHeadDim > 0 ∧ (tier cfg.seqLen freeRam).maxSeqLen > maxSafe then
        { tier cfg.seqLen freeRam with maxSeqLen := maxSafe }
      else tier cfg.seqLen freeRam) := by
  unfold selectKvStrategy
  dsimp only
  rw [perToken_eq h, if_pos hfit, Option.bind_eq_bind, Option.bind_some, mul64_budget hlo hhi]
  by_cases hpos : bytesPerPosition cfg attnHeadDim > 0
  · simp [hpos]
  · simp [hpos]

/-- The budget is respected for just the sizes that fit. -/
theorem respectsBudget_iff (h : cfg.Positive) (hlo : -2 ^ 63 ≤ freeRam) (hhi : freeRam < 2 ^ 63) :
    RespectsBudget cfg freeRam attnHeadDim ↔ Sizes cfg freeRam attnHeadDim := by
  obtain ⟨htpos, htle, htfree⟩ := @tier_maxSeqLen cfg freeRam h.seqLen.1
  have hnonneg : 0 ≤ bytesPerPosition cfg attnHeadDim :=
    mul_nonneg (mul_nonneg (mul_nonneg h.nLayers.1.le h.nKvHeads.1.le) (headDim_nonneg h)) (by decide)
  have hint : NoIntOverflow cfg freeRam attnHeadDim ↔
      (0 < bytesPerPosition cfg attnHeadDim → freeRam.tdiv 10 * 6 < 2 ^ 31 * bytesPerPosition cfg attnHeadDim) :=
    forall_congr' fun hpos => maxSafeCtx_lt_iff hpos
  unfold RespectsBudget Sizes
  rw [← hint]
  by_cases hfit : bytesPerPosition cfg attnHeadDim < 2 ^ 63
  · refine ⟨fun hresp => ⟨hfit, hresp.1⟩, fun hsizes => ⟨hsizes.2, ?_⟩⟩
    have hlt := hsizes.2
    unfold NoIntOverflow at hlt
    rw [selectKvStrategy_eq h hlo hhi hfit]
    refine ⟨_, rfl, ?_⟩
    dsimp only
    have hge := maxSafeCtx_ge (freeRam.tdiv 10 * 6) (bytesPerPosition cfg attnHeadDim)
    have hfits := fun hpos => @maxSafeCtx_fits freeRam (bytesPerPosition cfg attnHeadDim) hpos
    generalize maxSafeCtx (freeRam.tdiv 10 * 6) (bytesPerPosition cfg attnHeadDim) = maxSafe at *
    generalize tier cfg.seqLen freeRam = t at *
    -- a length of at most the positions that the RAM has room for
    have hbound : ∀ m : Int, 0 < bytesPerPosition cfg attnHeadDim → m ≤ maxSafe → 0 < m →
        m ≤ 512 ∨ 10 * (m * bytesPerPosition cfg attnHeadDim) ≤ 6 * freeRam := by
      intro m hpos hm hm0
      rcases le_or_gt m 512 with hsmall | hbig
      · exact .inl hsmall
      · have hmul := mul_le_mul_of_nonneg_right hm hnonneg
        have := hfits hpos (by omega)
        exact .inr (by omega)
    split_ifs with hcond
    · have hself := narrow_eq (show 0 ≤ maxSafe by omega) (hlt hcond.1)
      dsimp only
      rw [hself] at hcond ⊢
      exact ⟨by omega, by omega, hbound _ hcond.1 le_rfl (by omega)⟩
    · refine ⟨htpos, htle, ?_⟩
      rcases hnonneg.eq_or_lt with hzero | hpos
      · rw [← hzero]
        rcases htfree with hsmall | hfree
        · exact .inl hsmall
        · exact .inr (by omega)
      · have hself := narrow_eq (show 0 ≤ maxSafe by omega) (hlt hpos)
        have hnot : ¬ t.maxSeqLen > narrow maxSafe := fun hgt => hcond ⟨hpos, hgt⟩
        exact hbound _ hpos (by omega) htpos
  · constructor
    · rintro ⟨-, r, hr, -⟩
      unfold selectKvStrategy at hr
      dsimp only at hr
      rw [perToken_eq h, if_neg hfit, Option.bind_eq_bind, Option.bind_none] at hr
      exact absurd hr (by simp)
    · rintro ⟨hlt, -⟩
      exact absurd hlt hfit

theorem respectsBudget_iff_llama : RespectsBudget ⟨4096, 32, 32, 8, 4096⟩ (gigabytes 6) none ↔ Sizes ⟨4096, 32, 32, 8, 4096⟩ (gigabytes 6) none :=
  respectsBudget_iff ⟨by decide, by decide, by decide, by decide, by decide⟩ (by decide) (by decide)

/-- 8 bytes for a position: 27 GB have room for 2 ^ 31 positions, and the length chosen is negative; 57 GB have room for
2 ^ 32 + 1000, and it is 1000. -/
theorem negative_length :
    (¬ RespectsBudget ⟨4096, 1, 1, 1, 1⟩ 28633115310 none ∧
      selectKvStrategy ⟨4096, 1, 1, 1, 1⟩ 28633115310 none = some ⟨.quantI8, -2 ^ 31⟩) ∧
    ¬ RespectsBudget ⟨4096, 1, 1, 1, 1⟩ 57266243950 none ∧
      selectKvStrategy ⟨4096, 1, 1, 1, 1⟩ 57266243950 none = some ⟨.fullF32, 1000⟩ := by
  rw [respectsBudget_iff ⟨by decide, by decide, by decide, by decide, by decide⟩ (by decide) (by decide),
    respectsBudget_iff ⟨by decide, by decide, by decide, by decide, by decide⟩ (by decide) (by decide)]
  unfold Sizes
  decide

end BitForge.Kv
