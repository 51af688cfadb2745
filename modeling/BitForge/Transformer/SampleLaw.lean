/-
The law of the sampling step of `generate_with_callback` and of the agent loop, with the samplers in exact arithmetic: a
temperature below 1e-6 gives the first token with the greatest logit, whatever number is drawn. Any other one samples the
softmax of the logits over the temperature, over the nucleus where `top_p` is between 0 and 1, and over all tokens else.
-/
import BitForge.Sampling.Law
import BitForge.Transformer.Generate

namespace BitForge.Transformer

open BitForge.Sampling

variable {K : Type} [Field K] [LinearOrder K]

/-- `1e-6f` -/
def minTemperature : K := 1 / ((10 ^ 6 : Nat) : K)

/-- `apply_temperature`. -/
def applyTemperature (logits : Nat → K) (temperature : K) (i : Nat) : K :=
  logits i / (if temperature < minTemperature then minTemperature else temperature)

/-- The samplers of a request, where the step `n` draws the number `draw n`. -/
def exactSampling (expf : K → K) (qsort : List (ProbIndex K) → List (ProbIndex K)) (vocabSize : Nat) (temperature topP : K)
    (draw : Nat → K) : Sampling (Nat → K) where
  greedy := decide (temperature ≤ 0 ∨ temperature < minTemperature)
  nucleus := decide (topP < 1 ∧ topP > 0)
  sampleArgmax logits := BitForge.Sampling.sampleArgmax logits vocabSize
  applyTemperature logits := applyTemperature logits temperature
  sampleTopP step logits := sampleTopPWith expf qsort logits vocabSize topP (draw step)
  softmax logits := BitForge.Sampling.softmax expf logits vocabSize
  pickCdf step logits := sampleCdf logits vocabSize (draw step)

/-- The token of the step for the number `r`. -/
def sampledToken (expf : K → K) (qsort : List (ProbIndex K) → List (ProbIndex K)) (vocabSize : Nat) (temperature topP : K)
    (step : Nat) (logits : Nat → K) (r : K) : Int :=
  (sampleNext (exactSampling expf qsort vocabSize temperature topP fun _ => r) step logits).1

/-- The first token with the greatest logit. -/
structure IsGreatest (logits : Nat → K) (vocabSize : Nat) (token : Int) : Prop where
  inRange : 0 ≤ token ∧ token < vocabSize
  greatest : ∀ i < vocabSize, logits i ≤ logits token.toNat
  first : ∀ i : Nat, (i : Int) < token → logits i < logits token.toNat

/-- What a request's sampling step should be. -/
structure StepLaw (expf : K → K) (vocabSize : Nat) (temperature topP : K) (logits : Nat → K) (sampler : K → Int) :
    Prop where
  greedy : temperature < minTemperature → ∀ r, IsGreatest logits vocabSize (sampler r)
  sampled : minTemperature ≤ temperature → ∃ kept,
    SamplesInProportion (BitForge.Sampling.softmax expf (fun i => logits i / temperature) vocabSize) kept sampler ∧
      (0 < topP ∧ topP < 1 → IsNucleus (BitForge.Sampling.softmax expf (fun i => logits i / temperature) vocabSize)
        (fun i => maxVal (fun i => logits i / temperature) (vocabSize - 1) - 20 ≤ logits i / temperature) vocabSize topP
        kept) ∧
      (¬ (0 < topP ∧ topP < 1) → kept = List.range vocabSize)

omit [Field K] in
/-- What the loop of `sample_argmax` knows after the token `n`. -/
theorem argmaxScan_spec (logits : Nat → K) : ∀ n : Nat, (argmaxScan logits n).1 ≤ n ∧
    (argmaxScan logits n).2 = logits (argmaxScan logits n).1 ∧
    (∀ i ≤ n, logits i ≤ logits (argmaxScan logits n).1) ∧
    ∀ i < (argmaxScan logits n).1, logits i < logits (argmaxScan logits n).1
  | 0 => ⟨le_refl 0, rfl, fun i hi => by rw [Nat.le_zero.1 hi]; rfl, fun i hi => absurd hi (Nat.not_lt_zero i)⟩
  | n + 1 => by
    obtain ⟨hle, hval, hgreatest, hfirst⟩ := argmaxScan_spec logits n
    unfold argmaxScan
    dsimp only
    split
    · next hgt =>
      rw [hval] at hgt
      refine ⟨le_refl _, rfl, fun i hi => ?_, fun i hi => (hgreatest i (by omega)).trans_lt hgt⟩
      rcases Nat.le_succ_iff.1 hi with hi | rfl
      · exact ((hgreatest i hi).trans_lt hgt).le
      · exact le_refl _
    · next hle' =>
      rw [hval] at hle'
      refine ⟨by omega, hval, fun i hi => ?_, hfirst⟩
      rcases Nat.le_succ_iff.1 hi with hi | rfl
      · exact hgreatest i hi
      · exact not_lt.1 hle'

omit [Field K] in
theorem sampleArgmax_isGreatest (logits : Nat → K) {vocabSize : Nat} (h1 : 1 ≤ vocabSize) :
    IsGreatest logits vocabSize (BitForge.Sampling.sampleArgmax logits vocabSize : Nat) := by
  obtain ⟨hle, -, hgreatest, hfirst⟩ := argmaxScan_spec logits (vocabSize - 1)
  unfold BitForge.Sampling.sampleArgmax
  refine ⟨⟨Int.natCast_nonneg _, by omega⟩, fun i hi => ?_, fun i hi => ?_⟩
  · rw [Int.toNat_natCast]
    exact hgreatest i (by omega)
  · rw [Int.toNat_natCast]
    exact hfirst i (by omega)

section

variable [IsStrictOrderedRing K] {expf : K → K} {qsort : List (ProbIndex K) → List (ProbIndex K)} {vocabSize : Nat}
  {temperature topP : K} {logits : Nat → K}

theorem minTemperature_pos : (0 : K) < minTemperature := by
  unfold minTemperature
  positivity

omit [IsStrictOrderedRing K] in
theorem sampledToken_greedy (step : Nat) (h : temperature < minTemperature) (r : K) :
    sampledToken expf qsort vocabSize temperature topP step logits r =
      (BitForge.Sampling.sampleArgmax logits vocabSize : Nat) := by
  unfold sampledToken sampleNext exactSampling
  dsimp only
  rw [if_pos (decide_eq_true (Or.inr h))]

/-- Above the bound the temperature divides the logits, and one of the two samplers draws. -/
theorem sampledToken_sampled (step : Nat) (h : minTemperature ≤ temperature) (r : K) :
    sampledToken expf qsort vocabSize temperature topP step logits r =
      if topP < 1 ∧ topP > 0 then
        (sampleTopPWith expf qsort (fun i => logits i / temperature) vocabSize topP r : Nat)
      else (sampleCdf (BitForge.Sampling.softmax expf (fun i => logits i / temperature) vocabSize) vocabSize r : Nat) := by
  have htemp : applyTemperature logits temperature = fun i => logits i / temperature := by
    funext i
    unfold applyTemperature
    rw [if_neg (not_lt.2 h)]
  have hgreedy : ¬ (temperature ≤ 0 ∨ temperature < minTemperature) := by
    rintro (h0 | h0)
    · exact absurd (minTemperature_pos.trans_le h) (not_lt.2 h0)
    · exact absurd h0 (not_lt.2 h)
  unfold sampledToken sampleNext exactSampling
  dsimp only
  rw [if_neg (by rw [decide_eq_true_iff]; exact hgreedy), htemp]
  by_cases hnucleus : topP < 1 ∧ topP > 0
  · rw [if_pos (decide_eq_true hnucleus), if_pos hnucleus]
  · rw [if_neg (by rw [decide_eq_true_iff]; exact hnucleus), if_neg hnucleus]

/-- The sampling step keeps its law in every step, for all logits. -/
theorem sampleNext_law (hexp : IsExp expf) (hsort : IsQsort qsort) (h1 : 1 ≤ vocabSize) (hvocab : vocabSize ≤ 200000)
    (temperature topP : K) (step : Nat) (logits : Nat → K) :
    StepLaw expf vocabSize temperature topP logits (sampledToken expf qsort vocabSize temperature topP step logits) := by
  constructor
  · intro h r
    rw [sampledToken_greedy step h r]
    exact sampleArgmax_isGreatest logits h1
  · intro h
    by_cases hnucleus : topP < 1 ∧ topP > 0
    · obtain ⟨kept, hkept, hlaw⟩ :=
        @sampleTopPWith_samples K _ _ expf qsort (fun i => logits i / temperature) vocabSize topP _ hexp hsort h1 hvocab
          hnucleus.2 hnucleus.1.le
      refine ⟨kept, ?_, fun _ => hkept, fun hno => absurd hnucleus.symm hno⟩
      have hsampler : sampledToken expf qsort vocabSize temperature topP step logits =
          fun r => ((sampleTopPWith expf qsort (fun i => logits i / temperature) vocabSize topP r : Nat) : Int) := by
        funext r
        rw [sampledToken_sampled step h r, if_pos hnucleus]
      rw [hsampler]
      exact hlaw
    · obtain ⟨-, hlaw⟩ := @sampleCdf_law K _ _ expf (fun i => logits i / temperature) vocabSize _ hexp h1
      refine ⟨List.range vocabSize, ?_, fun hyes => absurd hyes.symm hnucleus, fun _ => rfl⟩
      have hsampler : sampledToken expf qsort vocabSize temperature topP step logits = fun r =>
          ((sampleCdf (BitForge.Sampling.softmax expf (fun i => logits i / temperature) vocabSize) vocabSize r : Nat) :
            Int) := by
        funext r
        rw [sampledToken_sampled step h r, if_neg hnucleus]
      rw [hsampler]
      exact hlaw

theorem sampleNext_law_three : StepLaw sampleExp 3 (1 / 2 : ℚ) (3 / 4) (fun i => (i : ℚ))
    (sampledToken sampleExp (fun l => l.mergeSort fun a b => decide (compareProbDesc a b ≤ 0)) 3 (1 / 2) (3 / 4) 0
      fun i => (i : ℚ)) :=
  sampleNext_law sampleExp_isExp mergeSort_isQsort (by decide) (by decide) (1 / 2) (3 / 4) 0 _

end

end BitForge.Transformer
