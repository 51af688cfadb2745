/-
`sample_top_p` in exact arithmetic: over an ordered field, with any positive and strictly increasing function for `expf`
and any sort that a `qsort` may be. The token it returns is in the nucleus: the tokens that are more probable than it do
not reach `top_p`, in the distribution over all tokens.
-/
import BitForge.Lib.Sorting
import Mathlib.Algebra.Order.BigOperators.Group.Finset
import Mathlib.Algebra.Order.Field.Basic
import Mathlib.Tactic

namespace BitForge.Sampling

open BitForge.Lib
open Finset (range sum_range_succ)

variable {K : Type} [Field K] [LinearOrder K]

/-! ## `sample_argmax` and `rng_float` -/

/-- The loop of `sample_argmax` over the tokens 1 to `n`: the best index and its logit. -/
def argmaxScan (logits : Nat → K) : Nat → Nat × K
  | 0 => (0, logits 0)
  | i + 1 =>
    let best := argmaxScan logits i
    if logits (i + 1) > best.2 then (i + 1, logits (i + 1)) else best

def sampleArgmax (logits : Nat → K) (vocabSize : Nat) : Nat := (argmaxScan logits (vocabSize - 1)).1

/-- `rng_float`: the number and the next state. -/
def rngFloat (state : UInt64) : K × UInt64 :=
  let s := state ^^^ (state >>> 12)
  let s := s ^^^ (s <<< 25)
  let s := s ^^^ (s >>> 27)
  (((s * 0x2545F4914F6CDD1D) >>> 33).toNat / (2 ^ 31 : Nat), s)

theorem rngFloat_mem [IsStrictOrderedRing K] (state : UInt64) : 0 ≤ (rngFloat (K := K) state).1 ∧ (rngFloat (K := K) state).1 < 1 := by
  unfold rngFloat
  dsimp only
  generalize (_ : UInt64) * 0x2545F4914F6CDD1D = x
  have hlt : (x >>> 33).toNat < 2 ^ 31 := by
    have := x.toNat_lt
    rw [UInt64.toNat_shiftRight, Nat.shiftRight_eq_div_pow]
    show x.toNat / 2 ^ 33 < 2 ^ 31
    omega
  refine ⟨by positivity, ?_⟩
  rw [div_lt_one (by positivity)]
  exact_mod_cast hlt

/-! ## `sample_top_p` -/

structure ProbIndex (K : Type) where
  prob : K
  index : Nat

def compareProbDesc (a b : ProbIndex K) : Int := if a.prob > b.prob then -1 else if a.prob < b.prob then 1 else 0

/-- `MAX_VOCAB_SIZE` -/
def maxVocabSize : Nat := 200000

/-- The loop that finds `max_val`, over the tokens 1 to `n`. -/
def maxVal (logits : Nat → K) : Nat → K
  | 0 => logits 0
  | i + 1 => if logits (i + 1) > maxVal logits i then logits (i + 1) else maxVal logits i

/-- `static_candidates` and `sum`, as the filter leaves them after `i` tokens. -/
structure Candidates (K : Type) where
  entries : List (ProbIndex K)
  sum : K

/-- The pre-filter. -/
def filterCandidates (expf : K → K) (logits : Nat → K) (max : K) : Nat → Candidates K
  | 0 => ⟨[], 0⟩
  | i + 1 =>
    let s := filterCandidates expf logits max i
    if logits i ≥ max - 20 then ⟨s.entries ++ [⟨expf (logits i - max), i⟩], s.sum + expf (logits i - max)⟩ else s

/-- The loop for `cutoff`, from the candidate `i` on. -/
def cutoffFrom (topP : K) : List (ProbIndex K) → K → Nat → Nat
  | [], _, i => i
  | c :: rest, cumulative, i =>
    if cumulative + c.prob ≥ topP then i + 1 else cutoffFrom topP rest (cumulative + c.prob) (i + 1)

/-- The loop that samples: the index of the first candidate with `r < cdf`. -/
def pickFrom (r : K) : List (ProbIndex K) → K → Option Nat
  | [], _ => none
  | c :: rest, cdf => if r < cdf + c.prob then some c.index else pickFrom r rest (cdf + c.prob)

/-- A candidate whose probability is normalized. -/
def ProbIndex.scale (c : ProbIndex K) (invSum : K) : ProbIndex K := { c with prob := c.prob * invSum }

/-- `sample_top_p` where the random number is `random`. -/
def sampleTopPWith (expf : K → K) (qsort : List (ProbIndex K) → List (ProbIndex K)) (logits : Nat → K) (vocabSize : Nat)
    (topP random : K) : Nat :=
  if vocabSize > maxVocabSize then sampleArgmax logits vocabSize
  else
    let max := maxVal logits (vocabSize - 1)
    let filtered := filterCandidates expf logits max vocabSize
    if filtered.entries.isEmpty then sampleArgmax logits vocabSize
    else
      let invSum := 1 / filtered.sum
      let candidates := qsort (filtered.entries.map (ProbIndex.scale · invSum))
      let kept := candidates.take (cutoffFrom topP candidates 0 0)
      let truncSum := kept.foldl (fun s c => s + c.prob) 0
      (pickFrom (random * truncSum) kept 0).getD (candidates.headD ⟨0, 0⟩).index

/-- `sample_top_p`: the token and the next state of the generator. No number is drawn where it falls back. -/
def sampleTopP (expf : K → K) (qsort : List (ProbIndex K) → List (ProbIndex K)) (logits : Nat → K) (vocabSize : Nat)
    (topP : K) (rngState : UInt64) : Nat × UInt64 :=
  let drawn := rngFloat (K := K) rngState
  let fallsBack := vocabSize > maxVocabSize ∨
    (filterCandidates expf logits (maxVal logits (vocabSize - 1)) vocabSize).entries.isEmpty
  (sampleTopPWith expf qsort logits vocabSize topP drawn.1, if fallsBack then rngState else drawn.2)

/-! ## The nucleus -/

/-- The probabilities of all tokens. -/
def softmax (expf : K → K) (logits : Nat → K) (vocabSize i : Nat) : K :=
  expf (logits i - maxVal logits (vocabSize - 1)) /
    ∑ j ∈ range vocabSize, expf (logits j - maxVal logits (vocabSize - 1))

/-- A token such that the tokens more probable than it do not reach `top_p`. -/
structure InNucleus (prob : Nat → K) (vocabSize : Nat) (topP : K) (token : Nat) : Prop where
  inRange : token < vocabSize
  mass : ∑ i ∈ range vocabSize with prob token < prob i, prob i < topP

/-- What the code relies on of `expf`. -/
structure IsExp (expf : K → K) : Prop where
  pos : ∀ x, 0 < expf x
  mono : StrictMono expf

/-- What the C standard says of `qsort` with `compare_prob_desc`. -/
structure IsQsort (qsort : List (ProbIndex K) → List (ProbIndex K)) : Prop where
  perm : ∀ l, (qsort l).Perm l
  sorted : ∀ l, SortedBy compareProbDesc (qsort l)

omit [Field K] in
theorem compareProbDesc_le {a b : ProbIndex K} : compareProbDesc a b ≤ 0 ↔ b.prob ≤ a.prob := by
  unfold compareProbDesc
  rcases lt_trichotomy a.prob b.prob with h | h | h
  · simp [h, h.not_gt]
  · simp [h]
  · simp [h, h.le]

/-! ## The maximum and the filter -/

section

variable {logits : Nat → K}

omit [Field K] in
theorem le_maxVal : ∀ (n i : Nat), i ≤ n → logits i ≤ maxVal logits n
  | 0, i, hi => by rw [Nat.le_zero.1 hi]; rfl
  | n + 1, i, hi => by
    unfold maxVal
    rcases Nat.le_succ_iff.1 hi with hle | rfl
    · have ih := le_maxVal n i hle
      split
      · next hgt => exact ih.trans (le_of_lt hgt)
      · exact ih
    · split
      · exact le_refl _
      · next hle => exact not_lt.1 hle

omit [Field K] in
theorem maxVal_mem (logits : Nat → K) : ∀ n : Nat, ∃ i ≤ n, logits i = maxVal logits n
  | 0 => ⟨0, le_refl 0, rfl⟩
  | n + 1 => by
    obtain ⟨i, hi, heq⟩ := maxVal_mem logits n
    unfold maxVal
    split
    · exact ⟨n + 1, le_refl _, rfl⟩
    · exact ⟨i, Nat.le_succ_of_le hi, heq⟩

variable {expf : K → K} {max : K}

theorem filterCandidates_pass {n : Nat} (h : max - 20 ≤ logits n) : filterCandidates expf logits max (n + 1) =
    ⟨(filterCandidates expf logits max n).entries ++ [⟨expf (logits n - max), n⟩],
      (filterCandidates expf logits max n).sum + expf (logits n - max)⟩ := if_pos h

theorem filterCandidates_skip {n : Nat} (h : ¬ max - 20 ≤ logits n) :
    filterCandidates expf logits max (n + 1) = filterCandidates expf logits max n := if_neg h

theorem mem_entries {c : ProbIndex K} : ∀ {n : Nat}, c ∈ (filterCandidates expf logits max n).entries ↔
    ∃ i < n, max - 20 ≤ logits i ∧ c = ⟨expf (logits i - max), i⟩
  | 0 => by simp [filterCandidates]
  | n + 1 => by
    have ih := @mem_entries c n
    by_cases hpass : max - 20 ≤ logits n
    · rw [filterCandidates_pass hpass]
      dsimp only
      rw [List.mem_append, List.mem_singleton, ih]
      constructor
      · rintro (⟨i, hi, hle, rfl⟩ | rfl)
        · exact ⟨i, Nat.lt_succ_of_lt hi, hle, rfl⟩
        · exact ⟨n, Nat.lt_succ_self n, hpass, rfl⟩
      · rintro ⟨i, hi, hle, rfl⟩
        rcases Nat.lt_succ_iff_lt_or_eq.1 hi with hlt | rfl
        · exact .inl ⟨i, hlt, hle, rfl⟩
        · exact .inr rfl
    · rw [filterCandidates_skip hpass, ih]
      constructor
      · rintro ⟨i, hi, hle, rfl⟩
        exact ⟨i, Nat.lt_succ_of_lt hi, hle, rfl⟩
      · rintro ⟨i, hi, hle, rfl⟩
        rcases Nat.lt_succ_iff_lt_or_eq.1 hi with hi | rfl
        · exact ⟨i, hi, hle, rfl⟩
        · exact absurd hle hpass

/-- The sum of the filter is that of the tokens it lets through. -/
theorem sum_filterCandidates : ∀ n : Nat, (filterCandidates expf logits max n).sum =
    ∑ i ∈ range n, if max - 20 ≤ logits i then expf (logits i - max) else 0
  | 0 => rfl
  | n + 1 => by
    rw [sum_range_succ, ← sum_filterCandidates n]
    by_cases hpass : max - 20 ≤ logits n
    · rw [filterCandidates_pass hpass, if_pos hpass]
    · rw [filterCandidates_skip hpass, if_neg hpass, add_zero]

/-- The weight of the candidates above a bound. -/
theorem sum_entries_above (a : K) : ∀ n : Nat,
    ((((filterCandidates expf logits max n).entries.filter fun c => decide (a < c.prob)).map ProbIndex.prob).sum) =
      ∑ i ∈ range n, if max - 20 ≤ logits i ∧ a < expf (logits i - max) then expf (logits i - max) else 0
  | 0 => rfl
  | n + 1 => by
    rw [sum_range_succ, ← sum_entries_above a n]
    by_cases hpass : max - 20 ≤ logits n
    · rw [filterCandidates_pass hpass]
      dsimp only
      rw [List.filter_append, List.map_append, List.sum_append]
      by_cases ha : a < expf (logits n - max) <;> simp [ha, hpass]
    · rw [filterCandidates_skip hpass, if_neg (fun h => hpass h.1), add_zero]

end

/-! ## The scans -/

section

variable {topP : K}

/-- Below the cutoff the candidates before one do not reach `top_p`. -/
theorem cutoffFrom_spec : ∀ (l : List (ProbIndex K)) (cumulative : K) (i k : Nat), cumulative < topP →
    i + k < cutoffFrom topP l cumulative i → k < l.length ∧ cumulative + ((l.take k).map ProbIndex.prob).sum < topP
  | [], _, _, _, _, hk => by
    unfold cutoffFrom at hk
    omega
  | c :: rest, cumulative, i, 0, hlt, _ => ⟨Nat.succ_pos _, by simpa using hlt⟩
  | c :: rest, cumulative, i, k + 1, hlt, hk => by
    unfold cutoffFrom at hk
    split at hk
    · omega
    · next hbelow =>
      -- the sum is still below `top_p`, so the next candidate is inspected with it
      obtain ⟨hlen, hsum⟩ := cutoffFrom_spec rest (cumulative + c.prob) (i + 1) k (not_le.1 hbelow) (by omega)
      refine ⟨Nat.succ_lt_succ hlen, ?_⟩
      rw [List.take_succ_cons, List.map_cons, List.sum_cons, ← add_assoc]
      exact hsum

theorem le_cutoffFrom : ∀ (l : List (ProbIndex K)) (cumulative : K) (i : Nat), i ≤ cutoffFrom topP l cumulative i
  | [], _, _ => le_refl _
  | c :: rest, cumulative, i => by
    unfold cutoffFrom
    split
    · exact Nat.le_succ i
    · exact (Nat.le_succ i).trans (le_cutoffFrom rest _ (i + 1))

theorem cutoffFrom_pos {l : List (ProbIndex K)} (hl : l ≠ []) (cumulative : K) : 0 < cutoffFrom topP l cumulative 0 := by
  obtain ⟨c, rest, rfl⟩ := List.exists_cons_of_ne_nil hl
  unfold cutoffFrom
  split
  · exact Nat.one_pos
  · exact le_cutoffFrom rest _ 1

theorem pickFrom_some {r : K} {t : Nat} : ∀ (l : List (ProbIndex K)) (cdf : K), pickFrom r l cdf = some t →
    ∃ (k : Nat) (c : ProbIndex K), l[k]? = some c ∧ c.index = t
  | [], _, h => by cases h
  | c :: rest, cdf, h => by
    unfold pickFrom at h
    split at h
    · exact ⟨0, c, rfl, Option.some.inj h⟩
    · obtain ⟨k, c', hk, ht⟩ := pickFrom_some rest _ h
      exact ⟨k + 1, c', hk, ht⟩

/-- The candidates with more probability than one of them stand before it. -/
theorem sum_above_le [IsStrictOrderedRing K] {l : List (ProbIndex K)} (hsorted : SortedBy compareProbDesc l) (hpos : ∀ c ∈ l, 0 ≤ c.prob)
    {k : Nat} {c : ProbIndex K} (hk : l[k]? = some c) :
    ((l.filter fun b => decide (c.prob < b.prob)).map ProbIndex.prob).sum ≤ ((l.take k).map ProbIndex.prob).sum := by
  obtain ⟨hlt, hget⟩ := List.getElem?_eq_some_iff.1 hk
  -- from the position `k` on nothing is greater, as the list is sorted
  have hbehind : (l.drop k).filter (fun b => decide (c.prob < b.prob)) = [] := by
    rw [List.filter_eq_nil_iff]
    intro b hb
    rw [List.drop_eq_getElem_cons hlt, hget] at hb
    have hle : b.prob ≤ c.prob := by
      rcases List.mem_cons.1 hb with rfl | hb
      · exact le_refl _
      · have hdrop := List.Pairwise.sublist (List.drop_sublist k l) hsorted
        rw [List.drop_eq_getElem_cons hlt, hget, List.pairwise_cons] at hdrop
        exact compareProbDesc_le.1 (hdrop.1 b hb)
    simpa using hle
  have hsplit : l.filter (fun b => decide (c.prob < b.prob)) =
      (l.take k).filter fun b => decide (c.prob < b.prob) := by
    conv_lhs => rw [← List.take_append_drop k l]
    rw [List.filter_append, hbehind, List.append_nil]
  rw [hsplit]
  refine List.Sublist.sum_le_sum (List.filter_sublist.map _) fun x hx => ?_
  obtain ⟨b, hb, rfl⟩ := List.mem_map.1 hx
  exact hpos b (List.mem_of_mem_take hb)

end

/-! ## The token that is sampled -/

section

variable {expf : K → K} {qsort : List (ProbIndex K) → List (ProbIndex K)} {logits : Nat → K} {vocabSize : Nat} {topP : K}

/-- The token is that of a candidate before the cutoff. -/
theorem sampled_candidate {candidates : List (ProbIndex K)} (hne : candidates ≠ []) (r : K) :
    ∃ k c, k < cutoffFrom topP candidates 0 0 ∧ candidates[k]? = some c ∧
      (pickFrom r (candidates.take (cutoffFrom topP candidates 0 0)) 0).getD (candidates.headD ⟨0, 0⟩).index = c.index := by
  cases hpick : pickFrom r (candidates.take (cutoffFrom topP candidates 0 0)) 0 with
  | none =>
    -- without a pick the first candidate is taken, which is before every cutoff
    obtain ⟨c, rest, rfl⟩ := List.exists_cons_of_ne_nil hne
    exact ⟨0, c, cutoffFrom_pos hne 0, rfl, rfl⟩
  | some t =>
    obtain ⟨k, c, hk, ht⟩ := pickFrom_some _ _ hpick
    rw [List.getElem?_take] at hk
    split at hk
    · next hlt => exact ⟨k, c, hlt, hk, ht.symm⟩
    · cases hk

variable [IsStrictOrderedRing K]

/-- The token with the largest logit passes the filter. -/
theorem maxVal_passes (logits : Nat → K) (h1 : 1 ≤ vocabSize) :
    ∃ top < vocabSize, maxVal logits (vocabSize - 1) - 20 ≤ logits top := by
  obtain ⟨top, htop, hlargest⟩ := maxVal_mem logits (vocabSize - 1)
  refine ⟨top, by omega, ?_⟩
  rw [hlargest]
  linarith

/-- The candidates weigh something, and at most as much as all tokens. -/
theorem filtered_bounds (hexp : IsExp expf) {max : K} {top : Nat} (htop : top < vocabSize) (hpass : max - 20 ≤ logits top) :
    0 < (filterCandidates expf logits max vocabSize).sum ∧
      (filterCandidates expf logits max vocabSize).sum ≤ ∑ i ∈ range vocabSize, expf (logits i - max) := by
  rw [sum_filterCandidates]
  constructor
  · refine Finset.sum_pos' (fun i _ => ?_) ⟨top, Finset.mem_range.2 htop, ?_⟩
    · split
      · exact (hexp.pos _).le
      · exact le_refl 0
    · rw [if_pos hpass]
      exact hexp.pos _
  · refine Finset.sum_le_sum fun i _ => ?_
    split
    · exact le_refl _
    · exact (hexp.pos _).le

/-- The candidates above one of them, after the normalization and the sort: they are all tokens above it. -/
theorem sum_candidates_above (hexp : IsExp expf) (hsort : IsQsort qsort) {max inv : K} (hinv : 0 < inv) {t : Nat}
    (hpass : max - 20 ≤ logits t) :
    (((qsort ((filterCandidates expf logits max vocabSize).entries.map (ProbIndex.scale · inv))).filter
      fun b => decide (expf (logits t - max) * inv < b.prob)).map ProbIndex.prob).sum =
        (∑ i ∈ range vocabSize with expf (logits t - max) < expf (logits i - max), expf (logits i - max)) * inv := by
  rw [(((hsort.perm _).filter _).map _).sum_eq, List.filter_map, List.map_map]
  have hpred : (fun b : ProbIndex K => decide (expf (logits t - max) * inv < b.prob)) ∘ (ProbIndex.scale · inv) =
      fun c => decide (expf (logits t - max) < c.prob) := by
    funext c
    exact decide_eq_decide.2 (mul_lt_mul_iff_left₀ hinv)
  have hprob : ProbIndex.prob ∘ (ProbIndex.scale · inv) = fun c : ProbIndex K => c.prob * inv := rfl
  rw [hpred, hprob, List.sum_map_mul_right]
  congr 1
  refine (sum_entries_above _ vocabSize).trans ?_
  rw [Finset.sum_filter]
  refine Finset.sum_congr rfl fun i _ => ?_
  refine if_congr ⟨fun h => h.2, fun h => ⟨?_, h⟩⟩ rfl rfl
  -- a token above one that passes the filter passes it
  have := hexp.mono.lt_iff_lt.1 h
  linarith

theorem sampleTopPWith_inNucleus (hexp : IsExp expf) (hsort : IsQsort qsort) (h1 : 1 ≤ vocabSize)
    (hvocab : vocabSize ≤ 200000) (hp : 0 < topP) (random : K) :
    InNucleus (softmax expf logits vocabSize) vocabSize topP
      (sampleTopPWith expf qsort logits vocabSize topP random) := by
  obtain ⟨top, htop, hpass⟩ := maxVal_passes logits h1
  obtain ⟨hpos, hle⟩ := filtered_bounds hexp htop hpass
  have hentry : (⟨expf (logits top - maxVal logits (vocabSize - 1)), top⟩ : ProbIndex K) ∈
      (filterCandidates expf logits (maxVal logits (vocabSize - 1)) vocabSize).entries :=
    mem_entries.2 ⟨top, htop, hpass, rfl⟩
  unfold sampleTopPWith
  rw [if_neg (by unfold maxVocabSize; omega)]
  dsimp only
  rw [if_neg (by rw [List.isEmpty_iff]; exact List.ne_nil_of_mem hentry)]
  unfold softmax
  generalize maxVal logits (vocabSize - 1) = max at *
  set candidates := qsort ((filterCandidates expf logits max vocabSize).entries.map
    (ProbIndex.scale · (1 / (filterCandidates expf logits max vocabSize).sum))) with hcandidates
  have hperm := hsort.perm ((filterCandidates expf logits max vocabSize).entries.map
    (ProbIndex.scale · (1 / (filterCandidates expf logits max vocabSize).sum)))
  have hinv : 0 < 1 / (filterCandidates expf logits max vocabSize).sum := one_div_pos.2 hpos
  have hmem : ∀ c ∈ candidates, ∃ t < vocabSize, max - 20 ≤ logits t ∧
      c = ⟨expf (logits t - max) * (1 / (filterCandidates expf logits max vocabSize).sum), t⟩ := by
    intro c hc
    obtain ⟨c', hc', rfl⟩ := List.mem_map.1 (hperm.mem_iff.1 hc)
    obtain ⟨t, ht, hpass, rfl⟩ := mem_entries.1 hc'
    exact ⟨t, ht, hpass, rfl⟩
  have hne : candidates ≠ [] := List.ne_nil_of_mem (hperm.mem_iff.2 (List.mem_map_of_mem hentry))
  obtain ⟨k, c, hcut, hk, hindex⟩ := @sampled_candidate K _ _ topP candidates hne
    (random * (candidates.take (cutoffFrom topP candidates 0 0)).foldl (fun s c => s + c.prob) 0)
  rw [hindex]
  obtain ⟨t, ht, htpass, rfl⟩ := hmem c (List.mem_of_getElem? hk)
  refine ⟨ht, ?_⟩
  -- what is more probable stands before the token, and what stands before it does not reach `top_p`
  have hbefore := (cutoffFrom_spec candidates 0 0 k hp (by rwa [Nat.zero_add])).2
  have habove := sum_above_le (hsort.sorted _) (fun c hc => by
    obtain ⟨t, -, -, rfl⟩ := hmem c hc
    exact (mul_pos (hexp.pos _) hinv).le) hk
  dsimp only at habove
  rw [sum_candidates_above hexp hsort hinv htpass] at habove
  rw [zero_add] at hbefore
  -- the filter only drops weight, so dividing by its sum makes the probabilities greater
  have htotal : 0 < ∑ i ∈ range vocabSize, expf (logits i - max) := hpos.trans_le hle
  dsimp only
  simp only [div_lt_div_iff_of_pos_right htotal]
  rw [← Finset.sum_div]
  calc _ ≤ (∑ i ∈ range vocabSize with expf (logits t - max) < expf (logits i - max), expf (logits i - max)) /
        (filterCandidates expf logits max vocabSize).sum :=
        div_le_div_of_nonneg_left (Finset.sum_nonneg fun i _ => (hexp.pos _).le) hpos hle
    _ ≤ ((candidates.take k).map ProbIndex.prob).sum := by
        rw [div_eq_mul_one_div]
        exact habove
    _ < topP := hbefore

/-- The token is in the nucleus for every random number, so also for those of the generator. -/
theorem sampleTopP_inNucleus (hexp : IsExp expf) (hsort : IsQsort qsort) (h1 : 1 ≤ vocabSize) (hvocab : vocabSize ≤ 200000)
    (hp : 0 < topP) :
    (∀ random : K, 0 ≤ random → random < 1 → InNucleus (softmax expf logits vocabSize) vocabSize topP
      (sampleTopPWith expf qsort logits vocabSize topP random)) ∧
      ∀ rngState, InNucleus (softmax expf logits vocabSize) vocabSize topP
        (sampleTopP expf qsort logits vocabSize topP rngState).1 :=
  ⟨fun random _ _ => sampleTopPWith_inNucleus hexp hsort h1 hvocab hp random,
    fun _ => sampleTopPWith_inNucleus hexp hsort h1 hvocab hp _⟩

end

/-! ## An instance -/

/-- A function that is positive and strictly increasing. -/
def sampleExp (x : ℚ) : ℚ := if x ≤ 0 then 1 / (1 - x) else 1 + x

theorem sampleExp_isExp : IsExp sampleExp where
  pos x := by
    unfold sampleExp
    split
    · next h => exact one_div_pos.2 (by linarith)
    · next h => linarith
  mono x y hxy := by
    unfold sampleExp
    split
    · next hx =>
      split
      · next hy => exact one_div_lt_one_div_of_lt (by linarith) (by linarith)
      · next hy =>
        have : 1 / (1 - x) ≤ 1 := by
          rw [div_le_one (by linarith)]
          linarith
        linarith
    · next hx =>
      rw [if_neg (by linarith)]
      linarith

theorem mergeSort_isQsort : IsQsort (K := ℚ) fun l => l.mergeSort fun a b => decide (compareProbDesc a b ≤ 0) where
  perm l := List.mergeSort_perm l _
  sorted l := by
    have htrans : ∀ a b c : ProbIndex ℚ, decide (compareProbDesc a b ≤ 0) = true → decide (compareProbDesc b c ≤ 0) = true →
        decide (compareProbDesc a c ≤ 0) = true := by
      intro a b c hab hbc
      rw [decide_eq_true_iff, compareProbDesc_le] at *
      exact hbc.trans hab
    have htotal : ∀ a b : ProbIndex ℚ,
        (decide (compareProbDesc a b ≤ 0) || decide (compareProbDesc b a ≤ 0)) = true := by
      intro a b
      rw [Bool.or_eq_true, decide_eq_true_iff, decide_eq_true_iff, compareProbDesc_le, compareProbDesc_le]
      exact le_total _ _
    exact (List.pairwise_mergeSort htrans htotal l).imp of_decide_eq_true

theorem sampleTopP_inNucleus_four : InNucleus (softmax sampleExp (fun i => if i = 2 then 5 else (i : ℚ)) 4) 4 (9 / 10)
    (sampleTopPWith sampleExp (fun l => l.mergeSort fun a b => decide (compareProbDesc a b ≤ 0))
      (fun i => if i = 2 then 5 else (i : ℚ)) 4 (9 / 10) (1 / 2)) :=
  (sampleTopP_inNucleus sampleExp_isExp mergeSort_isQsort (by decide) (by decide) (by norm_num)).1 _
    (by norm_num) (by norm_num)

end BitForge.Sampling
