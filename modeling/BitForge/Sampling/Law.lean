/-
The law of the samplers, in exact arithmetic. For a number that is drawn uniformly from [0, 1) each of them returns the
tokens it keeps with probabilities in proportion to those of the softmax, and no other token: the numbers that give a token
are those of an interval of that length. `sample_top_k` keeps the tokens with the `k` greatest logits, `sample_top_p` the
nucleus, and the loop of `generate_with_callback` all tokens.
-/
import BitForge.Lib.TopK
import BitForge.Sampling.TopP

namespace BitForge.Sampling

open BitForge.Lib
open Finset (range sum_range_succ)

variable {K : Type} [Field K] [LinearOrder K]

/-! ## `sample_top_k` and the loop of `generate_with_callback` -/

/-- `TOP_K_MAX` -/
def topKMax : Int := 1024

/-- The three clamps of `k`. -/
def clampTopK (vocabSize : Nat) (k : Int) : Nat :=
  let k := if k > vocabSize then (vocabSize : Int) else k
  let k := if k ≤ 0 then 1 else k
  (if k > topKMax then topKMax else k).toNat

/-- The arrays `vals` and `indices`. -/
structure TopArrays (K : Type) where
  vals : Nat → K
  indices : Nat → Int

def TopArrays.store (s : TopArrays K) (j : Nat) (val : K) (index : Int) : TopArrays K :=
  ⟨Function.update s.vals j val, Function.update s.indices j index⟩

/-- `-1e30f` -/
def lowest : K := -((10 ^ 30 : Nat) : K)

/-- The loop that moves smaller entries up from the slot `j` on, and the two stores behind it. -/
def insertSlot (x : K) (i : Nat) : Nat → TopArrays K → TopArrays K
  | 0, s => s.store 0 x i
  | j + 1, s => if x > s.vals j then insertSlot x i j (s.store (j + 1) (s.vals j) (s.indices j)) else s.store (j + 1) x i

/-- The arrays after the first `n` tokens. -/
def topScan (logits : Nat → K) (k : Nat) : Nat → TopArrays K
  | 0 => ⟨fun _ => lowest, fun _ => -1⟩
  | n + 1 =>
    let s := topScan logits k n
    if logits n > s.vals (k - 1) then insertSlot (logits n) n (k - 1) s else s

/-- `sample_top_k` where the random number is `random`. -/
def sampleTopKWith (expf : K → K) (logits : Nat → K) (vocabSize : Nat) (k : Int) (random : K) : Int :=
  let k := clampTopK vocabSize k
  let s := topScan logits k vocabSize
  let max := s.vals 0
  let sum := ((List.range k).map fun i => expf (s.vals i - max)).sum
  s.indices ((pickFrom random ((List.range k).map fun i => ⟨expf (s.vals i - max) / sum, i⟩) 0).getD 0)

/-- `sample_top_k`: the token and the next state of the generator. -/
def sampleTopK (expf : K → K) (logits : Nat → K) (vocabSize : Nat) (k : Int) (rngState : UInt64) : Int × UInt64 :=
  let drawn := rngFloat (K := K) rngState
  (sampleTopKWith expf logits vocabSize k drawn.1, drawn.2)

/-- The loop over all tokens where `top_p` is not used, on the probabilities that `tn_softmax` leaves. -/
def sampleCdf (probs : Nat → K) (vocabSize : Nat) (random : K) : Nat :=
  (pickFrom random ((List.range vocabSize).map fun i => ⟨probs i, i⟩) 0).getD (vocabSize - 1)

/-! ## Sampling in proportion to weights -/

/-- The sum of the weights of some tokens. -/
def mass (weight : Nat → K) (tokens : List Nat) : K := (tokens.map weight).sum

/-- The numbers from [0, 1) for which a token is returned are those of an interval, whose length is the share of the token
in the weight of all that are kept. -/
structure SamplesInProportion (weight : Nat → K) (kept : List Nat) (sampler : K → Int) : Prop where
  interval : ∀ t ∈ kept, ∃ a, 0 ≤ a ∧ a + weight t / mass weight kept ≤ 1 ∧
    ∀ r, 0 ≤ r → r < 1 → (sampler r = t ↔ a ≤ r ∧ r < a + weight t / mass weight kept)
  only : ∀ r, 0 ≤ r → r < 1 → ∃ t ∈ kept, sampler r = t

/-- The nucleus: the most probable tokens that pass the filter, as few as have the share `top_p` of the probability of all
that pass. -/
structure IsNucleus (prob : Nat → K) (passes : Nat → Prop) [DecidablePred passes] (vocabSize : Nat) (topP : K)
    (kept : List Nat) : Prop where
  nodup : kept.Nodup
  mem : ∀ t ∈ kept, t < vocabSize ∧ passes t
  best : ∀ t ∈ kept, ∀ u < vocabSize, u ∉ kept → prob u ≤ prob t
  reaches : topP * mass prob ((List.range vocabSize).filter passes) ≤ mass prob kept
  fewest : mass prob kept.dropLast < topP * mass prob ((List.range vocabSize).filter passes)

/-! ## The sampling loop -/

section

variable {r cdf : K}

/-- What stands behind an entry has other tokens, and what stands before it has used up its weight. -/
theorem pickFrom_append [IsStrictOrderedRing K] {c : ProbIndex K} (l₂ : List (ProbIndex K))
    (h₂ : ∀ b ∈ l₂, b.index ≠ c.index) : ∀ (l₁ : List (ProbIndex K)) (cdf : K),
    (∀ b ∈ l₁, 0 ≤ b.prob ∧ b.index ≠ c.index) → cdf ≤ r →
      (pickFrom r (l₁ ++ c :: l₂) cdf = some c.index ↔
        cdf + (l₁.map ProbIndex.prob).sum ≤ r ∧ r < cdf + (l₁.map ProbIndex.prob).sum + c.prob)
  | [], cdf, _, hle => by
    rw [List.map_nil, List.sum_nil, add_zero, List.nil_append]
    unfold pickFrom
    split
    · next hlt => exact ⟨fun _ => ⟨hle, hlt⟩, fun _ => rfl⟩
    · next hge =>
      constructor
      · intro hpick
        obtain ⟨k, b, hk, heq⟩ := pickFrom_some _ _ hpick
        exact absurd heq (h₂ b (List.mem_of_getElem? hk))
      · rintro ⟨-, hlt⟩
        exact absurd hlt hge
  | b :: l₁, cdf, h₁, hle => by
    rw [List.cons_append, List.map_cons, List.sum_cons, ← add_assoc]
    unfold pickFrom
    split
    · next hlt =>
      have hrest : 0 ≤ (l₁.map ProbIndex.prob).sum := by
        refine List.sum_nonneg fun x hx => ?_
        obtain ⟨b', hb', rfl⟩ := List.mem_map.1 hx
        exact (h₁ b' (List.mem_cons_of_mem b hb')).1
      constructor
      · intro heq
        exact absurd (Option.some.inj heq) (h₁ b List.mem_cons_self).2
      · rintro ⟨hge, -⟩
        linarith
    · next hge =>
      exact pickFrom_append l₂ h₂ l₁ (cdf + b.prob) (fun b' hb' => h₁ b' (List.mem_cons_of_mem b hb')) (not_lt.1 hge)

/-- A number below the total weight gives a token. -/
theorem pickFrom_mem : ∀ (l : List (ProbIndex K)) (cdf : K), r < cdf + (l.map ProbIndex.prob).sum → cdf ≤ r →
    ∃ c ∈ l, pickFrom r l cdf = some c.index
  | [], cdf, hlt, hle => by
    rw [List.map_nil, List.sum_nil, add_zero] at hlt
    exact absurd hlt (not_lt.2 hle)
  | b :: rest, cdf, hlt, hle => by
    unfold pickFrom
    split
    · exact ⟨b, List.mem_cons_self, rfl⟩
    · next hge =>
      rw [List.map_cons, List.sum_cons, ← add_assoc] at hlt
      obtain ⟨c, hc, hpick⟩ := pickFrom_mem rest (cdf + b.prob) hlt (not_lt.1 hge)
      exact ⟨c, List.mem_cons_of_mem b hc, hpick⟩

theorem pickFrom_map (f : Nat → Nat) : ∀ (l : List (ProbIndex K)) (cdf : K),
    pickFrom r (l.map fun c => ⟨c.prob, f c.index⟩) cdf = (pickFrom r l cdf).map f
  | [], _ => rfl
  | b :: rest, cdf => by
    rw [List.map_cons]
    unfold pickFrom
    split
    · rfl
    · exact pickFrom_map f rest (cdf + b.prob)

end

omit [LinearOrder K] in
theorem mass_map_prob (weight : Nat → K) (c : K) : ∀ tokens : List Nat,
    ((tokens.map fun t => (⟨weight t * c, t⟩ : ProbIndex K)).map ProbIndex.prob).sum = mass weight tokens * c := by
  intro tokens
  unfold mass
  rw [List.map_map, ← List.sum_map_mul_right]
  rfl

theorem mass_pos [IsStrictOrderedRing K] {weight : Nat → K} {tokens : List Nat} (hpos : ∀ t ∈ tokens, 0 < weight t)
    (hne : tokens ≠ []) : 0 < mass weight tokens := by
  unfold mass
  refine List.sum_pos _ (fun x hx => ?_) (by simpa using hne)
  obtain ⟨t, ht, rfl⟩ := List.mem_map.1 hx
  exact hpos t ht

/-- The rule of the samplers: one that returns what the loop picks, from weights that are scaled by some `c`, with a number
that is scaled by their sum. -/
theorem SamplesInProportion.of_pick [IsStrictOrderedRing K] {weight : Nat → K} {kept : List Nat} {sampler : K → Int}
    {c : K} (hc : 0 < c) (hpos : ∀ t ∈ kept, 0 < weight t) (hnodup : kept.Nodup) (hne : kept ≠ [])
    (hsampler : ∀ r t, 0 ≤ r → pickFrom (r * (mass weight kept * c)) (kept.map fun t => ⟨weight t * c, t⟩) 0 = some t →
      sampler r = t) :
    SamplesInProportion weight kept sampler := by
  have hmass := mass_pos hpos hne
  have htotal : 0 < mass weight kept * c := mul_pos hmass hc
  have hpick : ∀ r, 0 ≤ r → r < 1 → ∃ t ∈ kept,
      pickFrom (r * (mass weight kept * c)) (kept.map fun t => (⟨weight t * c, t⟩ : ProbIndex K)) 0 = some t := by
    intro r h0 h1
    obtain ⟨b, hb, heq⟩ := pickFrom_mem (r := r * (mass weight kept * c))
      (kept.map fun t => (⟨weight t * c, t⟩ : ProbIndex K)) 0
      (by rw [zero_add, mass_map_prob]; exact mul_lt_of_lt_one_left htotal h1) (by positivity)
    obtain ⟨t, ht, rfl⟩ := List.mem_map.1 hb
    exact ⟨t, ht, heq⟩
  constructor
  · intro t ht
    obtain ⟨before, behind, hsplit⟩ := List.append_of_mem ht
    rw [hsplit] at hnodup
    have hapart := List.nodup_middle.1 hnodup
    rw [List.nodup_cons, List.mem_append, not_or] at hapart
    have hbefore : ∀ b ∈ before, 0 < weight b := fun b hb => hpos b (by rw [hsplit]; exact List.mem_append_left _ hb)
    have hbehind : ∀ b ∈ behind, 0 < weight b := fun b hb =>
      hpos b (by rw [hsplit]; exact List.mem_append_right _ (List.mem_cons_of_mem t hb))
    have hsum : mass weight kept = mass weight before + (weight t + mass weight behind) := by
      unfold mass
      rw [hsplit, List.map_append, List.sum_append, List.map_cons, List.sum_cons]
    have hnonneg : ∀ tokens : List Nat, (∀ b ∈ tokens, 0 < weight b) → 0 ≤ mass weight tokens := by
      intro tokens h
      refine List.sum_nonneg fun x hx => ?_
      obtain ⟨b, hb, rfl⟩ := List.mem_map.1 hx
      exact (h b hb).le
    refine ⟨mass weight before / mass weight kept, div_nonneg (hnonneg before hbefore) hmass.le, ?_, ?_⟩
    · rw [← add_div, div_le_one hmass, hsum]
      linarith [hnonneg behind hbehind]
    · intro r h0 h1
      obtain ⟨u, -, hu⟩ := hpick r h0 h1
      -- the sampler returns what is picked, and the pick of `t` is an interval of the scaled number
      have hreturns : sampler r = t ↔ pickFrom (r * (mass weight kept * c))
          (kept.map fun t => (⟨weight t * c, t⟩ : ProbIndex K)) 0 = some t := by
        rw [hsampler r u h0 hu, hu, Nat.cast_inj, Option.some.injEq]
      have happend := pickFrom_append (r := r * (mass weight kept * c)) (c := ⟨weight t * c, t⟩)
        (behind.map fun t => ⟨weight t * c, t⟩)
        (by
          intro b hb
          obtain ⟨u, hu, rfl⟩ := List.mem_map.1 hb
          rintro rfl
          exact hapart.1.2 hu)
        (before.map fun t => ⟨weight t * c, t⟩) 0
        (by
          intro b hb
          obtain ⟨u, hu, rfl⟩ := List.mem_map.1 hb
          refine ⟨(mul_pos (hbefore u hu) hc).le, ?_⟩
          rintro rfl
          exact hapart.1.1 hu)
        (by positivity)
      have hentries : kept.map (fun t => (⟨weight t * c, t⟩ : ProbIndex K)) =
          before.map (fun t => ⟨weight t * c, t⟩) ++ ⟨weight t * c, t⟩ :: behind.map fun t => ⟨weight t * c, t⟩ := by
        rw [hsplit, List.map_append, List.map_cons]
      rw [hreturns, hentries, happend, mass_map_prob, zero_add, ← add_div, div_le_iff₀ hmass, lt_div_iff₀ hmass,
        ← add_mul, ← mul_assoc, mul_le_mul_iff_left₀ hc, mul_lt_mul_iff_left₀ hc]
  · intro r h0 h1
    obtain ⟨t, ht, hpicked⟩ := hpick r h0 h1
    exact ⟨t, ht, hsampler r t h0 hpicked⟩


/-! ## `sample_top_p` -/

section

variable {expf : K → K} {qsort : List (ProbIndex K) → List (ProbIndex K)} {logits : Nat → K} {vocabSize : Nat} {topP : K}

/-- The tokens that pass the filter with a bound. -/
def passing (bound : K) (logits : Nat → K) (vocabSize : Nat) : List Nat :=
  (List.range vocabSize).filter fun i => bound ≤ logits i

theorem entries_eq (max : K) : ∀ n : Nat, (filterCandidates expf logits max n).entries =
    ((List.range n).filter fun i => max - 20 ≤ logits i).map fun i => ⟨expf (logits i - max), i⟩
  | 0 => rfl
  | n + 1 => by
    rw [List.range_succ, List.filter_append, List.map_append, ← entries_eq max n]
    by_cases hpass : max - 20 ≤ logits n
    · rw [filterCandidates_pass hpass]
      simp [hpass]
    · rw [filterCandidates_skip hpass]
      simp [hpass]

theorem sum_eq_mass (max : K) : ∀ n : Nat, (filterCandidates expf logits max n).sum =
    mass (fun i => expf (logits i - max)) ((List.range n).filter fun i => max - 20 ≤ logits i)
  | 0 => rfl
  | n + 1 => by
    unfold mass
    rw [List.range_succ, List.filter_append, List.map_append, List.sum_append]
    have ih := sum_eq_mass max n
    unfold mass at ih
    rw [← ih]
    by_cases hpass : max - 20 ≤ logits n
    · rw [filterCandidates_pass hpass]
      simp [hpass]
    · rw [filterCandidates_skip hpass]
      simp [hpass]

/-- The candidates before the cutoff reach `top_p`, unless all of them together do not. -/
theorem cutoffFrom_reaches : ∀ (l : List (ProbIndex K)) (cumulative : K) (i : Nat),
    topP ≤ cumulative + ((l.take (cutoffFrom topP l cumulative i - i)).map ProbIndex.prob).sum ∨
      cutoffFrom topP l cumulative i = i + l.length
  | [], _, _ => .inr rfl
  | c :: rest, cumulative, i => by
    unfold cutoffFrom
    split
    · next hreach =>
      left
      rw [Nat.add_sub_cancel_left, List.take_succ_cons, List.take_zero]
      simpa using hreach
    · have hle := @le_cutoffFrom K _ _ topP rest (cumulative + c.prob) (i + 1)
      rcases cutoffFrom_reaches rest (cumulative + c.prob) (i + 1) with hreach | hall
      · left
        rw [show cutoffFrom topP rest (cumulative + c.prob) (i + 1) - i =
          cutoffFrom topP rest (cumulative + c.prob) (i + 1) - (i + 1) + 1 by omega, List.take_succ_cons, List.map_cons,
          List.sum_cons, ← add_assoc]
        exact hreach
      · right
        rw [hall, List.length_cons]
        omega

omit [LinearOrder K] in
theorem foldl_prob (l : List (ProbIndex K)) : l.foldl (fun s c => s + c.prob) 0 = (l.map ProbIndex.prob).sum := by
  rw [List.sum_eq_foldl, List.foldl_map]

/-- The order in which the candidates stand behind the sort: the tokens that pass the filter, the most probable first. -/
theorem candidates_order (hsort : IsQsort qsort) [IsStrictOrderedRing K] {total inv : K} (htotal : 0 < total)
    (hinv : 0 < inv) :
    ∃ order : List Nat, order.Perm (passing (maxVal logits (vocabSize - 1) - 20) logits vocabSize) ∧
      order.Pairwise (fun a b => expf (logits b - maxVal logits (vocabSize - 1)) / total ≤
        expf (logits a - maxVal logits (vocabSize - 1)) / total) ∧
      qsort ((filterCandidates expf logits (maxVal logits (vocabSize - 1)) vocabSize).entries.map (ProbIndex.scale · inv)) =
        order.map fun t => ⟨expf (logits t - maxVal logits (vocabSize - 1)) / total * (total * inv), t⟩ := by
  rw [entries_eq, List.map_map]
  change ∃ order : List Nat, _ ∧ _ ∧ qsort ((passing (maxVal logits (vocabSize - 1) - 20) logits vocabSize).map _) = _
  generalize maxVal logits (vocabSize - 1) = max
  set scaled : Nat → ProbIndex K := (ProbIndex.scale · inv) ∘ fun i => ⟨expf (logits i - max), i⟩ with hscaled
  have hperm := hsort.perm ((passing (max - 20) logits vocabSize).map scaled)
  have hform : ∀ t, scaled t = ⟨expf (logits t - max) / total * (total * inv), t⟩ := by
    intro t
    rw [hscaled]
    show (⟨expf (logits t - max) * inv, t⟩ : ProbIndex K) = _
    rw [← mul_assoc, div_mul_cancel₀ _ htotal.ne']
  have hall : ∀ c ∈ qsort ((passing (max - 20) logits vocabSize).map scaled), scaled c.index = c := by
    intro c hc
    obtain ⟨t, -, rfl⟩ := List.mem_map.1 (hperm.mem_iff.1 hc)
    rfl
  have heq : ((qsort ((passing (max - 20) logits vocabSize).map scaled)).map ProbIndex.index).map scaled =
      qsort ((passing (max - 20) logits vocabSize).map scaled) := by
    rw [List.map_map]
    conv_rhs => rw [← List.map_id (qsort ((passing (max - 20) logits vocabSize).map scaled))]
    exact List.map_congr_left hall
  refine ⟨(qsort ((passing (max - 20) logits vocabSize).map scaled)).map ProbIndex.index, ?_, ?_, ?_⟩
  · have hindex := hperm.map ProbIndex.index
    rw [List.map_map] at hindex
    have hid : ProbIndex.index ∘ scaled = id := rfl
    rwa [hid, List.map_id] at hindex
  · have hsorted := hsort.sorted ((passing (max - 20) logits vocabSize).map scaled)
    unfold SortedBy at hsorted
    rw [← heq, List.pairwise_map] at hsorted
    refine hsorted.imp fun hab => ?_
    rw [compareProbDesc_le, hform, hform] at hab
    exact (mul_le_mul_iff_left₀ (mul_pos htotal hinv)).1 hab
  · exact heq.symm.trans (List.map_congr_left fun t _ => hform t)

/-- The tokens of an order before the cutoff are a nucleus. -/
theorem IsNucleus.of_order [IsStrictOrderedRing K] {prob : Nat → K} {passes : Nat → Prop} [DecidablePred passes]
    {order : List Nat} {c : K} (hp : 0 < topP) (hp1 : topP ≤ 1) (hpos : ∀ t, 0 < prob t)
    (hperm : order.Perm ((List.range vocabSize).filter passes)) (hsorted : order.Pairwise fun a b => prob b ≤ prob a)
    (hfails : ∀ t u, passes t → ¬ passes u → prob u ≤ prob t) (hone : mass prob order * c = 1) (hne : order ≠ []) :
    IsNucleus prob passes vocabSize topP (order.take (cutoffFrom topP (order.map fun t => ⟨prob t * c, t⟩) 0 0)) := by
  have hmem : ∀ t, t ∈ order ↔ t < vocabSize ∧ passes t := by
    intro t
    rw [hperm.mem_iff, List.mem_filter, List.mem_range, decide_eq_true_iff]
  have hmass : mass prob ((List.range vocabSize).filter passes) = mass prob order := ((hperm.map prob).sum_eq).symm
  have horder : 0 < mass prob order := mass_pos (fun t _ => hpos t) hne
  have hscale : ∀ x, x * c * mass prob order = x := fun x => by rw [mul_assoc, mul_comm c, hone, mul_one]
  set cut := cutoffFrom topP (order.map fun t => (⟨prob t * c, t⟩ : ProbIndex K)) 0 0 with hcut
  have hcutPos : 0 < cut := cutoffFrom_pos (by simpa using hne) 0
  constructor
  · exact (hperm.nodup_iff.2 (List.nodup_range.filter _)).sublist (List.take_sublist _ _)
  · intro t ht
    exact (hmem t).1 (List.mem_of_mem_take ht)
  · intro t ht u hu hout
    by_cases hupass : passes u
    · -- it passes the filter, so it stands behind the cutoff
      have hin := (hmem u).2 ⟨hu, hupass⟩
      rw [← List.take_append_drop cut order, List.mem_append] at hin
      rw [← List.take_append_drop cut order, List.pairwise_append] at hsorted
      exact hsorted.2.2 t ht u (hin.resolve_left hout)
    · exact hfails t u ((hmem t).1 (List.mem_of_mem_take ht)).2 hupass
  · have hreach : topP ≤ mass prob (order.take cut) * c := by
      rcases @cutoffFrom_reaches K _ _ topP (order.map fun t => (⟨prob t * c, t⟩ : ProbIndex K)) 0 0 with h | h
      · rwa [Nat.sub_zero, ← List.map_take, mass_map_prob, zero_add, ← hcut] at h
      · rw [← hcut, Nat.zero_add, List.length_map] at h
        rwa [h, List.take_length, hone]
    rw [hmass]
    calc topP * mass prob order ≤ mass prob (order.take cut) * c * mass prob order :=
          mul_le_mul_of_nonneg_right hreach horder.le
      _ = mass prob (order.take cut) := hscale _
  · have hbelow := @cutoffFrom_spec K _ _ topP (order.map fun t => (⟨prob t * c, t⟩ : ProbIndex K)) 0 0 (cut - 1) hp
      (by omega)
    rw [List.length_map, ← List.map_take, mass_map_prob, zero_add] at hbelow
    have hlast : (order.take cut).dropLast = order.take (cut - 1) := by
      rw [List.dropLast_eq_take, List.take_take, List.length_take]
      congr 1
      omega
    rw [hmass, hlast]
    calc mass prob (order.take (cut - 1)) = mass prob (order.take (cut - 1)) * c * mass prob order := (hscale _).symm
      _ < topP * mass prob order := mul_lt_mul_of_pos_right hbelow.2 horder

/-- The share of the softmax in all that passes, which the normalization by `sum` makes 1. -/
theorem mass_softmax {order : List Nat}
    (hperm : order.Perm (passing (maxVal logits (vocabSize - 1) - 20) logits vocabSize)) {total sum : K} (htotal : 0 < total)
    (hsum : 0 < sum)
    (hsumEq : sum = (filterCandidates expf logits (maxVal logits (vocabSize - 1)) vocabSize).sum) :
    mass (fun t => expf (logits t - maxVal logits (vocabSize - 1)) / total) order * (total * (1 / sum)) = 1 := by
  have hweights : mass (fun i => expf (logits i - maxVal logits (vocabSize - 1))) order = sum := by
    rw [hsumEq, sum_eq_mass]
    exact (hperm.map _).sum_eq
  have hscaled : mass (fun t => expf (logits t - maxVal logits (vocabSize - 1)) / total) order = sum / total := by
    rw [← hweights]
    unfold mass
    rw [div_eq_mul_inv, ← List.sum_map_mul_right]
    exact congrArg List.sum (List.map_congr_left fun t _ => div_eq_mul_inv _ _)
  rw [hscaled, ← mul_assoc, div_mul_cancel₀ _ htotal.ne', mul_one_div, div_self hsum.ne']

/-- The candidates behind the sort: all that passes, the most probable first, with probabilities that add up to 1. -/
theorem candidates_softmax [IsStrictOrderedRing K] (hexp : IsExp expf) (hsort : IsQsort qsort) (h1 : 1 ≤ vocabSize) :
    ∃ (order : List Nat) (c : K), 0 < c ∧ order.Perm (passing (maxVal logits (vocabSize - 1) - 20) logits vocabSize) ∧
      order.Pairwise (fun a b => softmax expf logits vocabSize b ≤ softmax expf logits vocabSize a) ∧
      mass (softmax expf logits vocabSize) order * c = 1 ∧
      qsort ((filterCandidates expf logits (maxVal logits (vocabSize - 1)) vocabSize).entries.map (ProbIndex.scale ·
        (1 / (filterCandidates expf logits (maxVal logits (vocabSize - 1)) vocabSize).sum))) =
          order.map fun t => ⟨softmax expf logits vocabSize t * c, t⟩ := by
  obtain ⟨top, htop, hpass⟩ := maxVal_passes logits h1
  obtain ⟨hsum, hle⟩ := filtered_bounds hexp htop hpass
  have htotal := hsum.trans_le hle
  have hinv := one_div_pos.2 hsum
  obtain ⟨order, hperm, hsorted, hcandidates⟩ :=
    @candidates_order K _ _ expf qsort logits vocabSize hsort _ _ _ htotal hinv
  exact ⟨order, _, mul_pos htotal hinv, hperm, hsorted, mass_softmax hperm htotal hsum rfl, hcandidates⟩

/-- The numbers that `sample_top_p` may draw. -/
theorem sampleTopPWith_samples [IsStrictOrderedRing K] (hexp : IsExp expf) (hsort : IsQsort qsort) (h1 : 1 ≤ vocabSize)
    (hvocab : vocabSize ≤ 200000) (hp : 0 < topP) (hp1 : topP ≤ 1) :
    ∃ kept, IsNucleus (softmax expf logits vocabSize) (fun i => maxVal logits (vocabSize - 1) - 20 ≤ logits i) vocabSize
        topP kept ∧
      SamplesInProportion (softmax expf logits vocabSize) kept
        (fun r => (sampleTopPWith expf qsort logits vocabSize topP r : Nat)) := by
  obtain ⟨top, htop, hpass⟩ := maxVal_passes logits h1
  obtain ⟨hsum, hle⟩ := filtered_bounds hexp htop hpass
  have hpos : ∀ t, 0 < softmax expf logits vocabSize t := fun t => div_pos (hexp.pos _) (hsum.trans_le hle)
  have hfails : ∀ t u, maxVal logits (vocabSize - 1) - 20 ≤ logits t → ¬ maxVal logits (vocabSize - 1) - 20 ≤ logits u →
      softmax expf logits vocabSize u ≤ softmax expf logits vocabSize t := fun t u ht hu =>
    (div_le_div_iff_of_pos_right (hsum.trans_le hle)).2 (hexp.mono.monotone (by linarith))
  have hfall : ¬ (filterCandidates expf logits (maxVal logits (vocabSize - 1)) vocabSize).entries.isEmpty = true := by
    rw [List.isEmpty_iff]
    exact List.ne_nil_of_mem (mem_entries.2 ⟨top, htop, hpass, rfl⟩)
  obtain ⟨order, c, hc, hperm, hsorted, hone, hcandidates⟩ :=
    @candidates_softmax K _ _ expf qsort logits vocabSize _ hexp hsort h1
  have hne : order ≠ [] := by
    rintro rfl
    exact zero_ne_one ((zero_mul c).symm.trans hone)
  have hcut : 0 < cutoffFrom topP (order.map fun t => (⟨softmax expf logits vocabSize t * c, t⟩ : ProbIndex K)) 0 0 :=
    cutoffFrom_pos (by simpa using hne) 0
  have hnucleus := IsNucleus.of_order hp hp1 hpos hperm hsorted hfails hone hne
  refine ⟨_, hnucleus, .of_pick hc (fun t _ => hpos t) hnucleus.nodup (by simp [hne, hcut.ne']) fun r t _ hpick => ?_⟩
  unfold sampleTopPWith
  rw [if_neg (by unfold maxVocabSize; omega)]
  dsimp only
  rw [if_neg hfall, hcandidates, foldl_prob, ← List.map_take, mass_map_prob, hpick]
  rfl

/-- `sample_top_p` samples the nucleus, from the softmax. -/
theorem sampleTopP_law [IsStrictOrderedRing K] (hexp : IsExp expf) (hsort : IsQsort qsort) (h1 : 1 ≤ vocabSize)
    (hvocab : vocabSize ≤ 200000) (hp : 0 < topP) (hp1 : topP ≤ 1) :
    ∃ kept, IsNucleus (softmax expf logits vocabSize) (fun i => maxVal logits (vocabSize - 1) - 20 ≤ logits i) vocabSize
        topP kept ∧
      SamplesInProportion (softmax expf logits vocabSize) kept
        (fun r => (sampleTopPWith expf qsort logits vocabSize topP r : Nat)) ∧
      ∀ rngState, (sampleTopP expf qsort logits vocabSize topP rngState).1 ∈ kept := by
  obtain ⟨kept, hnucleus, hlaw⟩ :=
    @sampleTopPWith_samples K _ _ expf qsort logits vocabSize topP _ hexp hsort h1 hvocab hp hp1
  refine ⟨kept, hnucleus, hlaw, fun rngState => ?_⟩
  obtain ⟨h0, h1⟩ := rngFloat_mem (K := K) rngState
  obtain ⟨t, ht, heq⟩ := hlaw.only _ h0 h1
  rwa [← Int.natCast_inj.1 heq] at ht

/-- Two of three tokens are kept, as the first does not reach 3 / 4. -/
theorem sampleTopP_law_three : ∃ kept,
    IsNucleus (softmax sampleExp (fun i => (i : ℚ)) 3) (fun i => maxVal (fun i => (i : ℚ)) (3 - 1) - 20 ≤ (i : ℚ)) 3 (3 / 4)
        kept ∧
      SamplesInProportion (softmax sampleExp (fun i => (i : ℚ)) 3) kept (fun r => (sampleTopPWith sampleExp
        (fun l => l.mergeSort fun a b => decide (compareProbDesc a b ≤ 0)) (fun i => (i : ℚ)) 3 (3 / 4) r : Nat)) ∧
      ∀ rngState, (sampleTopP sampleExp (fun l => l.mergeSort fun a b => decide (compareProbDesc a b ≤ 0))
        (fun i => (i : ℚ)) 3 (3 / 4) rngState).1 ∈ kept :=
  sampleTopP_law sampleExp_isExp mergeSort_isQsort (by decide) (by decide) (by norm_num) (by norm_num)

/-! ## The loop over all tokens -/

/-- Without `top_p` each token is returned with its probability. -/
theorem sampleCdf_law [IsStrictOrderedRing K] (hexp : IsExp expf) (h1 : 1 ≤ vocabSize) :
    mass (softmax expf logits vocabSize) (List.range vocabSize) = 1 ∧
      SamplesInProportion (softmax expf logits vocabSize) (List.range vocabSize)
        (fun r => (sampleCdf (softmax expf logits vocabSize) vocabSize r : Nat)) := by
  have htotal : 0 < ∑ j ∈ range vocabSize, expf (logits j - maxVal logits (vocabSize - 1)) :=
    Finset.sum_pos (fun _ _ => hexp.pos _) ⟨0, Finset.mem_range.2 h1⟩
  have hone : mass (softmax expf logits vocabSize) (List.range vocabSize) = 1 := by
    have hsum : mass (softmax expf logits vocabSize) (List.range vocabSize) =
        ∑ i ∈ range vocabSize, softmax expf logits vocabSize i := by
      unfold mass
      rw [← List.sum_toFinset _ List.nodup_range, List.toFinset_range]
    rw [hsum]
    unfold softmax
    rw [← Finset.sum_div, div_self htotal.ne']
  refine ⟨hone, .of_pick one_pos (fun t _ => div_pos (hexp.pos _) htotal) List.nodup_range (by simp; omega)
    fun r t _ hpick => ?_⟩
  simp only [hone, mul_one] at hpick
  unfold sampleCdf
  rw [hpick]
  rfl

end

/-! ## `sample_top_k` -/

section

/-- A slot: the value and the index in it. -/
def TopArrays.slot (s : TopArrays K) (j : Nat) : K × Int := (s.vals j, s.indices j)

omit [Field K] [LinearOrder K] in
theorem TopArrays.slot_store (s : TopArrays K) (j : Nat) (val : K) (index : Int) (m : Nat) :
    (s.store j val index).slot m = if m = j then (val, index) else s.slot m := by
  unfold TopArrays.slot TopArrays.store
  dsimp only
  rw [Function.update_apply, Function.update_apply]
  split <;> rfl

omit [Field K] in
/-- Where the slots whose value is smaller start at `pos`, the entry goes there, and those behind move up. -/
theorem slot_insertSlot (x : K) (i pos : Nat) : ∀ (j : Nat) (s : TopArrays K), pos ≤ j →
    (∀ m < j, x > s.vals m ↔ pos ≤ m) → ∀ m, (insertSlot x i j s).slot m =
      if m < pos then s.slot m else if m = pos then (x, (i : Int)) else if m ≤ j then s.slot (m - 1) else s.slot m
  | 0, s, hle, _, m => by
    unfold insertSlot
    rw [TopArrays.slot_store]
    obtain rfl : pos = 0 := Nat.le_zero.1 hle
    by_cases h : m = 0
    · simp [h]
    · rw [if_neg h, if_neg (Nat.not_lt_zero m), if_neg h, if_neg (by omega)]
  | j + 1, s, hle, hvals, m => by
    unfold insertSlot
    split
    · next hgt =>
      have hpos : pos ≤ j := (hvals j (Nat.lt_succ_self j)).1 hgt
      have hstored : ∀ m < j, x > (s.store (j + 1) (s.vals j) (s.indices j)).vals m ↔ pos ≤ m := by
        intro m hm
        have hsame : (s.store (j + 1) (s.vals j) (s.indices j)).vals m = s.vals m :=
          Function.update_of_ne (by omega) _ _
        rw [hsame]
        exact hvals m (by omega)
      rw [slot_insertSlot x i pos j _ hpos hstored m, TopArrays.slot_store, TopArrays.slot_store]
      by_cases h1 : m < pos
      · rw [if_pos h1, if_pos h1, if_neg (by omega)]
      · rw [if_neg h1, if_neg h1]
        by_cases h2 : m = pos
        · rw [if_pos h2, if_pos h2]
        · rw [if_neg h2, if_neg h2]
          by_cases h3 : m ≤ j
          · rw [if_pos h3, if_neg (show ¬ m - 1 = j + 1 by omega), if_pos (show m ≤ j + 1 by omega)]
          · rw [if_neg h3]
            by_cases h4 : m = j + 1
            · rw [if_pos h4, if_pos (show m ≤ j + 1 by omega), h4]
              rfl
            · rw [if_neg h4, if_neg (show ¬ m ≤ j + 1 by omega)]
    · next hle' =>
      obtain rfl : pos = j + 1 := by
        by_contra hne
        exact hle' ((hvals j (Nat.lt_succ_self j)).2 (by omega))
      rw [TopArrays.slot_store]
      by_cases h : m = j + 1
      · rw [if_pos h, if_neg (by omega), if_pos h]
      · rw [if_neg h]
        by_cases h1 : m < j + 1
        · rw [if_pos h1]
        · rw [if_neg h1, if_neg h, if_neg (by omega)]

/-- What a list of tokens leaves in a slot. -/
def topEntry (logits : Nat → K) (l : List Nat) (m : Nat) : K × Int :=
  match l[m]? with
  | some t => (logits t, t)
  | none => (lowest, -1)

omit [LinearOrder K] in
theorem topEntry_of_lt (logits : Nat → K) {l : List Nat} {m : Nat} (h : m < l.length) :
    topEntry logits l m = (logits l[m], (l[m] : Int)) := by
  unfold topEntry
  rw [List.getElem?_eq_getElem h]

omit [LinearOrder K] in
theorem topEntry_of_le (logits : Nat → K) {l : List Nat} {m : Nat} (h : l.length ≤ m) :
    topEntry logits l m = (lowest, -1) := by
  unfold topEntry
  rw [List.getElem?_eq_none h]

variable {logits : Nat → K}

/-- A token goes into the slots before that of the first smaller logit, or of the first one without a token. -/
theorem topEntry_smaller {l : List Nat} {n k : Nat} (htop : IsTopK logits (fun _ => True) n k l) (hlow : lowest < logits n)
    (m : Nat) : logits n > (topEntry logits l m).1 ↔ IsTopK.insertAt logits n l ≤ m := by
  have hinsert := IsTopK.insertAt_le logits n l
  by_cases hm : m < l.length
  · rw [topEntry_of_lt logits hm]
    dsimp only
    constructor
    · intro hgt
      by_contra hlt
      have hnot := List.not_of_lt_findIdx (not_le.1 hlt)
      rw [decide_eq_false_iff_not] at hnot
      exact hnot hgt
    · intro hle
      have hin : IsTopK.insertAt logits n l < l.length := by omega
      have hfound : decide (logits l[IsTopK.insertAt logits n l] < logits n) = true := List.findIdx_getElem (w := hin)
      rcases hle.lt_or_eq with hlt | heq
      · exact ((List.pairwise_iff_getElem.1 htop.sorted _ m hin hm hlt).rank_le).trans_lt (of_decide_eq_true hfound)
      · subst heq
        exact of_decide_eq_true hfound
  · rw [topEntry_of_le logits (by omega)]
    exact ⟨fun _ => by omega, fun _ => hlow⟩

omit [LinearOrder K] in
theorem topEntry_congr {l l' : List Nat} {m m' : Nat} (h : l[m]? = l'[m']?) :
    topEntry logits l m = topEntry logits l' m' := by
  unfold topEntry
  rw [h]

theorem topEntry_inserted (l : List Nat) (n m : Nat) : topEntry logits (IsTopK.inserted logits n l) m =
    if m < IsTopK.insertAt logits n l then topEntry logits l m
    else if m = IsTopK.insertAt logits n l then (logits n, (n : Int)) else topEntry logits l (m - 1) := by
  have hget := IsTopK.getElem?_inserted logits n l m
  split
  · next hlt =>
    rw [if_pos hlt] at hget
    exact topEntry_congr hget
  · next hlt =>
    rw [if_neg hlt] at hget
    split
    · next heq =>
      rw [if_pos heq] at hget
      unfold topEntry
      rw [hget]
    · next hne =>
      rw [if_neg hne] at hget
      exact topEntry_congr hget

/-- A token more: the arrays hold the first `k` tokens so far, the greatest logits first. -/
theorem topScan_succ {k n : Nat} {l : List Nat} (hk : 1 ≤ k) (htop : IsTopK logits (fun _ => True) n k l)
    (hlow : lowest < logits n) (hslots : ∀ m < k, (topScan logits k n).slot m = topEntry logits l m) :
    ∀ m < k, (topScan logits k (n + 1)).slot m = topEntry logits ((IsTopK.inserted logits n l).take k) m := by
  have hvals : ∀ m < k, logits n > (topScan logits k n).vals m ↔ IsTopK.insertAt logits n l ≤ m := by
    intro m hm
    have hval : (topScan logits k n).vals m = (topEntry logits l m).1 := congrArg Prod.fst (hslots m hm)
    rw [hval]
    exact topEntry_smaller htop hlow m
  intro m hm
  rw [topEntry_congr (List.getElem?_take_of_lt hm), topEntry_inserted]
  unfold topScan
  dsimp only
  by_cases hlast : logits n > (topScan logits k n).vals (k - 1)
  · rw [if_pos hlast, slot_insertSlot _ _ (IsTopK.insertAt logits n l) (k - 1) _ ((hvals (k - 1) (by omega)).1 hlast)
      (fun m hm => hvals m (by omega))]
    rw [if_pos (show m ≤ k - 1 by omega), hslots m hm, hslots (m - 1) (by omega)]
  · -- no slot is smaller, and the arrays stay as they are
    have hbehind := mt (hvals (k - 1) (by omega)).2 hlast
    rw [if_neg hlast, if_pos (by omega)]
    exact hslots m hm

theorem topScan_spec {k : Nat} (hk : 1 ≤ k) : ∀ n : Nat, (∀ i < n, lowest < logits i) →
    ∃ l, IsTopK logits (fun _ => True) n k l ∧ ∀ m < k, (topScan logits k n).slot m = topEntry logits l m
  | 0, _ => ⟨[], IsTopK.none_yet, fun _ _ => rfl⟩
  | n + 1, hlow => by
    obtain ⟨l, htop, hslots⟩ := topScan_spec hk n fun i hi => hlow i (by omega)
    exact ⟨_, htop.insert trivial, topScan_succ hk htop (hlow n (Nat.lt_succ_self n)) hslots⟩

theorem clampTopK_bounds {vocabSize : Nat} {k : Int} (h1 : 1 ≤ vocabSize) :
    1 ≤ clampTopK vocabSize k ∧ clampTopK vocabSize k ≤ vocabSize := by
  unfold clampTopK topKMax
  dsimp only
  constructor <;> split_ifs <;> omega

omit [Field K] in
/-- The first of the best tokens has the greatest logit. -/
theorem logits_head {vocabSize k t : Nat} {rest : List Nat} (h1 : 1 ≤ vocabSize)
    (htop : IsTopK logits (fun _ => True) vocabSize k (t :: rest)) : logits t = maxVal logits (vocabSize - 1) := by
  obtain ⟨i, hi, hmax⟩ := maxVal_mem logits (vocabSize - 1)
  have ht := (htop.mem t List.mem_cons_self).1
  refine le_antisymm (le_maxVal _ _ (by omega)) (hmax ▸ ?_)
  by_cases hin : i ∈ t :: rest
  · rcases List.mem_cons.1 hin with rfl | hin
    · exact le_refl _
    · exact ((List.pairwise_cons.1 htop.sorted).1 i hin).rank_le
  · exact ((htop.rest i (by omega) trivial hin).2 t List.mem_cons_self).rank_le

variable {expf : K → K} {vocabSize : Nat} {k : Int}

omit [LinearOrder K] in
/-- The entries that are sampled, by slots and by tokens. -/
theorem entries_slots {n : Nat} {s : TopArrays K} {l : List Nat} (hlen : l.length = n)
    (hslots : ∀ m < n, s.slot m = topEntry logits l m) (f : K → K) :
    l.map (fun t => (⟨f (logits t), t⟩ : ProbIndex K)) =
      ((List.range n).map fun i => (⟨f (s.vals i), i⟩ : ProbIndex K)).map fun e => ⟨e.prob, l[e.index]?.getD 0⟩ := by
  refine List.ext_getElem (by simp [hlen]) fun m hm _ => ?_
  rw [List.length_map] at hm
  have hslot := hslots m (by omega)
  rw [topEntry_of_lt logits hm] at hslot
  have hval : s.vals m = logits l[m] := congrArg Prod.fst hslot
  simp only [List.getElem_map, List.getElem_range]
  rw [hval, List.getElem?_eq_getElem hm, Option.getD_some]

/-- `sample_top_k` samples the tokens with the `k` greatest logits, from the softmax. -/
theorem sampleTopK_law [IsStrictOrderedRing K] (hexp : IsExp expf) (h1 : 1 ≤ vocabSize)
    (hlow : ∀ i < vocabSize, lowest < logits i) :
    ∃ kept, IsTopK logits (fun _ => True) vocabSize (clampTopK vocabSize k) kept ∧
      kept.length = clampTopK vocabSize k ∧
      SamplesInProportion (softmax expf logits vocabSize) kept (sampleTopKWith expf logits vocabSize k) ∧
      ∀ rngState, ∃ t ∈ kept, (sampleTopK expf logits vocabSize k rngState).1 = t := by
  obtain ⟨hpos, hle⟩ := clampTopK_bounds (k := k) h1
  obtain ⟨kept, htop, hslots⟩ := @topScan_spec K _ _ logits _ hpos vocabSize hlow
  have hlen : kept.length = clampTopK vocabSize k := by
    rw [htop.length_eq fun _ _ => trivial, Nat.min_eq_left hle]
  obtain ⟨best, rest, hkept⟩ := List.exists_cons_of_ne_nil (List.ne_nil_of_length_pos (l := kept) (by omega))
  have hmax : (topScan logits (clampTopK vocabSize k) vocabSize).vals 0 = maxVal logits (vocabSize - 1) := by
    have hslot := hslots 0 (by omega)
    rw [topEntry_of_lt logits (by omega)] at hslot
    refine (congrArg Prod.fst hslot).trans ?_
    subst hkept
    exact logits_head h1 htop
  set total := ∑ j ∈ range vocabSize, expf (logits j - maxVal logits (vocabSize - 1)) with htotalDef
  set sum := mass (fun t => expf (logits t - maxVal logits (vocabSize - 1))) kept with hsumDef
  have htotal : 0 < total := Finset.sum_pos (fun _ _ => hexp.pos _) ⟨0, Finset.mem_range.2 h1⟩
  have hsum : 0 < sum := mass_pos (fun _ _ => hexp.pos _) (by simp [hkept])
  -- the sum of the loop is that of the kept tokens
  have hloop : ((List.range (clampTopK vocabSize k)).map fun i =>
      expf ((topScan logits (clampTopK vocabSize k) vocabSize).vals i - maxVal logits (vocabSize - 1))).sum = sum := by
    have hprobs := congrArg (List.map ProbIndex.prob)
      (entries_slots hlen hslots fun x => expf (x - maxVal logits (vocabSize - 1)))
    simp only [List.map_map, Function.comp_def] at hprobs
    exact (congrArg List.sum hprobs).symm
  have hweight : ∀ t, softmax expf logits vocabSize t * (total / sum) =
      expf (logits t - maxVal logits (vocabSize - 1)) / sum := fun t => div_mul_div_cancel₀ htotal.ne'
  have hone : mass (softmax expf logits vocabSize) kept * (total / sum) = 1 := by
    unfold mass
    rw [← List.sum_map_mul_right]
    simp only [hweight]
    simp only [div_eq_mul_inv]
    rw [List.sum_map_mul_right]
    exact mul_inv_cancel₀ hsum.ne'
  have hlaw : SamplesInProportion (softmax expf logits vocabSize) kept (sampleTopKWith expf logits vocabSize k) := by
    refine .of_pick (div_pos htotal hsum) (fun t _ => div_pos (hexp.pos _) htotal) htop.nodup (by simp [hkept])
      fun r t _ hpick => ?_
    rw [hone, mul_one] at hpick
    simp only [hweight] at hpick
    rw [entries_slots hlen hslots fun x => expf (x - maxVal logits (vocabSize - 1)) / sum,
      pickFrom_map fun i => kept[i]?.getD 0] at hpick
    obtain ⟨m, hm, rfl⟩ := Option.map_eq_some_iff.1 hpick
    obtain ⟨i, e, hi, rfl⟩ := pickFrom_some _ _ hm
    obtain ⟨j, hj, rfl⟩ := List.mem_map.1 (List.mem_of_getElem? hi)
    have hj := List.mem_range.1 hj
    have hslot := hslots j hj
    rw [topEntry_of_lt logits (by omega)] at hslot
    unfold sampleTopKWith
    dsimp only
    rw [hmax, hloop, hm, List.getElem?_eq_getElem (by omega)]
    exact congrArg Prod.snd hslot
  refine ⟨kept, htop, hlen, hlaw, fun rngState => ?_⟩
  obtain ⟨h0, h1⟩ := rngFloat_mem (K := K) rngState
  exact hlaw.only _ h0 h1

/-- Two of three tokens. -/
theorem sampleTopK_law_three : ∃ kept, IsTopK (fun i => (i : ℚ)) (fun _ => True) 3 (clampTopK 3 2) kept ∧
    kept.length = clampTopK 3 2 ∧
    SamplesInProportion (softmax sampleExp (fun i => (i : ℚ)) 3) kept (sampleTopKWith sampleExp (fun i => (i : ℚ)) 3 2) ∧
    ∀ rngState, ∃ t ∈ kept, (sampleTopK sampleExp (fun i => (i : ℚ)) 3 2 rngState).1 = t :=
  sampleTopK_law sampleExp_isExp (by decide) fun i _ => by
    have : (0 : ℚ) ≤ i := Nat.cast_nonneg i
    unfold lowest
    push_cast
    linarith [show (0 : ℚ) < 10 ^ 30 by positivity]

end

end BitForge.Sampling
