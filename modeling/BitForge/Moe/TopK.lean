/-
What `top_k_select` picks and what the batched path of `moe_ffn_forward` makes of it. The picks are the best experts in
their order and then only -1, so the compacted position of an expert in the pointer arrays is its position among the
picks: the down projection that goes back to `selected_experts` and the weighted sum are about the same expert.
-/
import BitForge.Lib.TopK
import BitForge.Moe.Routing

namespace BitForge.Moe

open BitForge.Lib

/-! ## What is picked -/

/-- An expert that can be picked: its score is above `-FLT_MAX`, so it is no NaN. -/
def Eligible (scores : Nat → Nat) (e : Nat) : Prop := Single.gt (scores e) negFltMax = true

/-- The rank of an expert. -/
def expertRank (scores : Nat → Nat) (e : Nat) : Int := Single.rank (scores e)

/-- Where a scan stands after `n` experts: it has none of those that are left, or the best of them. -/
def IsBest (scores : Nat → Nat) (visited : List Int) (n : Nat) (s : Scan) : Prop :=
  (s.bestIdx = -1 ∧ s.bestVal = negFltMax ∧ ∀ i < n, Eligible scores i → (i : Int) ∈ visited) ∨
    ∃ b < n, s.bestIdx = b ∧ s.bestVal = scores b ∧ Eligible scores b ∧ (b : Int) ∉ visited ∧
      ∀ i < n, Eligible scores i → (i : Int) ∉ visited → i ≠ b → Precedes (expertRank scores) b i

section

variable {scores : Nat → Nat}

theorem Eligible.gt_iff {a b : Nat} (ha : Eligible scores a) (hb : Eligible scores b) :
    Single.gt (scores a) (scores b) = true ↔ expertRank scores b < expertRank scores a :=
  Single.gt_iff_rank (Single.gt_isSome ha).1 (Single.gt_isSome hb).1

/-- What is above an eligible score is eligible. -/
theorem Eligible.of_gt {a b : Nat} (hb : Eligible scores b) (h : Single.gt (scores a) (scores b) = true) :
    Eligible scores a := by
  have hab := (Single.gt_iff_rank (Single.gt_isSome h).1 (Single.gt_isSome h).2).1 h
  have hlow := (Single.gt_iff_rank (Single.gt_isSome hb).1 (Single.gt_isSome hb).2).1 hb
  exact (Single.gt_iff_rank (Single.gt_isSome h).1 (Single.gt_isSome hb).2).2 (hlow.trans hab)

variable {visited : List Int} {n : Nat} {s : Scan}

/-- An expert that the scan passes over changes nothing. -/
theorem IsBest.pass {log : List Access} (h : IsBest scores visited n s)
    (hpass : (n : Int) ∈ visited ∨ Single.gt (scores n) s.bestVal = false) :
    IsBest scores visited (n + 1) { s with log := log } := by
  rcases h with ⟨hidx, hval, hall⟩ | ⟨b, hb, hidx, hval, helig, hout, hbest⟩
  · refine .inl ⟨hidx, hval, fun i hi hi' => ?_⟩
    rcases Nat.lt_succ_iff_lt_or_eq.1 hi with hlt | rfl
    · exact hall i hlt hi'
    · rcases hpass with hvisited | hnot
      · exact hvisited
      · rw [hval] at hnot
        exact absurd hi' (by unfold Eligible; rw [hnot]; decide)
  · refine .inr ⟨b, Nat.lt_succ_of_lt hb, hidx, hval, helig, hout, fun i hi hi' hno hne => ?_⟩
    rcases Nat.lt_succ_iff_lt_or_eq.1 hi with hlt | rfl
    · exact hbest i hlt hi' hno hne
    · rcases hpass with hvisited | hnot
      · exact absurd hvisited hno
      · -- the earlier of two with the same score stays
        have hle : ¬ expertRank scores b < expertRank scores i := by
          rw [← hi'.gt_iff helig, ← hval, hnot]
          decide
        rcases (not_lt.1 hle).lt_or_eq with hlt | heq
        · exact .inl hlt
        · exact .inr ⟨heq.symm, hb⟩

/-- An expert with a higher score takes the place of the best one. -/
theorem IsBest.take {log : List Access} (h : IsBest scores visited n s) (hout : (n : Int) ∉ visited)
    (hgt : Single.gt (scores n) s.bestVal = true) : IsBest scores visited (n + 1) ⟨n, scores n, log⟩ := by
  rcases h with ⟨-, hval, hall⟩ | ⟨b, hb, -, hval, helig, -, hbest⟩
  · rw [hval] at hgt
    refine .inr ⟨n, Nat.lt_succ_self n, rfl, rfl, hgt, hout, fun i hi hi' hno hne => ?_⟩
    exact absurd (hall i (by omega) hi') hno
  · rw [hval] at hgt
    have hn := helig.of_gt hgt
    refine .inr ⟨n, Nat.lt_succ_self n, rfl, rfl, hn, hout, fun i hi hi' hno hne => .inl ?_⟩
    have habove : expertRank scores b < expertRank scores n := (hn.gt_iff helig).1 hgt
    by_cases hib : i = b
    · rw [hib]
      exact habove
    · exact (hbest i (by omega) hi' hno hib).rank_le.trans_lt habove

theorem scanBest_isBest (scores : Nat → Nat) (visited : List Int) : ∀ n : Nat,
    IsBest scores visited n (scanBest scores visited n)
  | 0 => .inl ⟨rfl, rfl, fun _ hi => absurd hi (Nat.not_lt_zero _)⟩
  | n + 1 => by
    have ih := scanBest_isBest scores visited n
    unfold scanBest
    dsimp only
    split
    · next hvisited => exact ih.pass (.inl hvisited)
    · next hout =>
      split
      · next hgt => exact ih.take hout hgt
      · next hnot => exact ih.pass (.inr (by simpa using hnot))

/-- The picks are the first `k` eligible experts, and -1 in the entries behind them. -/
theorem topKSelect_isTopK (scores : Nat → Nat) (n : Nat) : ∀ k : Nat,
    ∃ l : List Nat, IsTopK (expertRank scores) (Eligible scores) n k l ∧
      (topKSelect scores n k).selected = l.map (fun e : Nat => (e : Int)) ++ List.replicate (k - l.length) (-1)
  | 0 => ⟨[], IsTopK.none_asked, rfl⟩
  | k + 1 => by
    obtain ⟨l, htop, hselected⟩ := topKSelect_isTopK scores n k
    have hle := htop.length_le
    have hmem : ∀ i : Nat, (i : Int) ∈ (topKSelect scores n k).selected ↔ i ∈ l := by
      intro i
      rw [hselected, List.mem_append, List.mem_map]
      constructor
      · rintro (⟨e, he, heq⟩ | hrep)
        · rwa [← Int.ofNat.inj heq]
        · have := List.eq_of_mem_replicate hrep
          omega
      · exact fun hi => .inl ⟨i, hi, rfl⟩
    have hpicked : (topKSelect scores n (k + 1)).selected = (topKSelect scores n k).selected ++
        [(scanBest scores (topKSelect scores n k).selected n).bestIdx] := rfl
    rcases scanBest_isBest scores (topKSelect scores n k).selected n with
      ⟨hidx, -, hall⟩ | ⟨b, hb, hidx, -, helig, hout, hbest⟩
    · refine ⟨l, htop.complete (Nat.le_succ k) fun i hi hi' => (hmem i).1 (hall i hi hi'), ?_⟩
      rw [hpicked, hidx, hselected, List.append_assoc, ← List.replicate_succ', Nat.succ_sub hle]
    · -- one is left, so no pick has failed yet
      rw [hmem] at hout
      have hlen := (htop.rest b hb helig hout).1
      refine ⟨l ++ [b], htop.snoc hb helig hout fun i hi hi' hno hne => ?_, ?_⟩
      · exact hbest i hi hi' (by rwa [hmem]) hne
      · rw [hpicked, hidx, hselected, hlen, Nat.sub_self, List.length_append, hlen, List.length_singleton, Nat.sub_self,
          List.map_append]
        simp

end

/-! ## The batched path -/

/-- The kernels of the batched path, each for one expert, over the weights `W` that a pointer names, the numbers `F` that
a weight is dequantized to, and the vectors `V`. -/
structure Kernels (W F V : Type) where
  /-- `parallel_matmul_q4k_batch` of the input, or of its quantization -/
  matmulQ4k : W → V → V
  /-- `tn_silu` or `tn_relu2`, then `tn_vec_mul` -/
  actMul : V → V → V
  /-- the down projection of the types Q5_1, Q5_0, Q8_0 and Q4_K -/
  matmulDown : W → V → V
  dequantExpertWeight : W → Option F
  matmulFloat32 : F → V → V
  /-- `tn_vec_saxpy` -/
  saxpy : V → Nat → V → V

/-- `moe_w1[layer]`, `moe_w3[layer]` and `moe_w2[layer]`. -/
structure ExpertWeights (W : Type) where
  moeW1 : Int → W
  moeW3 : Int → W
  moeW2 : Int → W

/-- The arrays of the batched path. A pointer into a scratch buffer is the number of its row. -/
structure Pointers (W : Type) where
  gatePtrs : Nat → Nat
  upPtrs : Nat → Nat
  downPtrs : Nat → Nat
  w1Ptrs : Nat → W
  w3Ptrs : Nat → W
  w2Ptrs : Nat → W
  selSc : Nat → Nat
  validK : Nat

/-- `s_gate_buf`, `s_up_buf` and `s_down_buf`, by rows. -/
structure Scratch (V : Type) where
  gateBuf : Nat → V
  upBuf : Nat → V
  downBuf : Nat → V

variable {W F V : Type}

/-- Step 4 of `moe_router_forward`: the scores of the picks, and `0.0f` for none. -/
def selectedScores (scores : Nat → Nat) (selected : List Int) : List Nat :=
  selected.map fun e => if 0 ≤ e then scores e.toNat else 0

/-- An expert enters the arrays at `valid_k`. -/
def Pointers.push (w : ExpertWeights W) (p : Pointers W) (e : Int) (score : Nat) : Pointers W where
  gatePtrs := Function.update p.gatePtrs p.validK p.validK
  upPtrs := Function.update p.upPtrs p.validK p.validK
  downPtrs := Function.update p.downPtrs p.validK p.validK
  w1Ptrs := Function.update p.w1Ptrs p.validK (w.moeW1 e)
  w3Ptrs := Function.update p.w3Ptrs p.validK (w.moeW3 e)
  w2Ptrs := Function.update p.w2Ptrs p.validK (w.moeW2 e)
  selSc := Function.update p.selSc p.validK score
  validK := p.validK + 1

/-- The body of the loop that fills the arrays. -/
def Pointers.take (w : ExpertWeights W) (numExperts : Int) (p : Pointers W) (x : Int × Nat) : Pointers W :=
  if x.1 < 0 ∨ x.1 ≥ numExperts then p else p.push w x.1 x.2

/-- The loop that fills the arrays, over what they held before. -/
def fillPointers (w : ExpertWeights W) (numExperts : Int) (selected : List Int) (scores : List Nat) (p : Pointers W) :
    Pointers W :=
  (selected.zip scores).foldl (Pointers.take w numExperts) { p with validK := 0 }

/-- A loop over the valid experts that writes the row of each one, or leaves it. -/
def writeRows (ptrs : Nat → Nat) (out : (Nat → V) → Nat → Option V) (rows : Nat → V) (validK : Nat) : Nat → V :=
  (List.range validK).foldl
    (fun rows i =>
      match out rows i with
      | some v => Function.update rows (ptrs i) v
      | none => rows)
    rows

/-- The dispatches of the batched path and its weighted sum over `xb2`, which is zero before. The down projection of
another type takes its expert from `selected_experts`, and leaves the row if the weight cannot be dequantized. -/
def expertBatch (ops : Kernels W F V) (w : ExpertWeights W) (w2Other : Bool) (selected : List Int) (p : Pointers W)
    (old : Scratch V) (xb zero : V) : V :=
  let gate := writeRows p.gatePtrs (fun _ i => some (ops.matmulQ4k (p.w1Ptrs i) xb)) old.gateBuf p.validK
  let up := writeRows p.upPtrs (fun _ i => some (ops.matmulQ4k (p.w3Ptrs i) xb)) old.upBuf p.validK
  let hidden := writeRows p.gatePtrs (fun rows i => some (ops.actMul (rows (p.gatePtrs i)) (up (p.upPtrs i)))) gate p.validK
  let down := writeRows p.downPtrs
    (fun _ i =>
      if w2Other then
        (ops.dequantExpertWeight (w.moeW2 (selected.getD i 0))).map fun fw => ops.matmulFloat32 fw (hidden (p.gatePtrs i))
      else some (ops.matmulDown (p.w2Ptrs i) (hidden (p.gatePtrs i))))
    old.downBuf p.validK
  (List.range p.validK).foldl (fun xb2 i => ops.saxpy xb2 (p.selSc i) (down (p.downPtrs i))) zero

/-! ## What the batched path computes -/

/-- The output of an expert, with what its row held before. -/
def expertOutput (ops : Kernels W F V) (w : ExpertWeights W) (w2Other : Bool) (xb : V) (e : Nat) (row : V) : V :=
  let hidden := ops.actMul (ops.matmulQ4k (w.moeW1 e) xb) (ops.matmulQ4k (w.moeW3 e) xb)
  if w2Other then ((ops.dequantExpertWeight (w.moeW2 e)).map fun fw => ops.matmulFloat32 fw hidden).getD row
  else ops.matmulDown (w.moeW2 e) hidden

/-- The position of each expert in the arrays is its position in the list. -/
structure Aligned (w : ExpertWeights W) (scores : Nat → Nat) (l : List Nat) (p : Pointers W) : Prop where
  validK : p.validK = l.length
  rows : ∀ i < l.length, p.gatePtrs i = i ∧ p.upPtrs i = i ∧ p.downPtrs i = i
  weights : ∀ i e : Nat, l[i]? = some e → p.w1Ptrs i = w.moeW1 e ∧ p.w3Ptrs i = w.moeW3 e ∧ p.w2Ptrs i = w.moeW2 e
  selSc : ∀ i e : Nat, l[i]? = some e → p.selSc i = scores e

section

variable {w : ExpertWeights W} {scores : Nat → Nat} {l : List Nat} {p : Pointers W}

theorem Aligned.push (h : Aligned w scores l p) (e : Nat) : Aligned w scores (l ++ [e]) (p.push w e (scores e)) := by
  have hcase : ∀ i e' : Nat, (l ++ [e])[i]? = some e' → i = p.validK ∧ e' = e ∨ i ≠ p.validK ∧ l[i]? = some e' := by
    intro i e' hget
    rw [h.validK]
    rcases Nat.lt_trichotomy i l.length with hlt | heq | hgt
    · rw [List.getElem?_append_left hlt] at hget
      exact .inr ⟨by omega, hget⟩
    · rw [heq, List.getElem?_append_right (Nat.le_refl _), Nat.sub_self, List.getElem?_cons_zero] at hget
      exact .inl ⟨heq, (Option.some.inj hget).symm⟩
    · rw [List.getElem?_eq_none (by rw [List.length_append, List.length_singleton]; omega)] at hget
      cases hget
  unfold Pointers.push
  constructor
  · dsimp only
    rw [h.validK, List.length_append, List.length_singleton]
  · intro i hi
    rw [List.length_append, List.length_singleton] at hi
    dsimp only
    by_cases heq : i = p.validK
    · rw [heq, Function.update_self, Function.update_self, Function.update_self]
      exact ⟨rfl, rfl, rfl⟩
    · rw [Function.update_of_ne heq, Function.update_of_ne heq, Function.update_of_ne heq]
      exact h.rows i (by have := h.validK; omega)
  · intro i e' hget
    dsimp only
    rcases hcase i e' hget with ⟨rfl, rfl⟩ | ⟨hne, hold⟩
    · rw [Function.update_self, Function.update_self, Function.update_self]
      exact ⟨rfl, rfl, rfl⟩
    · rw [Function.update_of_ne hne, Function.update_of_ne hne, Function.update_of_ne hne]
      exact h.weights i e' hold
  · intro i e' hget
    dsimp only
    rcases hcase i e' hget with ⟨rfl, rfl⟩ | ⟨hne, hold⟩
    · exact Function.update_self ..
    · rw [Function.update_of_ne hne]
      exact h.selSc i e' hold

theorem Aligned.pushAll {numExperts : Nat} : ∀ (more l : List Nat) (p : Pointers W), (∀ e ∈ more, e < numExperts) →
    Aligned w scores l p → Aligned w scores (l ++ more)
      ((more.map fun e : Nat => ((e : Int), scores e)).foldl (Pointers.take w numExperts) p)
  | [], l, p, _, h => by rwa [List.append_nil]
  | e :: more, l, p, hlt, h => by
    have he := hlt e List.mem_cons_self
    have htake : Pointers.take w numExperts p ((e : Int), scores e) = p.push w e (scores e) := if_neg (by dsimp only; omega)
    have := Aligned.pushAll more (l ++ [e]) _ (fun e' he' => hlt e' (List.mem_cons_of_mem _ he')) (h.push e)
    rw [List.append_assoc, List.singleton_append] at this
    rwa [List.map_cons, List.foldl_cons, htake]

/-- The picks of -1 come last and enter no array. -/
theorem fillPointers_aligned {numExperts : Nat} (hlt : ∀ e ∈ l, e < numExperts) (failed : Nat) (p : Pointers W)
    {selected : List Int} (hselected : selected = l.map (fun e : Nat => (e : Int)) ++ List.replicate failed (-1)) :
    Aligned w scores l (fillPointers w numExperts selected (selectedScores scores selected) p) := by
  have hzip : selected.zip (selectedScores scores selected) =
      (l.map fun e : Nat => ((e : Int), scores e)) ++ List.replicate failed (-1, 0) := by
    unfold selectedScores
    rw [← List.map_prod_left_eq_zip, hselected, List.map_append, List.map_map, List.map_replicate]
    rfl
  have hskip : ∀ (m : Nat) (q : Pointers W),
      (List.replicate m ((-1 : Int), 0)).foldl (Pointers.take w numExperts) q = q := by
    intro m
    induction m with
    | zero => exact fun _ => rfl
    | succ m ih => exact fun q => ih q
  unfold fillPointers
  rw [hzip, List.foldl_append, hskip]
  exact Aligned.pushAll l [] _ hlt ⟨rfl, fun i hi => absurd hi (Nat.not_lt_zero i), fun i e h => by simp at h,
    fun i e h => by simp at h⟩

/-- Rows that are named in order are written each from what it held. -/
theorem writeRows_row {ptrs : Nat → Nat} {out : (Nat → V) → Nat → Option V} (rows : Nat → V) (i : Nat) : ∀ n : Nat,
    (∀ j < n, ptrs j = j) → (∀ j < n, ∀ r r' : Nat → V, r j = r' j → out r j = out r' j) →
      writeRows ptrs out rows n i = if i < n then (out rows i).getD (rows i) else rows i
  | 0, _, _ => (if_neg (Nat.not_lt_zero i)).symm
  | n + 1, hptrs, hlocal => by
    have ih := fun j => writeRows_row rows j n (fun j hj => hptrs j (by omega)) fun j hj => hlocal j (by omega)
    have hself : out (writeRows ptrs out rows n) n = out rows n :=
      hlocal n (Nat.lt_succ_self n) _ _ (by rw [ih n, if_neg (Nat.lt_irrefl n)])
    have hsucc : writeRows ptrs out rows (n + 1) =
        match out rows n with
        | some v => Function.update (writeRows ptrs out rows n) n v
        | none => writeRows ptrs out rows n := by
      rw [← hself]
      unfold writeRows
      rw [List.range_succ, List.foldl_append, List.foldl_cons, List.foldl_nil, hptrs n (Nat.lt_succ_self n)]
    rw [hsucc]
    by_cases heq : i = n
    · subst heq
      rw [if_pos (Nat.lt_succ_self i)]
      cases out rows i with
      | some v => exact Function.update_self ..
      | none => exact (ih i).trans (if_neg (Nat.lt_irrefl i))
    · have hrow : (match out rows n with
          | some v => Function.update (writeRows ptrs out rows n) n v
          | none => writeRows ptrs out rows n) i = writeRows ptrs out rows n i := by
        cases out rows n with
        | some v => exact Function.update_of_ne heq ..
        | none => rfl
      rw [hrow, ih i]
      exact if_congr (by omega) rfl rfl

/-- The batched path adds the output of each picked expert with the weight of the same expert. -/
theorem expertBatch_eq (ops : Kernels W F V) (w2Other : Bool) (h : Aligned w scores l p) {selected : List Int}
    (hselected : ∀ i e : Nat, l[i]? = some e → selected[i]? = some (e : Int)) (old : Scratch V) (xb zero : V) :
    expertBatch ops w w2Other selected p old xb zero =
      l.zipIdx.foldl (fun xb2 x => ops.saxpy xb2 (scores x.1) (expertOutput ops w w2Other xb x.1 (old.downBuf x.2))) zero := by
  have hvalid := h.validK
  have hgatePtrs : ∀ i < l.length, p.gatePtrs i = i := fun i hi => (h.rows i hi).1
  have hupPtrs : ∀ i < l.length, p.upPtrs i = i := fun i hi => (h.rows i hi).2.1
  have hdownPtrs : ∀ i < l.length, p.downPtrs i = i := fun i hi => (h.rows i hi).2.2
  unfold expertBatch
  dsimp only
  rw [hvalid, List.range_eq_range', ← List.zipIdx_map_snd, List.foldl_map]
  refine List.foldl_ext _ _ _ fun xb2 x hx => ?_
  obtain ⟨e, i⟩ := x
  have hget : l[i]? = some e := List.mem_zipIdx_iff_getElem?.1 hx
  have hi : i < l.length := (List.getElem?_eq_some_iff.1 hget).1
  obtain ⟨hw1, hw3, hw2⟩ := h.weights i e hget
  have hpick : selected.getD i 0 = e := by rw [List.getD_eq_getElem?_getD, hselected i e hget, Option.getD_some]
  dsimp only
  rw [h.selSc i e hget, hdownPtrs i hi]
  have hhidden : writeRows p.gatePtrs
      (fun rows i => some (ops.actMul (rows (p.gatePtrs i))
        (writeRows p.upPtrs (fun _ i => some (ops.matmulQ4k (p.w3Ptrs i) xb)) old.upBuf l.length (p.upPtrs i))))
      (writeRows p.gatePtrs (fun _ i => some (ops.matmulQ4k (p.w1Ptrs i) xb)) old.gateBuf l.length) l.length i =
        ops.actMul (ops.matmulQ4k (w.moeW1 e) xb) (ops.matmulQ4k (w.moeW3 e) xb) := by
    rw [writeRows_row _ _ _ hgatePtrs (fun j hj r r' hr => by rw [hgatePtrs j hj, hr]), if_pos hi, hgatePtrs i hi,
      hupPtrs i hi, writeRows_row _ _ _ hgatePtrs (fun _ _ _ _ _ => rfl), if_pos hi,
      writeRows_row _ _ _ hupPtrs (fun _ _ _ _ _ => rfl), if_pos hi, ← hw1, ← hw3]
    rfl
  congr 1
  rw [writeRows_row _ _ _ hdownPtrs (fun _ _ _ _ _ => rfl), if_pos hi, hgatePtrs i hi, hhidden, hw2, hpick]
  unfold expertOutput
  split <;> rfl

end

/-- The selection is the exact top `k`: distinct experts first, the best of those above `-FLT_MAX` in their order, and -1
behind them. So each position of the pointer arrays is about the expert that the same position of `selected_experts`
names, and the batched path adds every expert's output with its own weight. -/
theorem topKSelect_exact (scores : Nat → Nat) (n k : Nat) : ∃ l : List Nat,
    IsTopK (expertRank scores) (Eligible scores) n k l ∧ l.Nodup ∧
      (topKSelect scores n k).selected = l.map (fun e : Nat => (e : Int)) ++ List.replicate (k - l.length) (-1) ∧
      ∀ {W F V : Type} (ops : Kernels W F V) (w : ExpertWeights W) (p : Pointers W) (w2Other : Bool) (old : Scratch V) (xb zero : V),
        let selected := (moeRouterForward scores n k).selected
        let arrays := fillPointers w n selected (selectedScores scores selected) p
        Aligned w scores l arrays ∧ (∀ i e : Nat, l[i]? = some e → selected[i]? = some (e : Int)) ∧
          expertBatch ops w w2Other selected arrays old xb zero = l.zipIdx.foldl
            (fun xb2 x => ops.saxpy xb2 (scores x.1) (expertOutput ops w w2Other xb x.1 (old.downBuf x.2))) zero := by
  obtain ⟨l, htop, hselected⟩ := topKSelect_isTopK scores n k
  refine ⟨l, htop, htop.nodup, hselected, fun ops w p w2Other old xb zero => ?_⟩
  have hrouter : (moeRouterForward scores n k).selected =
      l.map (fun e : Nat => (e : Int)) ++ List.replicate (k - l.length) (-1) := hselected
  have hpicks : ∀ i e : Nat, l[i]? = some e → (moeRouterForward scores n k).selected[i]? = some (e : Int) := by
    intro i e hget
    have hi : i < l.length := (List.getElem?_eq_some_iff.1 hget).1
    rw [hrouter, List.getElem?_append_left (by rwa [List.length_map]), List.getElem?_map, hget]
    rfl
  have haligned := @fillPointers_aligned _ w scores l n (fun e he => (htop.mem e he).1) _ p _ hrouter
  exact ⟨haligned, hpicks, expertBatch_eq ops w2Other haligned hpicks old xb zero⟩

end BitForge.Moe
