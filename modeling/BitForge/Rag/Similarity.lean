/-
`rag_find_top_k`: the entries of the memory that score best against a query, by insertion into a window of `k` slots that
start at -2. Scores are bit patterns of single precision numbers, and the dot product is whatever the dispatch computes.
The window always holds the first `k` of the entries that were scored.
-/
import BitForge.Lib.Single
import BitForge.Lib.TopK

namespace BitForge.Rag

open BitForge.Lib

/-- `-2.0f`. -/
def minusTwo : Nat := 0xc0000000

/-- `out_indices`, `out_scores` and `filled`. -/
structure Window where
  outIndices : Nat → Int
  outScores : Nat → Nat
  filled : Nat

namespace Window

def store (w : Window) (j : Nat) (index : Int) (score : Nat) : Window :=
  { w with outIndices := Function.update w.outIndices j index, outScores := Function.update w.outScores j score }

/-- What a slot holds. -/
def slot (w : Window) (j : Nat) : Int × Nat := (w.outIndices j, w.outScores j)

theorem slot_store (w : Window) (j : Nat) (index : Int) (score i : Nat) :
    (w.store j index score).slot i = if i = j then (index, score) else w.slot i := by
  unfold store slot
  dsimp only
  rw [Function.update_apply, Function.update_apply]
  split <;> rfl

@[simp] theorem filled_store (w : Window) (j : Nat) (index : Int) (score : Nat) :
    (w.store j index score).filled = w.filled := rfl

end Window

/-! ## `rag_find_top_k` -/

/-- The loop that sets the first `k` slots. -/
def initSlots (w : Window) (k : Nat) : Window := (List.range k).foldl (fun w i => w.store i (-1) minusTwo) w

/-- The first slot with a lower score; `none` is an `insert_pos` of -1. -/
def insertPos (score k : Nat) (w : Window) : Option Nat := (List.range k).find? fun j => Single.gt score (w.outScores j)

/-- The loop that makes room at `insert_pos`, from the slot `j` down. -/
def shiftDown (pos : Nat) : Nat → Window → Window
  | 0, w => w
  | j + 1, w => if pos < j + 1 then shiftDown pos j (w.store (j + 1) (w.outIndices j) (w.outScores j)) else w

/-- The body of the loop over the entries. -/
def offer (k : Nat) (w : Window) (i score : Nat) : Window :=
  match insertPos score k w with
  | none => w
  | some pos =>
    let s := (shiftDown pos (k - 1) w).store pos i score
    { s with filled := if s.filled < k then s.filled + 1 else s.filled }

/-- `rag_cosine_similarity` of the query and an entry, for the `tn_vec_dot` of the dispatch. -/
def ragCosineSimilarity (tnVecDot : (Nat → Nat) → (Nat → Nat) → Int → Nat) (query embeddings : Nat → Nat) (dim : Int)
    (i : Nat) : Nat :=
  tnVecDot query (fun d => embeddings (i * dim.toNat + d)) dim

/-- The loop over the first entries. -/
def offers (score : Nat → Nat) (k : Nat) (w : Window) : Nat → Window
  | 0 => w
  | n + 1 => offer k (offers score k w n) n (score n)

/-- `rag_find_top_k`: what it returns and the two arrays after it. A null pointer is `none`. -/
def ragFindTopK (tnVecDot : (Nat → Nat) → (Nat → Nat) → Int → Nat) (query embeddings : Option (Nat → Nat))
    (nEntries dim k : Int) (outIndices : Option (Nat → Int)) (outScores : Option (Nat → Nat)) :
    Int × Option (Nat → Int) × Option (Nat → Nat) :=
  match query, embeddings, outIndices, outScores with
  | some q, some e, some indices, some scores =>
    if nEntries ≤ 0 ∨ dim ≤ 0 ∨ k ≤ 0 then (0, outIndices, outScores)
    else
      let k := if k > nEntries then nEntries else k
      let w := offers (ragCosineSimilarity tnVecDot q e dim) k.toNat (initSlots ⟨indices, scores, 0⟩ k.toNat) nEntries.toNat
      (w.filled, some w.outIndices, some w.outScores)
  | _, _, _, _ => (0, outIndices, outScores)

/-! ## The loops over the slots -/

theorem slot_initSlots (w : Window) (i : Nat) : ∀ k : Nat,
    (initSlots w k).slot i = if i < k then (-1, minusTwo) else w.slot i
  | 0 => by rw [if_neg (Nat.not_lt_zero i)]; rfl
  | k + 1 => by
    have hsucc : initSlots w (k + 1) = (initSlots w k).store k (-1) minusTwo := by
      unfold initSlots
      rw [List.range_succ, List.foldl_append, List.foldl_cons, List.foldl_nil]
    rw [hsucc, Window.slot_store, slot_initSlots w i k]
    by_cases heq : i = k
    · rw [if_pos heq, if_pos (by omega)]
    · rw [if_neg heq]
      exact if_congr (by omega) rfl rfl

theorem filled_initSlots (w : Window) : ∀ k : Nat, (initSlots w k).filled = w.filled
  | 0 => rfl
  | k + 1 => by
    unfold initSlots
    rw [List.range_succ, List.foldl_append, List.foldl_cons, List.foldl_nil, Window.filled_store]
    exact filled_initSlots w k

/-- The slots behind `pos` up to `j` move down by one. -/
theorem slot_shiftDown (pos i : Nat) : ∀ (j : Nat) (w : Window),
    (shiftDown pos j w).slot i = if pos < i ∧ i ≤ j then w.slot (i - 1) else w.slot i
  | 0, w => by rw [if_neg (by omega)]; rfl
  | j + 1, w => by
    unfold shiftDown
    split
    · next hpos =>
      rw [slot_shiftDown pos i j, Window.slot_store, Window.slot_store]
      by_cases hmid : pos < i ∧ i ≤ j
      · rw [if_pos hmid, if_neg (by omega), if_pos (by omega)]
      · rw [if_neg hmid]
        by_cases hend : i = j + 1
        · rw [if_pos hend, if_pos (by omega), hend]
          rfl
        · rw [if_neg hend, if_neg (by omega)]
    · rw [if_neg (by omega)]

theorem filled_shiftDown (pos : Nat) : ∀ (j : Nat) (w : Window), (shiftDown pos j w).filled = w.filled
  | 0, _ => rfl
  | j + 1, w => by
    unfold shiftDown
    split
    · rw [filled_shiftDown pos j, Window.filled_store]
    · rfl

/-! ## What the window holds -/

/-- The slot of a list of entries. -/
def slotOf (score : Nat → Nat) (l : List Nat) (j : Nat) : Int × Nat :=
  match l[j]? with
  | some i => (i, score i)
  | none => (-1, minusTwo)

/-- The window holds the entries of a list, and -2 in the slots behind them. -/
structure Holds (score : Nat → Nat) (k : Nat) (l : List Nat) (w : Window) : Prop where
  filled : w.filled = l.length
  slots : ∀ j < k, w.slot j = slotOf score l j

/-- The rank of an entry. -/
def rankOf (score : Nat → Nat) (i : Nat) : Int := Single.rank (score i)

section

variable {score : Nat → Nat} {k : Nat} {l : List Nat} {w : Window}

theorem slotOf_of_getElem? {l' : List Nat} {j j' : Nat} (h : l[j]? = l'[j']?) : slotOf score l j = slotOf score l' j' := by
  unfold slotOf
  rw [h]

theorem slotOf_inserted (n j : Nat) : slotOf score (IsTopK.inserted (rankOf score) n l) j =
    if j < IsTopK.insertAt (rankOf score) n l then slotOf score l j
    else if j = IsTopK.insertAt (rankOf score) n l then (n, score n) else slotOf score l (j - 1) := by
  have hget := IsTopK.getElem?_inserted (rankOf score) n l j
  split
  · next hlt =>
    rw [if_pos hlt] at hget
    exact slotOf_of_getElem? hget
  · next hlt =>
    rw [if_neg hlt] at hget
    split
    · next heq =>
      rw [if_pos heq] at hget
      unfold slotOf
      rw [hget]
    · next hne =>
      rw [if_neg hne] at hget
      exact slotOf_of_getElem? hget

/-- The search finds the place of the entry in the list, if that is in the window. -/
theorem insertPos_eq (h : Holds score k l w) {n : Nat} (hl : ∀ i ∈ l, Single.gt (score i) minusTwo = true)
    (hn : Single.gt (score n) minusTwo = true) : insertPos (score n) k w =
      if IsTopK.insertAt (rankOf score) n l < k then some (IsTopK.insertAt (rankOf score) n l) else none := by
  have hgt : ∀ i ∈ l, Single.gt (score n) (score i) = true ↔ rankOf score i < rankOf score n := fun i hi =>
    Single.gt_iff_rank (Single.gt_isSome hn).1 (Single.gt_isSome (hl i hi)).1
  have hbefore : ∀ j < IsTopK.insertAt (rankOf score) n l, j < k → Single.gt (score n) (w.outScores j) = false := by
    intro j hj hjk
    have hlt : j < l.length := lt_of_lt_of_le hj (IsTopK.insertAt_le (rankOf score) n l)
    have hscore : w.outScores j = score l[j] := by
      have := congrArg Prod.snd (h.slots j hjk)
      unfold slotOf at this
      rwa [List.getElem?_eq_getElem hlt] at this
    have hnot := List.not_of_lt_findIdx hj
    rw [decide_eq_false_iff_not, ← hgt _ (List.getElem_mem hlt), Bool.not_eq_true] at hnot
    rw [hscore, hnot]
  unfold insertPos
  split
  · next hlt =>
    rw [List.find?_range_eq_some]
    refine ⟨?_, List.mem_range.2 hlt, fun j hj => by rw [hbefore j hj (by omega)]; rfl⟩
    have hslot := congrArg Prod.snd (h.slots _ hlt)
    unfold slotOf at hslot
    change w.outScores _ = _ at hslot
    rw [hslot]
    by_cases hin : IsTopK.insertAt (rankOf score) n l < l.length
    · rw [List.getElem?_eq_getElem hin]
      have hfound : decide (rankOf score l[IsTopK.insertAt (rankOf score) n l] < rankOf score n) = true :=
        List.findIdx_getElem (w := hin)
      exact (hgt _ (List.getElem_mem hin)).2 (of_decide_eq_true hfound)
    · rw [List.getElem?_eq_none (by omega)]
      exact hn
  · next hge =>
    rw [List.find?_range_eq_none]
    intro j hj
    rw [hbefore j (by omega) hj]
    rfl

/-- An entry more: the window still holds the first `k`. -/
theorem Holds.offer {n : Nat} (h : Holds score k l w) (hlen : l.length ≤ k)
    (hl : ∀ i ∈ l, Single.gt (score i) minusTwo = true) (hn : Single.gt (score n) minusTwo = true) :
    Holds score k ((IsTopK.inserted (rankOf score) n l).take k) (Rag.offer k w n (score n)) := by
  have hlength := IsTopK.length_inserted (rankOf score) n l
  have hle := IsTopK.insertAt_le (rankOf score) n l
  have htake : ∀ j < k, slotOf score ((IsTopK.inserted (rankOf score) n l).take k) j =
      slotOf score (IsTopK.inserted (rankOf score) n l) j := fun j hj =>
    slotOf_of_getElem? (List.getElem?_take_of_lt hj)
  unfold Rag.offer
  rw [insertPos_eq h hl hn]
  by_cases hlt : IsTopK.insertAt (rankOf score) n l < k
  · rw [if_pos hlt]
    constructor
    · dsimp only
      rw [Window.filled_store, filled_shiftDown, h.filled, List.length_take, hlength]
      split <;> omega
    · intro j hj
      have hstored := Window.slot_store (shiftDown (IsTopK.insertAt (rankOf score) n l) (k - 1) w)
        (IsTopK.insertAt (rankOf score) n l) n (score n) j
      rw [htake j hj, slotOf_inserted]
      refine Eq.trans hstored ?_
      rw [slot_shiftDown]
      by_cases heq : j = IsTopK.insertAt (rankOf score) n l
      · rw [if_pos heq, if_neg (by omega), if_pos heq]
      · rw [if_neg heq]
        by_cases hbefore : j < IsTopK.insertAt (rankOf score) n l
        · rw [if_neg (by omega), if_pos hbefore, h.slots j hj]
        · rw [if_pos (by omega), if_neg hbefore, if_neg heq, h.slots (j - 1) (by omega)]
  · -- no slot is lower, and the entry falls out at once
    rw [if_neg hlt]
    constructor
    · rw [h.filled, List.length_take, hlength]
      omega
    · intro j hj
      rw [htake j hj, slotOf_inserted, if_pos (by omega), h.slots j hj]

theorem holds_offers (hinit : Holds score k [] w) : ∀ n : Nat,
    (∀ i < n, Single.gt (score i) minusTwo = true) →
      ∃ l, IsTopK (rankOf score) (fun _ => True) n k l ∧ Holds score k l (offers score k w n)
  | 0, _ => ⟨[], IsTopK.none_yet, hinit⟩
  | n + 1, hscores => by
    obtain ⟨l, htop, hholds⟩ := holds_offers hinit n fun i hi => hscores i (by omega)
    have hl : ∀ i ∈ l, Single.gt (score i) minusTwo = true := fun i hi => hscores i (by
      have := (htop.mem i hi).1
      omega)
    exact ⟨_, htop.insert trivial, hholds.offer htop.length_le hl (hscores n (Nat.lt_succ_self n))⟩

end

/-! ## What is returned -/

/-- The first `m` slots of the arrays are the `m` best of `n` entries, in their order. -/
structure IsRetrieved (score : Nat → Nat) (n m : Int) (indices : Nat → Int) (scores : Nat → Nat) : Prop where
  inRange : ∀ j : Nat, j < m → 0 ≤ indices j ∧ indices j < n
  distinct : ∀ j j' : Nat, j < m → j' < m → indices j = indices j' → j = j'
  ofIndex : ∀ j : Nat, j < m → scores j = score (indices j).toNat
  ordered : ∀ j j' : Nat, j < j' → j' < m →
    Single.gt (scores j) (scores j') = true ∨ Single.eq (scores j) (scores j') = true ∧ indices j < indices j'
  leftOut : ∀ i : Int, 0 ≤ i → i < n → (∀ j : Nat, j < m → indices j ≠ i) → ∀ j : Nat, j < m →
    Single.gt (scores j) (score i.toNat) = true ∨
      Single.eq (scores j) (score i.toNat) = true ∧ indices j < i

theorem Holds.isRetrieved {score : Nat → Nat} {n k : Nat} {l : List Nat} {w : Window} (h : Holds score k l w)
    (htop : IsTopK (rankOf score) (fun _ => True) n k l) (hscores : ∀ i < n, Single.gt (score i) minusTwo = true) :
    IsRetrieved score n l.length w.outIndices w.outScores := by
  have hle := htop.length_le
  have hslot : ∀ (j : Nat) (hj : j < l.length), w.outIndices j = l[j] ∧ w.outScores j = score l[j] := by
    intro j hj
    have := h.slots j (by omega)
    unfold slotOf Window.slot at this
    rw [List.getElem?_eq_getElem hj] at this
    exact Prod.mk.inj this
  have hplaced : ∀ i < n, (Single.place (score i)).isSome := fun i hi => (Single.gt_isSome (hscores i hi)).1
  have hmem : ∀ (j : Nat) (hj : j < l.length), l[j] < n := fun j hj => (htop.mem _ (List.getElem_mem hj)).1
  -- an entry before another is above it or ties with a lower index
  have hbefore : ∀ a b : Nat, a < n → b < n → Precedes (rankOf score) a b →
      Single.gt (score a) (score b) = true ∨ Single.eq (score a) (score b) = true ∧ (a : Int) < b := by
    intro a b ha hb hab
    rw [Single.gt_iff_rank (hplaced a ha) (hplaced b hb), Single.eq_iff_rank (hplaced a ha) (hplaced b hb)]
    exact hab.imp_right fun hab => ⟨hab.1, Int.ofNat_lt.2 hab.2⟩
  constructor
  · intro j hj
    rw [(hslot j (by omega)).1]
    have := hmem j (by omega)
    omega
  · intro j j' hj hj' heq
    rw [(hslot j (by omega)).1, (hslot j' (by omega)).1] at heq
    exact (htop.nodup.getElem_inj_iff).1 (Int.ofNat.inj heq)
  · intro j hj
    rw [(hslot j (by omega)).1, (hslot j (by omega)).2, Int.toNat_natCast]
  · intro j j' hlt hj'
    rw [(hslot j (by omega)).1, (hslot j (by omega)).2, (hslot j' (by omega)).1, (hslot j' (by omega)).2]
    exact hbefore _ _ (hmem j (by omega)) (hmem j' (by omega))
      (List.pairwise_iff_getElem.1 htop.sorted j j' (by omega) (by omega) hlt)
  · intro i h0 hi hno j hj
    have hout : i.toNat ∉ l := by
      intro hin
      obtain ⟨j', hj', hget⟩ := List.getElem_of_mem hin
      refine hno j' (by omega) ?_
      rw [(hslot j' hj').1, hget]
      omega
    have hab := (htop.rest i.toNat (by omega) trivial hout).2 _ (List.getElem_mem (show j < l.length by omega))
    rw [(hslot j (by omega)).1, (hslot j (by omega)).2]
    have hcast : ((i.toNat : Nat) : Int) = i := Int.toNat_of_nonneg h0
    rw [← hcast]
    exact hbefore _ _ (hmem j (by omega)) (by omega) hab

/-- The memory returns the true top `k`: as many entries as there can be, distinct ones, with their scores, the best
first, the earlier of two with the same score first, and none that is left out comes before one of them. -/
theorem ragFindTopK_isRetrieved {tnVecDot : (Nat → Nat) → (Nat → Nat) → Int → Nat} {query embeddings : Nat → Nat}
    {nEntries dim k : Int} {outIndices : Nat → Int} {outScores : Nat → Nat} (hn : 1 ≤ nEntries) (hdim : 1 ≤ dim)
    (hk : 1 ≤ k) (hscores : ∀ i : Nat, i < nEntries →
      Single.gt (ragCosineSimilarity tnVecDot query embeddings dim i) minusTwo = true) :
    ∃ indices scores, ragFindTopK tnVecDot (some query) (some embeddings) nEntries dim k (some outIndices) (some outScores) =
        (min k nEntries, some indices, some scores) ∧
      IsRetrieved (ragCosineSimilarity tnVecDot query embeddings dim) nEntries (min k nEntries) indices scores := by
  have hclamp : (if k > nEntries then nEntries else k) = min k nEntries := by
    split <;> omega
  have hinit : Holds (ragCosineSimilarity tnVecDot query embeddings dim) (min k nEntries).toNat []
      (initSlots ⟨outIndices, outScores, 0⟩ (min k nEntries).toNat) := by
    refine ⟨filled_initSlots _ _, fun j hj => ?_⟩
    rw [slot_initSlots, if_pos hj]
    rfl
  obtain ⟨l, htop, hholds⟩ := holds_offers hinit nEntries.toNat fun i hi => hscores i (by omega)
  have hlength := htop.length_eq fun _ _ => trivial
  have hcount : ((l.length : Nat) : Int) = min k nEntries := by omega
  have hret := hholds.isRetrieved htop fun i hi => hscores i (by omega)
  rw [hcount, Int.toNat_of_nonneg (by omega)] at hret
  refine ⟨_, _, ?_, hret⟩
  unfold ragFindTopK
  dsimp only
  rw [if_neg (by omega), hclamp, hholds.filled, hcount]

theorem ragFindTopK_isRetrieved_three : ∃ indices scores, ragFindTopK (fun _ e _ => e 0) (some fun _ => 0)
      (some fun d => if d = 1 then 0x3f800000 else 0x3f000000) 3 1 2 (some fun _ => 7) (some fun _ => 7) =
        (min 2 3, some indices, some scores) ∧
      IsRetrieved (ragCosineSimilarity (fun _ e _ => e 0) (fun _ => 0)
        (fun d => if d = 1 then 0x3f800000 else 0x3f000000) 1) 3 (min 2 3) indices scores :=
  ragFindTopK_isRetrieved (by decide) (by decide) (by decide) fun i hi => by
    obtain rfl | rfl | rfl : i = 0 ∨ i = 1 ∨ i = 2 := by omega
    all_goals decide

end BitForge.Rag
