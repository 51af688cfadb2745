/-
The largest entries of a table, in their order: higher ranks first and the earlier of two with the same rank. One rule for
tables that grow by an entry, by insertion into the window, and one for a selection that grows by the best of the rest.
-/
import Mathlib.Data.List.Sort
import Mathlib.Data.List.TakeWhile
import Mathlib.Tactic

namespace BitForge.Lib

variable {α : Type} [LinearOrder α]

/-- The entry `a` comes before `b`. -/
def Precedes (rank : Nat → α) (a b : Nat) : Prop := rank b < rank a ∨ rank a = rank b ∧ a < b

section Precedes

variable {rank : Nat → α} {a b c : Nat}

theorem Precedes.irrefl (h : Precedes rank a a) : False := by
  rcases h with h | h
  · exact lt_irrefl _ h
  · exact Nat.lt_irrefl a h.2

theorem Precedes.trans (hab : Precedes rank a b) (hbc : Precedes rank b c) : Precedes rank a c := by
  rcases hab with hab | ⟨hab, hlt⟩ <;> rcases hbc with hbc | ⟨hbc, hlt'⟩
  · exact .inl (hbc.trans hab)
  · exact .inl (hbc ▸ hab)
  · exact .inl (hab ▸ hbc)
  · exact .inr ⟨hab.trans hbc, hlt.trans hlt'⟩

theorem Precedes.rank_le (h : Precedes rank a b) : rank b ≤ rank a := by
  rcases h with h | h
  · exact h.le
  · exact h.1.ge

end Precedes

/-- The first `k` of the eligible entries below `n`, or all of them. -/
structure IsTopK (rank : Nat → α) (eligible : Nat → Prop) (n k : Nat) (l : List Nat) : Prop where
  length_le : l.length ≤ k
  mem : ∀ i ∈ l, i < n ∧ eligible i
  sorted : l.Pairwise (Precedes rank)
  rest : ∀ i < n, eligible i → i ∉ l → l.length = k ∧ ∀ j ∈ l, Precedes rank j i

namespace IsTopK

variable {rank : Nat → α} {eligible : Nat → Prop} {n k : Nat} {l : List Nat}

theorem nodup (h : IsTopK rank eligible n k l) : l.Nodup :=
  h.sorted.imp fun hab heq => (heq ▸ hab).irrefl

theorem none_yet : IsTopK rank eligible 0 k [] where
  length_le := Nat.zero_le k
  mem := nofun
  sorted := .nil
  rest i hi := absurd hi (Nat.not_lt_zero i)

theorem none_asked : IsTopK rank eligible n 0 [] where
  length_le := Nat.le_refl 0
  mem := nofun
  sorted := .nil
  rest _ _ _ _ := ⟨rfl, nofun⟩

/-- Where all entries are eligible, as many are in the list as there can be. -/
theorem length_eq (h : IsTopK rank eligible n k l) (hall : ∀ i < n, eligible i) : l.length = min k n := by
  have hsub : l ⊆ List.range n := fun i hi => List.mem_range.2 (h.mem i hi).1
  have hle : l.length ≤ n := by simpa using (h.nodup.subperm hsub).length_le
  by_cases hfull : l.length = k
  · omega
  · have hrange : List.range n ⊆ l := by
      intro i hi
      by_contra hno
      exact hfull (h.rest i (List.mem_range.1 hi) (hall i (List.mem_range.1 hi)) hno).1
    have hge : n ≤ l.length := by simpa using (List.nodup_range.subperm hrange).length_le
    have := h.length_le
    omega

/-! ## A table that grows -/

/-- The list with a new entry, behind all whose rank is not lower. -/
def inserted (rank : Nat → α) (n : Nat) (l : List Nat) : List Nat :=
  l.takeWhile (fun b => ¬ rank b < rank n) ++ n :: l.dropWhile fun b => ¬ rank b < rank n

theorem mem_inserted {i : Nat} : i ∈ inserted rank n l ↔ i = n ∨ i ∈ l := by
  have hsplit := List.takeWhile_append_dropWhile (p := fun b => decide (¬ rank b < rank n)) (l := l)
  unfold inserted
  rw [List.mem_append, List.mem_cons, ← hsplit, List.mem_append, hsplit]
  tauto

theorem length_inserted (rank : Nat → α) (n : Nat) (l : List Nat) : (inserted rank n l).length = l.length + 1 := by
  have hsplit := congrArg List.length (List.takeWhile_append_dropWhile (p := fun b => decide (¬ rank b < rank n)) (l := l))
  unfold inserted
  rw [List.length_append] at hsplit
  rw [List.length_append, List.length_cons]
  omega

/-- The first entry of a lower rank. -/
def insertAt (rank : Nat → α) (n : Nat) (l : List Nat) : Nat := l.findIdx fun b => decide (rank b < rank n)

theorem insertAt_le (rank : Nat → α) (n : Nat) (l : List Nat) : insertAt rank n l ≤ l.length := List.findIdx_le_length

theorem inserted_eq : inserted rank n l = l.take (insertAt rank n l) ++ n :: l.drop (insertAt rank n l) := by
  have hpred : (fun b => !decide (¬ rank b < rank n)) = fun b => decide (rank b < rank n) := by
    funext b
    rw [decide_not, Bool.not_not]
  unfold inserted insertAt
  rw [List.takeWhile_eq_take_findIdx_not, List.dropWhile_eq_drop_findIdx_not, hpred]

theorem getElem?_inserted (rank : Nat → α) (n : Nat) (l : List Nat) (j : Nat) : (inserted rank n l)[j]? =
    if j < insertAt rank n l then l[j]? else if j = insertAt rank n l then some n else l[j - 1]? := by
  have hle : insertAt rank n l ≤ l.length := insertAt_le rank n l
  rw [inserted_eq]
  split
  · next hlt => rw [List.getElem?_append_left (by rw [List.length_take]; omega), List.getElem?_take_of_lt hlt]
  · rw [List.getElem?_append_right (by rw [List.length_take]; omega), List.length_take, Nat.min_eq_left hle]
    split
    · next heq => rw [heq, Nat.sub_self, List.getElem?_cons_zero]
    · rw [show j - insertAt rank n l = j - insertAt rank n l - 1 + 1 by omega, List.getElem?_cons_succ,
        List.getElem?_drop]
      congr 1
      omega

theorem sorted_inserted (hsorted : l.Pairwise (Precedes rank)) (hlt : ∀ i ∈ l, i < n) :
    (inserted rank n l).Pairwise (Precedes rank) := by
  have hsplit := List.takeWhile_append_dropWhile (p := fun b => decide (¬ rank b < rank n)) (l := l)
  rw [← hsplit, List.pairwise_append] at hsorted
  obtain ⟨htake, hdrop, hcross⟩ := hsorted
  -- among equal ranks the new entry is the last one, since its index is the greatest
  have hbefore : ∀ b ∈ l.takeWhile (fun b => decide (¬ rank b < rank n)), Precedes rank b n := by
    intro b hb
    have hle : ¬ rank b < rank n := by simpa using List.mem_takeWhile_imp hb
    rcases (not_lt.1 hle).lt_or_eq with h | h
    · exact .inl h
    · exact .inr ⟨h.symm, hlt b (List.takeWhile_subset _ hb)⟩
  have hbehind : ∀ b ∈ l.dropWhile (fun b => decide (¬ rank b < rank n)), Precedes rank n b := by
    intro b hb
    cases hrest : l.dropWhile (fun b => decide (¬ rank b < rank n)) with
    | nil =>
      rw [hrest] at hb
      cases hb
    | cons c rest =>
      have hhead : rank c < rank n := by
        have hnot := List.head?_dropWhile_not (fun b => decide (¬ rank b < rank n)) l
        rw [hrest] at hnot
        simpa using hnot
      rw [hrest] at hb hdrop
      rcases List.mem_cons.1 hb with rfl | hb
      · exact .inl hhead
      · exact .inl (((List.pairwise_cons.1 hdrop).1 b hb).rank_le.trans_lt hhead)
  unfold inserted
  refine List.pairwise_append.2 ⟨htake, List.pairwise_cons.2 ⟨hbehind, hdrop⟩, ?_⟩
  intro a ha b hb
  rcases List.mem_cons.1 hb with rfl | hb
  · exact hbefore a ha
  · exact hcross a ha b hb

/-- A new entry is inserted into the window, and the last one falls out of it. -/
theorem insert (h : IsTopK rank eligible n k l) (hn : eligible n) :
    IsTopK rank eligible (n + 1) k ((inserted rank n l).take k) := by
  have hsorted := sorted_inserted h.sorted fun i hi => (h.mem i hi).1
  have hcross : ∀ a ∈ (inserted rank n l).take k, ∀ b ∈ (inserted rank n l).drop k, Precedes rank a b := by
    rw [← List.take_append_drop k (inserted rank n l), List.pairwise_append] at hsorted
    exact hsorted.2.2
  constructor
  · exact List.length_take_le k _
  · intro i hi
    rcases mem_inserted.1 (List.mem_of_mem_take hi) with rfl | hi
    · exact ⟨Nat.lt_succ_self i, hn⟩
    · exact ⟨Nat.lt_succ_of_lt (h.mem i hi).1, (h.mem i hi).2⟩
  · exact hsorted.sublist (List.take_sublist k _)
  · intro i hi helig hout
    rw [List.length_take, length_inserted]
    by_cases hin : i ∈ inserted rank n l
    · -- it fell out of the window
      have hdrop : i ∈ (inserted rank n l).drop k := by
        rw [← List.take_append_drop k (inserted rank n l), List.mem_append] at hin
        exact hin.resolve_left hout
      have hpos := List.length_pos_of_mem hdrop
      rw [List.length_drop, length_inserted] at hpos
      exact ⟨by omega, fun j hj => hcross j hj i hdrop⟩
    · -- it was not in the window before
      rw [mem_inserted, not_or] at hin
      obtain ⟨hlen, hrest⟩ := h.rest i (by omega) helig hin.2
      refine ⟨by omega, fun j hj => ?_⟩
      rcases mem_inserted.1 (List.mem_of_mem_take hj) with rfl | hold
      · -- the new entry pushed an old one out, and `i` is behind that one
        obtain ⟨z, hz⟩ := List.exists_mem_of_length_pos (l := (inserted rank j l).drop k)
          (by rw [List.length_drop, length_inserted]; omega)
        have hjz := hcross j hj z hz
        rcases mem_inserted.1 (List.mem_of_mem_drop hz) with rfl | hzl
        · exact absurd hjz Precedes.irrefl
        · exact hjz.trans (hrest z hzl)
      · exact hrest j hold

theorem skip (h : IsTopK rank eligible n k l) (hn : ¬ eligible n) : IsTopK rank eligible (n + 1) k l where
  length_le := h.length_le
  mem i hi := ⟨Nat.lt_succ_of_lt (h.mem i hi).1, (h.mem i hi).2⟩
  sorted := h.sorted
  rest i hi helig := h.rest i (by
    rcases Nat.lt_succ_iff_lt_or_eq.1 hi with hlt | rfl
    · exact hlt
    · exact absurd helig hn) helig

/-! ## A selection that grows -/

/-- The best of the entries that are left is the next one. -/
theorem snoc {b : Nat} (h : IsTopK rank eligible n k l) (hb : b < n) (helig : eligible b) (hout : b ∉ l)
    (hbest : ∀ i < n, eligible i → i ∉ l → i ≠ b → Precedes rank b i) : IsTopK rank eligible n (k + 1) (l ++ [b]) where
  length_le := by
    rw [List.length_append, List.length_singleton]
    exact Nat.succ_le_succ h.length_le
  mem i hi := by
    rcases List.mem_append.1 hi with hi | hi
    · exact h.mem i hi
    · rw [List.mem_singleton.1 hi]
      exact ⟨hb, helig⟩
  sorted := by
    refine List.pairwise_append.2 ⟨h.sorted, List.pairwise_singleton _ _, fun a ha c hc => ?_⟩
    rw [List.mem_singleton.1 hc]
    exact (h.rest b hb helig hout).2 a ha
  rest i hi hel hno := by
    rw [List.mem_append, List.mem_singleton, not_or] at hno
    rw [List.length_append, List.length_singleton]
    refine ⟨by rw [(h.rest b hb helig hout).1], fun j hj => ?_⟩
    rcases List.mem_append.1 hj with hj | hj
    · exact (h.rest i hi hel hno.1).2 j hj
    · rw [List.mem_singleton.1 hj]
      exact hbest i hi hel hno.1 hno.2

/-- Where none is left, the selection is complete for any number. -/
theorem complete {k' : Nat} (h : IsTopK rank eligible n k l) (hk : k ≤ k') (hall : ∀ i < n, eligible i → i ∈ l) :
    IsTopK rank eligible n k' l where
  length_le := h.length_le.trans hk
  mem := h.mem
  sorted := h.sorted
  rest i hi helig hno := absurd (hall i hi helig) hno

end IsTopK

end BitForge.Lib
